import Cs162.Kvstore.TPCLog

namespace Cs162.Kvstore.LogFlush

structure Serialization (B : Type) where
  writeObject : List KVMessage → List B
  readObject : List B → Option (List KVMessage)
  read_write : ∀ entries, readObject (writeObject entries) = some entries
  read_truncated : ∀ entries n, n < (writeObject entries).length →
    readObject ((writeObject entries).take n) = none

inductive DiskOp (B : Type)
  | openFile
  | write (b : B)

variable {B : Type}

def DiskOp.apply : Option (List B) → DiskOp B → Option (List B)
  | _, .openFile => some []
  | file, .write b => file.map (· ++ [b])

structure Log (B : Type) where
  entries : List KVMessage
  file : Option (List B)

namespace Serialization
variable (S : Serialization B)

def flushToDisk (entries : List KVMessage) : List (DiskOp B) :=
  .openFile :: (S.writeObject entries).map .write

def appendAndFlush (log : Log B) (entry : KVMessage) (n : ℕ) : Log B :=
  ⟨log.entries ++ [entry], ((S.flushToDisk (log.entries ++ [entry])).take n).foldl DiskOp.apply log.file⟩

def loadFromDisk (log : Log B) : Log B := { log with entries := (log.file.bind S.readObject).getD log.entries }

def restart (file : Option (List B)) : List KVMessage := (S.loadFromDisk ⟨[], file⟩).entries

def Flushed (log : Log B) : Prop :=
  log.file = some (S.writeObject log.entries) ∨ log.file = none ∧ log.entries = []

theorem foldl_write (bytes written : List B) :
    (bytes.map DiskOp.write).foldl DiskOp.apply (some written) = some (written ++ bytes) := by
  induction bytes generalizing written with
  | nil => simp
  | cons b bytes ih =>
    rw [List.map_cons, List.foldl_cons, DiskOp.apply, Option.map_some, ih, List.append_assoc]
    rfl

variable {S} {log : Log B}

theorem appendAndFlush_file_zero (entry : KVMessage) : (S.appendAndFlush log entry 0).file = log.file := rfl

theorem appendAndFlush_file_succ (entry : KVMessage) (n : ℕ) :
    (S.appendAndFlush log entry (n + 1)).file = some ((S.writeObject (log.entries ++ [entry])).take n) := by
  rw [appendAndFlush, flushToDisk, List.take_succ_cons, List.foldl_cons, DiskOp.apply, ← List.map_take,
    foldl_write, List.nil_append]

theorem restart_eq (file : Option (List B)) : S.restart file = (file.bind S.readObject).getD [] := rfl

theorem restart_of_flushed (h : S.Flushed log) : S.restart log.file = log.entries := by
  rw [restart_eq]
  obtain hfile | ⟨hfile, hempty⟩ := h
  · rw [hfile, Option.bind_some, S.read_write]
    rfl
  · rw [hfile, hempty]
    rfl

theorem restart_truncated {entries : List KVMessage} {n : ℕ} (h : n < (S.writeObject entries).length) :
    S.restart (some ((S.writeObject entries).take n)) = [] := by
  rw [restart_eq, Option.bind_some, S.read_truncated entries n h]
  rfl

theorem restart_complete (entry : KVMessage) {n : ℕ} (hn : (S.writeObject (log.entries ++ [entry])).length < n)
    (file : Option (List KVMessage)) :
    S.restart (S.appendAndFlush log entry n).file =
      (TPCLog.appendAndFlush ⟨log.entries, file⟩ entry).loadFromDisk.entries := by
  obtain ⟨k, rfl⟩ : ∃ k, n = k + 1 := ⟨n - 1, by omega⟩
  rw [appendAndFlush_file_succ, List.take_of_length_le (by omega), restart_eq, Option.bind_some, S.read_write]
  rfl

theorem restart_crashed_iff (h : S.Flushed log) (entry : KVMessage) (n : ℕ) :
    S.restart (S.appendAndFlush log entry n).file = log.entries ∨
        S.restart (S.appendAndFlush log entry n).file = log.entries ++ [entry] ↔
      log.entries = [] ∨ n = 0 ∨ (S.writeObject (log.entries ++ [entry])).length < n := by
  cases n with
  | zero =>
    rw [appendAndFlush_file_zero, restart_of_flushed h]
    exact iff_of_true (.inl rfl) (.inr (.inl rfl))
  | succ n =>
    by_cases hn : n < (S.writeObject (log.entries ++ [entry])).length
    · rw [appendAndFlush_file_succ, restart_truncated hn]
      constructor
      · rintro (hold | hnew)
        · exact .inl hold.symm
        · exact absurd hnew.symm (List.append_ne_nil_of_right_ne_nil _ nofun)
      · rintro (hempty | hzero | hlast)
        · exact .inl hempty.symm
        · exact absurd hzero (Nat.succ_ne_zero n)
        · omega
    · have hwhole : S.restart (S.appendAndFlush log entry (n + 1)).file = log.entries ++ [entry] :=
        restart_complete entry (by omega) none
      exact iff_of_true (.inr hwhole) (.inr (.inr (by omega)))

end Serialization

def readMarked : List (Option KVMessage) → Option (List KVMessage)
  | [] => none
  | none :: _ => some []
  | some entry :: rest => (readMarked rest).map (entry :: ·)

theorem readMarked_marked (entries : List KVMessage) : readMarked (entries.map some ++ [none]) = some entries := by
  induction entries with
  | nil => rfl
  | cons entry entries ih => rw [List.map_cons, List.cons_append, readMarked, ih, Option.map_some]

theorem readMarked_truncated (entries : List KVMessage) (n : ℕ) (h : n < (entries.map some ++ [none]).length) :
    readMarked ((entries.map some ++ [none]).take n) = none := by
  induction entries generalizing n with
  | nil =>
    obtain rfl : n = 0 := by simpa using h
    rfl
  | cons entry entries ih =>
    cases n with
    | zero => rfl
    | succ n =>
      rw [List.map_cons, List.cons_append, List.take_succ_cons, readMarked, ih n (by simpa using h),
        Option.map_none]

def marked : Serialization (Option KVMessage) where
  writeObject entries := entries.map some ++ [none]
  readObject := readMarked
  read_write := readMarked_marked
  read_truncated := readMarked_truncated

def oneEntry : Log (Option KVMessage) := ⟨[.ofType .abort], some [some (.ofType .abort), none]⟩

theorem restart_crashed_iff_oneEntry :
    marked.Flushed oneEntry ∧
      (marked.restart (marked.appendAndFlush oneEntry (.ofType .commit) 4).file = oneEntry.entries ∨
        marked.restart (marked.appendAndFlush oneEntry (.ofType .commit) 4).file =
          oneEntry.entries ++ [.ofType .commit]) :=
  have hflushed : marked.Flushed oneEntry := .inl rfl
  ⟨hflushed, (Serialization.restart_crashed_iff hflushed _ 4).mpr (.inr (.inr (by decide)))⟩

theorem restart_opened : marked.Flushed oneEntry ∧ oneEntry.entries = [.ofType .abort] ∧
    marked.restart (marked.appendAndFlush oneEntry (.ofType .commit) 1).file = [] :=
  ⟨.inl rfl, rfl, rfl⟩

end Cs162.Kvstore.LogFlush
