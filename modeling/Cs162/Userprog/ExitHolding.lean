import Mathlib.Data.List.Nodup
import Cs162.Userprog.LockExit

namespace Cs162.Userprog.Syscall
open Lib Lib.Proc

def Holding (k : Kernel) : Prop := k.fsLock.held = true

theorem not_holding_idle (S : Space) : ¬ Holding ⟨S, .idle⟩ := Bool.false_ne_true

theorem holding_lock (S : Space) (l : FsLock) : Holding ⟨S, l.lock⟩ := l.held_lock

def Space.accepts (S : Space) (vaddr size : ℕ) : Bool :=
  isUserRange vaddr size && S.survives (probes vaddr size)

theorem accessOk_eq (vaddr size : ℕ) (S : Space) (l : FsLock) :
    accessOk vaddr size ⟨S, l⟩ =
      if S.accepts vaddr size then (.ret true, ⟨S.after (probes vaddr size), l⟩)
      else if isUserRange vaddr size then (.exited, ⟨S.after (probes vaddr size), l⟩)
      else (.ret false, ⟨S, l⟩) := by
  have ht := touchAll_eq (probes vaddr size) S l
  rw [Space.accepts]
  by_cases hu : isUserRange vaddr size
  · have ha : accessOk vaddr size = (touchAll (probes vaddr size) >>= fun _ => pure true) := by
      simp [accessOk, hu]
    by_cases hs : S.survives (probes vaddr size)
    · rw [if_pos hs] at ht
      rw [ha, bind_of_ret ht]
      simp [hu, hs]
      rfl
    · rw [if_neg hs] at ht
      rw [ha, bind_of_exited (by rw [ht]), ht]
      simp [hu, hs]
  · simp [accessOk, hu]
    rfl

theorem exits_accessOk_bind {vaddr size : ℕ} {f : Bool → Call Unit} {S : Space} {l : FsLock}
    {Q : Kernel → Prop} :
    Exits (accessOk vaddr size >>= f) ⟨S, l⟩ Q ↔
      if S.accepts vaddr size then Exits (f true) ⟨S.after (probes vaddr size), l⟩ Q
      else if isUserRange vaddr size then Q ⟨S.after (probes vaddr size), l⟩
      else Exits (f false) ⟨S, l⟩ Q := by
  have h := accessOk_eq vaddr size S l
  split_ifs at h ⊢
  · exact exits_bind_of_ret h
  · rw [exits_bind_of_exited (by rw [h]), h]
  · exact exits_bind_of_ret h

theorem exits_sysExec (e : Env) (S : Space) (file : ℕ) :
    ¬ Exits (sysExec e file) ⟨S, .idle⟩ Holding := by
  simp [sysExec, exits_ite, exits_accessOk_bind, exits_touchAll, not_holding_idle]

theorem exits_sysWait (S : Space) (pid : ℕ) : ¬ Exits (sysWait pid) ⟨S, .idle⟩ Holding := by
  simp [sysWait, exits_ite, not_holding_idle]

theorem exits_onOpenFile (e : Env) (S : Space) (fd : ℕ) :
    ¬ Exits (onOpenFile e fd) ⟨S, .idle⟩ Holding := by
  simp only [onOpenFile, exits_ite]
  rcases e.fdTable fd <;> simp [not_holding_idle, exits_underLock]

def Space.readable (S : Space) (e : Env) (name : ℕ) : Bool :=
  (S.after (probes name 0)).survives (stringBytes e.mem name)

theorem exits_sysCreate (e : Env) (S : Space) (file : ℕ) :
    Exits (sysCreate e file) ⟨S, .idle⟩ Holding ↔
      S.accepts file 0 ∧ e.mem file ≠ 0 ∧ S.readable e file = false := by
  -- `filesys_create` reads the path that `filesys_open` has read
  have hagain : (S.after (probes file 0)).survives (stringBytes e.mem file) →
      ((S.after (probes file 0)).after (stringBytes e.mem file)).survives (stringBytes e.mem file) :=
    Space.survives_again
  simp only [sysCreate, readPath, Space.readable, exits_accessOk_bind]
  simp [exits_ite, exits_lock_bind, exits_touchAll_bind, exits_unlock, not_holding_idle, holding_lock]
  grind

theorem exits_sysRemove (e : Env) (S : Space) (file : ℕ) :
    Exits (sysRemove e file) ⟨S, .idle⟩ Holding ↔
      S.accepts file 0 ∧ S.readable e file = false := by
  simp [sysRemove, readPath, Space.readable, exits_accessOk_bind, exits_lock_bind,
    exits_touchAll_bind, exits_unlock, not_holding_idle, holding_lock]

theorem exits_sysOpen (e : Env) (S : Space) (file : ℕ) :
    Exits (sysOpen e file) ⟨S, .idle⟩ Holding ↔
      file ≠ 0 ∧ S.accepts file 0 ∧ S.readable e file = false := by
  simp [sysOpen, readPath, Space.readable, exits_ite, exits_accessOk_bind, exits_lock_bind,
    exits_touchAll_bind, exits_unlock, not_holding_idle, holding_lock]

def Space.transfers (write : Bool) (file : OpenFile) : Space → ℕ → List (ℕ × ℕ) → Prop
  | _, _, [] => True
  | S, k, c :: cs =>
    let xs := byteRange write c.1 (min c.2 (file.moves k))
    S.survives xs ∧ ((S.after xs).lookup c.1 = none ∨ (S.after xs).transfers write file (k + 1) cs)

theorem exits_transfer (write : Bool) (file : OpenFile) (S : Space) (k : ℕ) (cs : List (ℕ × ℕ)) :
    Exits (transfer write file k cs) ⟨S, .idle⟩ Holding ↔ ¬ S.transfers write file k cs := by
  induction cs generalizing S k with
  | nil => simp [transfer, Space.transfers]
  | cons c cs ih =>
    simp only [transfer, Space.transfers, exits_lock_bind, exits_touchAll_bind]
    by_cases hs : S.survives (byteRange write c.1 (min c.2 (file.moves k)))
    · simp only [hs, if_true, exits_unlock_bind, exits_lookup_bind, true_and]
      rcases (S.after (byteRange write c.1 (min c.2 (file.moves k)))).lookup c.1 with _ | p
      · simp
      · simpa using ih _ _
    · simp [hs, holding_lock]

def Space.moves (S : Space) (write console : Bool) (file : OpenFile) (buffer size : ℕ) : Prop :=
  if console then
    S.survives (byteRange write buffer size) →
      (S.after (byteRange write buffer size)).transfers write file 0 (chunks buffer size)
  else S.transfers write file 0 (chunks buffer size)

theorem exits_sysRead (e : Env) (S : Space) (fd buffer size : ℕ) :
    Exits (sysRead e fd buffer size) ⟨S, .idle⟩ Holding ↔
      S.accepts buffer size ∧ validUserFd fd ∧ fd ≠ stdoutFileno ∧
        ∃ file, e.fdTable fd = some file ∧
          ¬ (S.after (probes buffer size)).moves true (fd = stdinFileno) file buffer size := by
  simp only [sysRead, Space.moves, exits_accessOk_bind]
  rcases hf : e.fdTable fd with _ | file <;>
    simp [exits_ite, exits_touchAll_bind, exits_transfer, not_holding_idle]
  grind

theorem exits_sysWrite (e : Env) (S : Space) (fd buffer size : ℕ) :
    Exits (sysWrite e fd buffer size) ⟨S, .idle⟩ Holding ↔
      S.accepts buffer size ∧ validUserFd fd ∧ fd ≠ stdinFileno ∧
        ∃ file, e.fdTable fd = some file ∧ file.isDir = false ∧
          ¬ (S.after (probes buffer size)).moves false (fd = stdoutFileno) file buffer size := by
  simp only [sysWrite, Space.moves, exits_accessOk_bind]
  rcases hf : e.fdTable fd with _ | file <;>
    simp [exits_ite, exits_touchAll_bind, exits_transfer, not_holding_idle]
  grind

def Space.strands (S : Space) (a : ℕ) : Bool :=
  match S.lookup a with
  | some p => p.resident && p.dirty && p.file.isNone
  | none => false

theorem Space.strands_put_of_ne {S : Space} {a b : ℕ} (hab : b / pgSize ≠ a / pgSize)
    (p : Option Page) : (S.put a p).strands b = S.strands b := by
  rw [Space.strands, Space.lookup_put_of_ne hab, Space.strands]

theorem Space.strands_put_fresh {S : Space} {a : ℕ} (ha : S.lookup a = none) (b : ℕ) :
    (S.put a (some freshPage)).strands b = S.strands b := by
  by_cases hab : b / pgSize = a / pgSize
  · by_cases hb : b < physBase
    · have hlt : a < physBase := by
        simp only [pgSize, physBase] at hab hb ⊢
        omega
      have hS : S.lookup b = none := by
        rw [← ha]
        simp [Space.lookup, hb, hlt, hab]
      have hP : (S.put a (some freshPage)).lookup b = some freshPage := by
        simp [Space.lookup, Space.put, hb, hab]
      rw [Space.strands, hP, Space.strands, hS]
      rfl
    · simp [Space.strands, Space.lookup, hb]
  · exact Space.strands_put_of_ne hab _

theorem exits_pageMunmap (upages : List ℕ) (hn : (upages.map (· / pgSize)).Nodup) (S : Space)
    (l : FsLock) :
    Exits (pageMunmap upages) ⟨S, l⟩ Holding ↔ l.held ∧ ∃ a ∈ upages, S.strands a := by
  induction upages generalizing S with
  | nil => simp [pageMunmap]
  | cons a as ih =>
    simp only [List.map_cons, List.nodup_cons, List.mem_map, not_exists, not_and] at hn
    have hrest : ∀ p, (∃ b ∈ as, (S.put a p).strands b) ↔ ∃ b ∈ as, S.strands b := by
      intro p
      refine exists_congr fun b => and_congr_right fun hb => ?_
      rw [Space.strands_put_of_ne (hn.1 b hb)]
    simp only [pageMunmap, exits_lookup_bind]
    rcases hl : S.lookup a with _ | p
    · have hst : S.strands a = false := by simp [Space.strands, hl]
      simp [ih hn.2, hst]
    · have hst : S.strands a = (p.resident && p.dirty && p.file.isNone) := by
        simp [Space.strands, hl]
      simp only [List.mem_cons, exists_eq_or_imp, hst]
      by_cases hb : (p.resident && p.dirty && p.file.isNone) = true
      · simp [hb, readNull, Holding]
      · simp [hb, exits_setPage_bind, ih hn.2, hrest]

theorem Mmap.nodup_upages (m : Mmap) : (m.upages.map (· / pgSize)).Nodup := by
  rw [Mmap.upages, List.map_map]
  refine List.Nodup.map ?_ List.nodup_range
  intro i j h
  have hd : ∀ i, (m.vaddr + i * pgSize) / pgSize = m.vaddr / pgSize + i := fun i =>
    Nat.add_mul_div_right _ _ (by decide)
  simp only [Function.comp, hd] at h
  omega

theorem exits_sysMunmap (ms : List Mmap) (mapid : ℕ) (S : Space) (l : FsLock) :
    Exits (sysMunmap ms mapid) ⟨S, l⟩ Holding ↔ l.held ∧ (validFileFd mapid = false ∨
      ∃ m, mmapGetId ms mapid = some m ∧ ∃ a ∈ m.upages, S.strands a) := by
  simp only [sysMunmap]
  rcases hm : mmapGetId ms mapid with _ | m <;>
    simp [exits_ite, exits_pageMunmap _ (Mmap.nodup_upages _), Holding] <;>
    grind

theorem exits_mapPages (ms : List Mmap) (mapid : ℕ) (hid : validFileFd mapid) (upages : List ℕ)
    (hn : (upages.map (· / pgSize)).Nodup) (S : Space) (l : FsLock) :
    Exits (mapPages ms mapid upages) ⟨S, l⟩ Holding ↔
      l.held ∧ (∃ a ∈ upages, (S.lookup a).isSome) ∧
        ∃ m, mmapGetId ms mapid = some m ∧ ∃ a ∈ m.upages, S.strands a := by
  induction upages generalizing S with
  | nil => simp [mapPages]
  | cons a as ih =>
    simp only [List.map_cons, List.nodup_cons, List.mem_map, not_exists, not_and] at hn
    simp only [mapPages, exits_lookup_bind, List.mem_cons, exists_eq_or_imp]
    rcases hl : S.lookup a with _ | p
    · have halloc : pageAlloc a ⟨S, l⟩ = (.ret (), ⟨S.put a (some freshPage), l⟩) := by
        rw [pageAlloc_eq, hl]
        rfl
      have hrest : (∃ b ∈ as, ((S.put a (some freshPage)).lookup b).isSome) ↔
          ∃ b ∈ as, (S.lookup b).isSome := by
        refine exists_congr fun b => and_congr_right fun hb => ?_
        rw [Space.lookup_put_of_ne (hn.1 b hb)]
      simp [exits_bind_of_ret halloc, ih hn.2, hrest, Space.strands_put_fresh hl]
    · simp [exits_sysMunmap, hid]

theorem exits_sysMmap (e : Env) (fd buffer : ℕ) (S : Space) (l : FsLock) :
    Exits (sysMmap e fd buffer) ⟨S, l⟩ Holding ↔ l.held ∧ mmapRefuses fd buffer = false ∧
      (e.fdTable fd = none ∨ ∃ file, e.fdTable fd = some file ∧ file.length ≠ 0 ∧
        (∃ a ∈ (Mmap.mk fd buffer file.length).upages, (S.lookup a).isSome) ∧
        ∃ m, mmapGetId (e.mmapList ++ [⟨fd, buffer, file.length⟩]) fd = some m ∧
          ∃ a ∈ m.upages, S.strands a) := by
  simp only [sysMmap]
  by_cases hr : mmapRefuses fd buffer
  · simp [hr]
  have hid : validFileFd fd := by
    simp only [mmapRefuses, Bool.or_eq_true, not_or, Bool.not_eq_true'] at hr
    simpa using hr.1.1.2
  rcases hf : e.fdTable fd with _ | file
  · simp [hr, readNull, Holding]
  · by_cases hlen : file.length = 0
    · simp [hr, hlen]
    · simp [hr, hlen, exits_mapPages _ _ hid _ (Mmap.nodup_upages _)]

section Bracketed

variable (e : Env) (S : Space) {l : FsLock} (hl : l.held)
include hl

theorem exits_sysChdir (dir : ℕ) :
    Exits (sysChdir e dir) ⟨S, l⟩ Holding ↔ ¬ (S.accepts dir 0 ∧ S.readable e dir) := by
  simp [sysChdir, exits_accessOk_bind, readPath, exits_touchAll, Space.readable, Holding, hl]

theorem exits_sysMkdir (dir : ℕ) :
    Exits (sysMkdir e dir) ⟨S, l⟩ Holding ↔ ¬ (S.accepts dir 0 ∧ S.readable e dir) := by
  simp [sysMkdir, exits_accessOk_bind, readPath, exits_lock_bind, exits_touchAll_bind, exits_unlock,
    Space.readable, Holding, hl, FsLock.held_lock]

theorem exits_sysReaddir (fd name : ℕ) :
    Exits (sysReaddir e fd name) ⟨S, l⟩ Holding ↔ ¬ (S.accepts name 0 ∧ validFileFd fd ∧
      ∀ file n, e.fdTable fd = some file → file.isDir → file.nextName = some n →
        (S.after (probes name 0)).survives (byteRange true name (n + 1))) := by
  simp only [sysReaddir, exits_accessOk_bind]
  rcases hf : e.fdTable fd with _ | file
  · simp [exits_ite, Holding, hl]
  · rcases hd : file.isDir <;> rcases hn : file.nextName <;>
      simp [exits_ite, exits_touchAll, Holding, hl, hd, hn]

theorem exits_sysIsdir (fd : ℕ) :
    Exits (sysIsdir fd) ⟨S, l⟩ Holding ↔ validFileFd fd = false := by
  rw [sysIsdir]
  rcases validFileFd fd <;> simp [Holding, hl]

theorem exits_sysIsnumber (fd : ℕ) :
    Exits (sysIsnumber e fd) ⟨S, l⟩ Holding ↔ validFileFd fd = false := by
  simp only [sysIsnumber, exits_ite]
  rcases validFileFd fd <;> rcases e.fdTable fd <;> simp [Holding, hl, exits_underLock]

end Bracketed

theorem exits_bracket (c : Call Unit) (S : Space) :
    Exits (bracket c) ⟨S, .idle⟩ Holding ↔ Exits c ⟨S, FsLock.idle.lock⟩ Holding := by
  have hu : ∀ k, ¬ Exits unlockFilesys k Holding := by
    intro k h
    have h := h.1
    rw [unlockFilesys] at h
    split at h <;> cases h
  rw [bracket, exits_lock_bind]
  exact exits_bind_of_never fun _ => hu

def Safe (e : Env) (S : Space) : SysNo → Prop
  | .create => S.accepts (e.arg 1) 0 → e.mem (e.arg 1) ≠ 0 → S.readable e (e.arg 1)
  | .remove => S.accepts (e.arg 1) 0 → S.readable e (e.arg 1)
  | .openFile => e.arg 1 ≠ 0 → S.accepts (e.arg 1) 0 → S.readable e (e.arg 1)
  | .read => S.accepts (e.arg 2) (e.arg 3) → validUserFd (e.arg 1) → e.arg 1 ≠ stdoutFileno →
      ∀ file, e.fdTable (e.arg 1) = some file →
        (S.after (probes (e.arg 2) (e.arg 3))).moves true (e.arg 1 = stdinFileno) file
          (e.arg 2) (e.arg 3)
  | .write => S.accepts (e.arg 2) (e.arg 3) → validUserFd (e.arg 1) → e.arg 1 ≠ stdinFileno →
      ∀ file, e.fdTable (e.arg 1) = some file → file.isDir = false →
        (S.after (probes (e.arg 2) (e.arg 3))).moves false (e.arg 1 = stdoutFileno) file
          (e.arg 2) (e.arg 3)
  | .mmap => mmapRefuses (e.arg 1) (e.arg 2) = false →
      ∃ file, e.fdTable (e.arg 1) = some file ∧ (file.length ≠ 0 →
        (∃ a ∈ (Mmap.mk (e.arg 1) (e.arg 2) file.length).upages, (S.lookup a).isSome) →
        ∀ m, mmapGetId (e.mmapList ++ [⟨e.arg 1, e.arg 2, file.length⟩]) (e.arg 1) = some m →
          ∀ a ∈ m.upages, S.strands a = false)
  | .munmap => validFileFd (e.arg 1) ∧
      ∀ m, mmapGetId e.mmapList (e.arg 1) = some m → ∀ a ∈ m.upages, S.strands a = false
  | .chdir | .mkdir => S.accepts (e.arg 1) 0 ∧ S.readable e (e.arg 1)
  | .readdir => S.accepts (e.arg 2) 0 ∧ validFileFd (e.arg 1) ∧
      ∀ file n, e.fdTable (e.arg 1) = some file → file.isDir → file.nextName = some n →
        (S.after (probes (e.arg 2) 0)).survives (byteRange true (e.arg 2) (n + 1))
  | .isdir | .inumber => validFileFd (e.arg 1)
  | .halt | .exit | .exec | .wait | .filesize | .seek | .tell | .close => True

theorem exits_dispatch (e : Env) (S : Space) (no : SysNo) :
    Exits (dispatch e no) ⟨S, .idle⟩ Holding ↔ ¬ Safe e S no := by
  have hl : FsLock.idle.lock.held = true := rfl
  cases no with
  | halt => simp [dispatch, Safe]
  | exit => simp [dispatch, Safe, not_holding_idle]
  | exec => simp [dispatch, Safe, exits_sysExec]
  | wait => simp [dispatch, Safe, exits_sysWait]
  | create => simp [dispatch, Safe, exits_sysCreate]
  | remove => simp [dispatch, Safe, exits_sysRemove]
  | openFile => simp [dispatch, Safe, exits_sysOpen]
  | filesize => simp [dispatch, Safe, sysFilesize, exits_onOpenFile]
  | read => simp [dispatch, Safe, exits_sysRead]
  | write => simp [dispatch, Safe, exits_sysWrite]
  | seek => simp [dispatch, Safe, sysSeek, exits_onOpenFile]
  | tell => simp [dispatch, Safe, sysTell, exits_onOpenFile]
  | close => simp [dispatch, Safe, sysClose, exits_onOpenFile]
  | mmap =>
    simp only [dispatch, exits_bracket, exits_sysMmap, Safe, hl]
    rcases e.fdTable (e.arg 1) with _ | file
    · simp
    · simp
      intro _ _
      simp only [← and_assoc, exists_and_right]
  | munmap =>
    simp only [dispatch, exits_bracket, exits_sysMunmap, Safe, hl]
    rcases validFileFd (e.arg 1) <;> simp
  | chdir => exact (exits_bracket _ S).trans (exits_sysChdir e S hl _)
  | mkdir => exact (exits_bracket _ S).trans (exits_sysMkdir e S hl _)
  | readdir => exact (exits_bracket _ S).trans (exits_sysReaddir e S hl _ _)
  | isdir => simp [dispatch, Safe, exits_bracket, exits_sysIsdir S hl]
  | inumber => simp [dispatch, Safe, exits_bracket, exits_sysIsnumber e S hl]

def Keeps {α : Type} (c : Call α) : Prop := ∀ k, (c k).2.fsLock = k.fsLock

section Keeps

variable {α β : Type} {c : Call α} {f : α → Call β}

theorem Keeps.bind (hc : Keeps c) (hf : ∀ a, Keeps (f a)) : Keeps (c >>= f) := by
  intro k
  have hk := hc k
  rcases h : c k with ⟨o, k'⟩
  rw [h] at hk
  cases o with
  | ret a => rw [bind_of_ret h, hf a k', hk]
  | exited => rw [bind_of_exited (by rw [h]), h, hk]
  | stopped => rw [bind_of_stopped h, hk]

theorem keeps_touchAll (xs : List (Bool × ℕ)) : Keeps (touchAll xs) := by
  intro k
  rw [show k = ⟨k.space, k.fsLock⟩ from rfl, touchAll_eq]

theorem keeps_readArgument (e : Env) (offset : ℕ) : Keeps (readArgument e offset) := by
  have ha : Keeps (accessOk e.esp (4 * offset)) := by
    rw [accessOk]
    split
    · exact fun _ => rfl
    · exact (keeps_touchAll _).bind fun _ _ => rfl
  refine ha.bind fun b => ?_
  rcases b
  · exact fun _ => rfl
  · exact (keeps_touchAll _).bind fun _ _ => rfl

theorem keeps_readArguments (e : Env) (n : ℕ) : Keeps (readArguments e n) := by
  induction n with
  | zero => exact fun _ => rfl
  | succ n ih => exact ih.bind fun _ => (keeps_readArgument e _).bind fun _ _ => rfl

theorem keeps_request (e : Env) : Keeps (request e) := by
  refine (keeps_readArgument e 0).bind fun arg0 => ?_
  have hsp : Keeps (setStackPointer e.esp) := fun _ => rfl
  refine hsp.bind fun _ => ?_
  rcases SysNo.all[arg0]? with _ | no
  · exact fun _ => rfl
  · exact (keeps_readArguments e _).bind fun _ _ => rfl

theorem Keeps.exits_bind (hc : Keeps c) (S : Space) :
    Exits (c >>= f) ⟨S, .idle⟩ Holding ↔
      ∃ a S', c ⟨S, .idle⟩ = (.ret a, ⟨S', .idle⟩) ∧ Exits (f a) ⟨S', .idle⟩ Holding := by
  have hk := hc ⟨S, .idle⟩
  rcases h : c ⟨S, .idle⟩ with ⟨o, S', l'⟩
  rw [h] at hk
  obtain rfl : l' = .idle := hk
  cases o with
  | ret a =>
    rw [exits_bind_of_ret h]
    simp
  | exited =>
    rw [exits_bind_of_exited (by rw [h]), h]
    simp [not_holding_idle]
  | stopped =>
    rw [Exits, bind_of_stopped h]
    simp

end Keeps

theorem not_held_after_exit_iff (e : Env) (S : Space) :
    (∀ k, syscallHandler e ⟨S, .idle⟩ = (.exited, k) → k.fsLock.held = false) ↔
      ∀ no S', request e ⟨S, .idle⟩ = (.ret (some no), ⟨S', .idle⟩) → Safe e S' no := by
  have hexit : (∀ k, syscallHandler e ⟨S, .idle⟩ = (.exited, k) → k.fsLock.held = false) ↔
      ¬ Exits (syscallHandler e) ⟨S, .idle⟩ Holding := by
    rw [Exits]
    constructor
    · intro h hx
      have hheld := h _ (Prod.ext hx.1 rfl)
      exact Bool.false_ne_true (hheld.symm.trans hx.2)
    · intro h k hk
      rw [hk] at h
      simpa [Holding] using h
  rw [hexit, syscallHandler, (keeps_request e).exits_bind S]
  constructor
  · intro h no S' hr
    by_contra hs
    exact h ⟨some no, S', hr, (exits_dispatch e S' no).mpr hs⟩
  · rintro h ⟨_ | no, S', hr, hx⟩
    · exact exits_pure.mp hx
    · exact (exits_dispatch e S' no).mp hx (h no S' hr)

def isdirBadFd : Env where
  esp := physBase - 8
  mem a := if a = physBase - 8 then 18 else if physBase - 4 ≤ a then 255 else 0
  fdTable _ := none
  mmapList := []
  found := false

def stackOnly : Space where
  pages p := if p = physBase / pgSize - 1 then some { freshPage with resident := true } else none
  stackPointer := physBase - 8

theorem held_after_isdir_badFd :
    ∃ k, syscallHandler isdirBadFd ⟨stackOnly, .idle⟩ = (.exited, k) ∧ k.fsLock.held = true := by
  refine ⟨(syscallHandler isdirBadFd ⟨stackOnly, .idle⟩).2, Prod.ext ?_ rfl, ?_⟩
  · decide +kernel
  · decide +kernel

end Cs162.Userprog.Syscall
