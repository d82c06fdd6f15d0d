import Cs162.Userprog.Asserts

namespace Cs162.Userprog.Asserts
open Lib Lib.Proc Syscall

section Rules
variable {β : Type} {S : Space} {l : FsLock}

theorem stops_accessOk_bind {vaddr size : ℕ} {f : Bool → Call β} :
    Stops (accessOk vaddr size >>= f) ⟨S, l⟩ ↔
      if S.accepts vaddr size then Stops (f true) ⟨S.after (probes vaddr size), l⟩
      else isUserRange vaddr size = false ∧ Stops (f false) ⟨S, l⟩ := by
  have h := accessOk_eq vaddr size S l
  by_cases ha : S.accepts vaddr size
  · rw [if_pos ha] at h ⊢
    exact stops_bind_of_ret h
  rw [if_neg ha] at h ⊢
  by_cases hu : isUserRange vaddr size
  · rw [if_pos hu] at h
    exact iff_of_false (not_stops_bind_of_exited (by rw [h])) (by simp [hu])
  · rw [if_neg hu] at h
    simp [hu, stops_bind_of_ret h]

theorem stops_touchAll_bind {xs : List (Bool × ℕ)} {f : Unit → Call β} :
    Stops (touchAll xs >>= f) ⟨S, l⟩ ↔ S.survives xs ∧ Stops (f ()) ⟨S.after xs, l⟩ := by
  have ht := touchAll_eq xs S l
  by_cases hs : S.survives xs
  · rw [if_pos hs] at ht
    simp [hs, stops_bind_of_ret ht]
  · rw [if_neg hs] at ht
    exact iff_of_false (not_stops_bind_of_exited (by rw [ht])) fun h => hs h.1

theorem stops_lock_bind {f : Unit → Call β} :
    Stops (lockFilesys >>= f) ⟨S, l⟩ ↔ Stops (f ()) ⟨S, l.lock⟩ := Iff.rfl

theorem stops_unlock_bind {f : Unit → Call β} :
    Stops (unlockFilesys >>= f) ⟨S, l.lock⟩ ↔ Stops (f ()) ⟨S, l⟩ :=
  stops_bind_of_ret (unlockFilesys_lock S l)

theorem stops_unlock : Stops unlockFilesys ⟨S, l.lock⟩ ↔ False := by
  simp [Stops, unlockFilesys_lock]

theorem stops_lookup_bind {a : ℕ} {f : Option Page → Call β} :
    Stops (pageLookup a >>= f) ⟨S, l⟩ ↔ Stops (f (S.lookup a)) ⟨S, l⟩ := Iff.rfl

theorem stops_setPage_bind {a : ℕ} {p : Option Page} {f : Unit → Call β} :
    Stops (setPage a p >>= f) ⟨S, l⟩ ↔ Stops (f ()) ⟨S.put a p, l⟩ := Iff.rfl

theorem stops_assert_bind {b : Bool} {f : Unit → Call β} {k : Kernel} :
    Stops (assert b >>= f) k ↔ (b = true → Stops (f ()) k) := by
  cases b
  · exact iff_of_true rfl nofun
  · exact ⟨fun h _ => h, fun h => h rfl⟩

end Rules

theorem stops_sysSeek (p : Caller) (S : Space) (fd position : ℕ) :
    Stops (sysSeek p fd position) ⟨S, .idle⟩ ↔
      validUserFd fd ∧ (p.fdTable fd).isSome ∧ nonneg position = false := by
  simp only [sysSeek, stops_ite]
  rcases p.fdTable fd <;> simp [stops_lock_bind, fileSeek, bind_assoc, stops_assert_bind, stops_unlock]

theorem not_stops_sysFilesize (p : Caller) (S : Space) (fd : ℕ) : ¬ Stops (sysFilesize p fd) ⟨S, .idle⟩ := by
  simp only [sysFilesize, stops_ite]
  rcases p.fdTable fd <;> simp [stops_lock_bind, fileLength, follow, bind_assoc, stops_assert_bind, stops_unlock]

theorem stops_sysCreate (p : Caller) (S : Space) (file initialSize : ℕ) :
    Stops (sysCreate p file initialSize) ⟨S, .idle⟩ ↔
      S.accepts file 0 ∧ p.mem file ≠ 0 ∧ S.readable p.toEnv file ∧ p.found = false ∧ p.placeable ∧
        nonneg initialSize = false := by
  have hagain : (S.after (probes file 0)).survives (stringBytes p.mem file) →
      ((S.after (probes file 0)).after (stringBytes p.mem file)).survives (stringBytes p.mem file) :=
    Space.survives_again
  simp only [sysCreate, filesysCreate, readPath, Space.readable, stops_accessOk_bind, inodeCreate]
  rcases p.found <;> rcases p.placeable <;>
    simp [stops_ite, bind_assoc, stops_lock_bind, stops_touchAll_bind, stops_unlock, stops_assert_bind]
  grind

theorem not_stops_pageMunmap (upages : List ℕ) (S : Space) (l : FsLock) : ¬ Stops (pageMunmap upages) ⟨S, l⟩ := by
  induction upages generalizing S with
  | nil => simp [pageMunmap]
  | cons a as ih =>
    rw [pageMunmap, stops_lookup_bind]
    rcases S.lookup a with _ | p
    · exact ih S
    · by_cases hb : (p.resident && p.dirty && p.file.isNone) = true
      · simp [hb, readNull]
      · simp [hb, stops_setPage_bind, ih]

theorem not_stops_sysMunmap (ms : List Mmap) (mapid : ℕ) (S : Space) (l : FsLock) :
    ¬ Stops (sysMunmap ms mapid) ⟨S, l⟩ := by
  simp only [sysMunmap]
  rcases mmapGetId ms mapid with _ | m <;> simp [stops_ite, not_stops_pageMunmap]

theorem not_stops_mapPages (ms : List Mmap) (mapid : ℕ) (upages : List ℕ) (S : Space) (l : FsLock) :
    ¬ Stops (mapPages ms mapid upages) ⟨S, l⟩ := by
  induction upages generalizing S with
  | nil => simp [mapPages]
  | cons a as ih =>
    rw [mapPages, stops_lookup_bind]
    rcases S.lookup a with _ | p
    · simp [stops_bind_of_ret (pageAlloc_eq a S l), ih]
    · simp [not_stops_sysMunmap]

theorem stops_sysMmap (p : Caller) (fd buffer : ℕ) (S : Space) (l : FsLock) :
    Stops (sysMmap p fd buffer) ⟨S, l⟩ ↔ mmapRefuses fd buffer = false ∧ p.fdTable fd = none := by
  simp only [sysMmap, fileReopen, fileLength, fileSeek]
  rcases p.fdTable fd with _ | file <;>
    simp [stops_ite, follow, bind_assoc, stops_assert_bind, nonneg, not_stops_mapPages]

def nullFills (S : Space) : Bool := (S.lookup 0).any Page.fills

theorem pageIn_null (S : Space) (l : FsLock) :
    ∃ S', pageIn 0 ⟨S, l⟩ = (.ret (nullFills S), ⟨S', l⟩) ∧ (nullFills S = false → S' = S) := by
  have hgrown : S.grown 0 = S := by simp [Space.grown, isStack, physBase, stackSize]
  have h := pageIn_eq 0 S l
  rw [hgrown] at h
  rcases hp : S.lookup 0 with _ | p <;> rw [hp] at h
  · exact ⟨S, by simp [h, nullFills, hp], fun _ => rfl⟩
  · rcases hf : p.fills
    · exact ⟨S, by simp [h, nullFills, hp, hf], fun _ => rfl⟩
    · exact ⟨_, by simp [h, nullFills, hp, hf]; rfl, by simp [nullFills, hp, hf]⟩

theorem stops_pagePin_bind {β : Type} {a : ℕ} {f : Unit → Call β} {S : Space} {l : FsLock} :
    Stops (pagePin a >>= f) ⟨S, l⟩ ↔ (S.lookup a = none ∧ nullFills S) ∨ Stops (f ()) ⟨S, l⟩ := by
  rw [pagePin, bind_assoc, stops_lookup_bind]
  rcases S.lookup a with _ | p
  · obtain ⟨S', hin, hS'⟩ := pageIn_null S l
    rw [bind_assoc, stops_bind_of_ret hin]
    rcases hn : nullFills S
    · rw [hS' hn]
      simp
    · simp
  · simp

theorem stops_pageUnpin_bind {β : Type} {a : ℕ} {f : Unit → Call β} {S : Space} {l : FsLock} :
    Stops (pageUnpin a >>= f) ⟨S, l⟩ ↔ (S.lookup a ≠ none → Stops (f ()) ⟨S, l⟩) := by
  rw [pageUnpin, bind_assoc, stops_lookup_bind, stops_assert_bind, Option.isSome_iff_ne_none]

section Pages
variable {S S' : Space} {write : Bool} {a b n : ℕ}

theorem survives_of_fixed {xs : List (Bool × ℕ)} (h : ∀ x ∈ xs, S.grants x.1 x.2 ∧ S.touched x.2 = S) :
    S.survives xs ∧ S.after xs = S := by
  induction xs with
  | nil => exact ⟨rfl, rfl⟩
  | cons x xs ih =>
    obtain ⟨hg, ht⟩ := h x (List.mem_cons_self ..)
    have hrest := ih fun y hy => h y (List.mem_cons_of_mem _ hy)
    simp [Space.survives, Space.after, hg, ht, hrest]

def holdsPage (S : Space) (write : Bool) (a : ℕ) : Prop :=
  ∃ p, S.lookup a = some p ∧ p.resident = true ∧ (!write || p.writable) = true

theorem fixed_of_holdsPage (h : holdsPage S write a) (hb : b < physBase) (hab : b / pgSize = a / pgSize) :
    S.grants write b ∧ S.touched b = S := by
  obtain ⟨p, hp, hres, hw⟩ := h
  have ha : a < physBase := by
    by_contra hge
    simp [Space.lookup, hge] at hp
  have hlb : S.lookup b = some p := by
    rw [← hp]
    simp [Space.lookup, ha, hb, hab]
  constructor
  · simp [Space.grants, Space.grown_of_lookup hlb, hlb, hres, hw]
  · simp [Space.touched, Space.grown_of_lookup hlb, hlb, hres]

theorem holdsPage_touched (ha : a < physBase) (h : S.grants write a) : holdsPage (S.touched a) write a := by
  have hna : ¬physBase ≤ a := Nat.not_le.mpr ha
  rw [Space.grants] at h
  rw [Space.touched]
  simp only [hna, decide_false, Bool.false_or, if_false] at h ⊢
  rcases hl : S.lookup a with _ | p
  · rw [Space.lookup_grown_of_none ha hl] at h ⊢
    by_cases hst : isStack a S.stackPointer
    · simp only [hst, if_true, freshPage, Page.fills] at h ⊢
      exact ⟨_, Space.lookup_put_self ha _, rfl, by simp⟩
    · simp [hst] at h
  · rw [Space.grown_of_lookup hl, hl] at h ⊢
    simp only [Bool.and_eq_true] at h
    dsimp only
    by_cases hr : p.resident
    · rw [if_pos hr]
      exact ⟨p, hl, hr, h.2⟩
    · have hf : p.fills := by simpa [hr] using h.1
      rw [if_neg hr, if_pos hf]
      exact ⟨_, Space.lookup_put_self ha _, rfl, h.2⟩

theorem survives_byteRange (write : Bool) (ha : a < physBase) (hn : 0 < n) (hpage : n ≤ pgSize - a % pgSize) :
    S.survives (byteRange write a n) = S.grants write a ∧
      (S.grants write a → S.after (byteRange write a n) = S.touched a) := by
  obtain ⟨m, rfl⟩ : ∃ m, n = m + 1 := ⟨n - 1, by omega⟩
  have hwrap : ∀ i < m + 1, wrap (a + i) = a + i ∧ a + i < physBase ∧ (a + i) / pgSize = a / pgSize := by
    intro i hi
    simp only [wrap, physBase, pgSize] at ha hpage ⊢
    omega
  have hhead : byteRange write a (m + 1) =
      (write, a) :: (List.range m).map fun i => (write, wrap (a + (i + 1))) := by
    rw [byteRange, List.range_succ_eq_map, List.map_cons, List.map_map, (hwrap 0 (by omega)).1]
    rfl
  rw [hhead, Space.survives, Space.after]
  rcases hg : S.grants write a
  · simp
  · -- the first byte brings the page in, and the others find it there
    have hfixed : ∀ x ∈ (List.range m).map fun i => (write, wrap (a + (i + 1))),
        (S.touched a).grants x.1 x.2 ∧ (S.touched a).touched x.2 = S.touched a := fun x hx => by
      obtain ⟨i, hi, rfl⟩ := List.mem_map.mp hx
      obtain ⟨hw, hlt, hp⟩ := hwrap (i + 1) (by have := List.mem_range.mp hi; omega)
      rw [hw]
      exact fixed_of_holdsPage (holdsPage_touched ha hg) hlt hp
    simp [survives_of_fixed hfixed]

theorem survives_byteRange_physBase (S : Space) (write : Bool) (hn : n ≤ pgSize) :
    S.survives (byteRange write physBase n) ∧ S.after (byteRange write physBase n) = S := by
  refine survives_of_fixed fun x hx => ?_
  obtain ⟨i, hi, rfl⟩ := List.mem_map.mp hx
  have hi := List.mem_range.mp hi
  have hge : physBase ≤ wrap (physBase + i) := by
    simp only [wrap, physBase, pgSize] at hn ⊢
    omega
  simp [Space.grants, Space.touched, hge]

theorem nullFills_touched (S : Space) (a : ℕ) : nullFills (S.touched a) = nullFills S := by
  obtain heq | ⟨hlt, p, hp, heq⟩ := S.touched_cases a
  · rw [heq]
  by_cases hpage : 0 / pgSize = a / pgSize
  · -- page 0 is no part of the stack, so it does not come into the table here
    have hgrown : S.grown a = S := by
      have : isStack a S.stackPointer = false := decide_eq_false fun hst => by
        have hhigh := hst.2.1
        simp only [physBase, stackSize, pgSize] at hpage hhigh
        omega
      simp [Space.grown, this]
    have h0 : S.lookup 0 = S.lookup a := by
      rw [Space.lookup, Space.lookup, if_pos (by decide), if_pos hlt, hpage]
    rw [Space.touched, if_neg (Nat.not_le.mpr hlt), hgrown]
    rcases hl : S.lookup a with _ | q
    · rfl
    · dsimp only
      split_ifs
      · rfl
      · have : (S.put a (some { q with resident := true })).lookup 0 = some { q with resident := true } := by
          simp [Space.lookup, Space.put, physBase, hpage]
        rw [nullFills, nullFills, this, h0, hl]
        rfl
      · rfl
  · rw [heq, nullFills, Space.lookup_put_of_ne hpage]
    rfl

structure Agree (S S' : Space) (q : ℕ) : Prop where
  stackPointer : S'.stackPointer = S.stackPointer
  pages : ∀ p, q ≤ p → S'.pages p = S.pages p
  null : nullFills S' = nullFills S

namespace Agree
variable {q q' : ℕ}

theorem refl (S : Space) (q : ℕ) : Agree S S q := ⟨rfl, fun _ _ => rfl, rfl⟩

theorem lookup (h : Agree S S' q) (ha : q ≤ a / pgSize) : S'.lookup a = S.lookup a := by
  simp only [Space.lookup, h.pages _ ha]

theorem grants (h : Agree S S' q) (ha : q ≤ a / pgSize) : S'.grants write a = S.grants write a := by
  by_cases hlt : a < physBase
  · have hgrown : (S'.grown a).lookup a = (S.grown a).lookup a := by
      rcases hl : S.lookup a with _ | p
      · rw [Space.lookup_grown_of_none hlt hl, Space.lookup_grown_of_none hlt ((h.lookup ha).trans hl),
          h.stackPointer]
      · rw [Space.grown_of_lookup hl, Space.grown_of_lookup ((h.lookup ha).trans hl), h.lookup ha]
    rw [Space.grants, Space.grants, hgrown]
  · simp [Space.grants, Nat.not_lt.mp hlt]

theorem mono (h : Agree S S' q) (hq : q ≤ q') : Agree S S' q' :=
  ⟨h.stackPointer, fun p hp => h.pages p (Nat.le_trans hq hp), h.null⟩

theorem touched (h : Agree S S' q) (hq : q ≤ q') (ha : a / pgSize < q') : Agree S (S'.touched a) q' := by
  obtain heq | ⟨-, p, -, heq⟩ := S'.touched_cases a
  · rw [heq]
    exact h.mono hq
  · refine ⟨by rw [heq]; exact h.stackPointer, fun r hr => ?_, (nullFills_touched S' a).trans h.null⟩
    rw [heq, ← h.pages r (Nat.le_trans hq hr)]
    exact Function.update_of_ne (by omega) ..

end Agree
end Pages

def unpins (S : Space) (write : Bool) (file : OpenFile) : ℕ → List (ℕ × ℕ) → Prop
  | _, [] => True
  | k, c :: cs =>
    (S.lookup c.1 = none → nullFills S = false) ∧
      if min c.2 (file.moves k) = 0 then S.lookup c.1 ≠ none ∧ unpins S write file (k + 1) cs
      else S.grants write c.1 → c.1 < physBase ∧ unpins S write file (k + 1) cs

theorem chunks_zero (buffer : ℕ) : chunks buffer 0 = [] := by rw [chunks, if_neg (Nat.lt_irrefl 0)]

theorem next_chunk {buffer size c : ℕ} (hlt : buffer < physBase) (hc : min size (pgSize - buffer % pgSize) = c)
    (hrest : size - c ≠ 0) : buffer + c ≤ physBase ∧ buffer / pgSize < (buffer + c) / pgSize := by
  simp only [physBase, pgSize] at hlt hc ⊢
  omega

theorem stops_transfer (S : Space) (write : Bool) (file : OpenFile) (l : FsLock) (buffer size : ℕ) :
    ∀ k S', buffer ≤ physBase → Agree S S' (buffer / pgSize) →
      (Stops (transfer write file k (chunks buffer size)) ⟨S', l⟩ ↔
        ¬ unpins S write file k (chunks buffer size)) := by
  induction buffer, size using chunks.induct with
  | case1 buffer size hsize ih =>
    intro k S' hle hag
    have hpos : 0 < pgSize - buffer % pgSize := Nat.sub_pos_of_lt (Nat.mod_lt _ (by decide))
    rw [chunks, if_pos hsize]
    generalize hc : min size (pgSize - buffer % pgSize) = c at ih ⊢
    rw [transfer, unpins, stops_pagePin_bind, stops_lock_bind, stops_touchAll_bind, stops_unlock_bind,
      stops_pageUnpin_bind, hag.lookup (Nat.le_refl _), hag.null]
    obtain hlt | rfl := Nat.lt_or_eq_of_le hle
    · -- the rest of the loop, from a table that has changed in this page at most
      have hnext : ∀ S₁, Agree S S₁ (buffer / pgSize + 1) →
          (Stops (transfer write file (k + 1) (chunks (buffer + c) (size - c))) ⟨S₁, l⟩ ↔
            ¬ unpins S write file (k + 1) (chunks (buffer + c) (size - c))) := by
        intro S₁ hag₁
        by_cases hrest : size - c = 0
        · rw [hrest, chunks_zero]
          simp [transfer, unpins]
        · obtain ⟨hle', hpage⟩ := next_chunk hlt hc hrest
          exact ih (k + 1) S₁ hle' (hag₁.mono hpage)
      by_cases hn : min c (file.moves k) = 0
      · have hS' := hnext S' (hag.mono (Nat.le_succ _))
        rw [if_pos hn, hn]
        simp only [byteRange, List.range_zero, List.map_nil, Space.survives, Space.after, true_and,
          hag.lookup (Nat.le_refl _), hS']
        rcases nullFills S <;> simp only [Bool.false_eq_true, and_false, and_true, false_or] <;> grind
      · obtain ⟨hsurvives, hafter⟩ := survives_byteRange (S := S') write hlt (Nat.pos_of_ne_zero hn) (by omega)
        rw [if_neg hn, hsurvives, hag.grants (Nat.le_refl _)]
        by_cases hg : S.grants write buffer
        · have hg' : S'.grants write buffer := (hag.grants (Nat.le_refl _)).trans hg
          obtain ⟨p, hp, -⟩ := holdsPage_touched hlt hg'
          have hS' := hnext (S'.touched buffer) (hag.touched (Nat.le_succ _) (Nat.lt_succ_self _))
          rw [hafter hg', hp, hS']
          rcases nullFills S <;> simp [hg, hlt]
          grind
        · rcases nullFills S <;> simp [hg]
    · have hnone : ∀ T : Space, T.lookup physBase = none := fun T => by simp [Space.lookup]
      have hg : S.grants write physBase := by simp [Space.grants]
      obtain ⟨hsurvives, hafter⟩ := survives_byteRange_physBase S' write (n := min c (file.moves k)) (by omega)
      rw [hsurvives, hafter, hnone, hnone]
      simp [hg]
  | case2 buffer size hsize =>
    intro k S' _ _
    rw [chunks, if_neg hsize]
    simp [transfer, unpins]

theorem stops_chunks (S : Space) (write : Bool) (file : OpenFile) (l : FsLock) {buffer size : ℕ}
    (hle : buffer ≤ physBase) :
    Stops (transfer write file 0 (chunks buffer size)) ⟨S, l⟩ ↔ ¬ unpins S write file 0 (chunks buffer size) :=
  stops_transfer S write file l buffer size 0 S hle (.refl S _)

def moves (S : Space) (write console : Bool) (file : OpenFile) (buffer size : ℕ) : Prop :=
  if console then
    S.survives (byteRange write buffer size) →
      unpins (S.after (byteRange write buffer size)) write file 0 (chunks buffer size)
  else unpins S write file 0 (chunks buffer size)

theorem le_physBase_of_accepts {S : Space} {buffer size : ℕ} (h : S.accepts buffer size) : buffer ≤ physBase := by
  simp only [Space.accepts, isUserRange, Bool.and_eq_true, decide_eq_true_eq] at h
  exact Nat.le_of_lt h.1.2

theorem stops_sysRead (p : Caller) (S : Space) (fd buffer size : ℕ) :
    Stops (sysRead p fd buffer size) ⟨S, .idle⟩ ↔
      S.accepts buffer size ∧ validUserFd fd ∧ fd ≠ stdoutFileno ∧
        ∃ file, p.fdTable fd = some file ∧
          ¬ moves (S.after (probes buffer size)) true (fd = stdinFileno) file buffer size := by
  simp only [sysRead, moves, stops_accessOk_bind]
  by_cases ha : S.accepts buffer size
  · have hle := le_physBase_of_accepts ha
    rcases p.fdTable fd with _ | file <;>
      simp [ha, stops_ite, stops_touchAll_bind, stops_chunks _ _ _ _ hle]
    grind
  · simp [ha]

theorem stops_sysWrite (p : Caller) (S : Space) (fd buffer size : ℕ) :
    Stops (sysWrite p fd buffer size) ⟨S, .idle⟩ ↔
      S.accepts buffer size ∧ validUserFd fd ∧ fd ≠ stdinFileno ∧
        ∃ file, p.fdTable fd = some file ∧ file.isDir = false ∧
          ¬ moves (S.after (probes buffer size)) false (fd = stdoutFileno) file buffer size := by
  simp only [sysWrite, moves, stops_accessOk_bind]
  by_cases ha : S.accepts buffer size
  · have hle := le_physBase_of_accepts ha
    rcases p.fdTable fd with _ | file <;>
      simp [ha, stops_ite, stops_touchAll_bind, stops_chunks _ _ _ _ hle]
    grind
  · simp [ha]

def Harmless (p : Caller) (S : Space) : Request → Prop
  | .create file initialSize =>
    S.accepts file 0 → p.mem file ≠ 0 → S.readable p.toEnv file → p.found = false → p.placeable →
      initialSize < 2 ^ 31
  | .filesize _ => True
  | .seek fd position => validUserFd fd → (p.fdTable fd).isSome → position < 2 ^ 31
  | .mmap fd buffer => mmapRefuses fd buffer = false → (p.fdTable fd).isSome
  | .read fd buffer size =>
    S.accepts buffer size → validUserFd fd → fd ≠ stdoutFileno → ∀ file, p.fdTable fd = some file →
      moves (S.after (probes buffer size)) true (fd = stdinFileno) file buffer size
  | .write fd buffer size =>
    S.accepts buffer size → validUserFd fd → fd ≠ stdinFileno → ∀ file, p.fdTable fd = some file →
      file.isDir = false → moves (S.after (probes buffer size)) false (fd = stdoutFileno) file buffer size

theorem not_stops_iff_harmless (p : Caller) (S : Space) (r : Request) :
    ¬ Stops (serve p r) ⟨S, .idle⟩ ↔ Harmless p S r := by
  cases r with
  | create file initialSize =>
    simp only [serve, stops_sysCreate, Harmless, nonneg, decide_eq_false_iff_not]
    grind
  | filesize fd => exact iff_of_true (not_stops_sysFilesize p S fd) trivial
  | seek fd position =>
    simp only [serve, stops_sysSeek, Harmless, nonneg, decide_eq_false_iff_not]
    grind
  | mmap fd buffer =>
    simp only [serve, stops_sysMmap, Harmless, Option.isSome_iff_ne_none]
    grind
  | read fd buffer size =>
    simp only [serve, stops_sysRead, Harmless]
    grind
  | write fd buffer size =>
    simp only [serve, stops_sysWrite, Harmless]
    grind

def oneFile : Caller where
  esp := 0
  mem _ := 0
  fdTable fd := if fd = 2 then some ⟨false, 0, fun _ => 0, none⟩ else none
  mmapList := []
  found := false
  placeable := true

def twoPages : Space :=
  ⟨fun p => if p = 1 ∨ p = 3 then some { freshPage with resident := true } else none, 0⟩

theorem stops_seek_mmap_read :
    Stops (serve oneFile (.seek 2 (2 ^ 31))) ⟨twoPages, .idle⟩ ∧
      Stops (serve oneFile (.mmap 3 (16 * pgSize))) ⟨twoPages, .idle⟩ ∧
      Stops (serve oneFile (.read 2 pgSize (2 * pgSize))) ⟨twoPages, .idle⟩ := by
  decide +kernel

end Cs162.Userprog.Asserts
