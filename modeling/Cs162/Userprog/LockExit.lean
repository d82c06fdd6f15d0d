import Cs162.Userprog.Syscall

namespace Cs162.Userprog.Syscall
open Lib Lib.Proc

theorem FsLock.unlock_lock (l : FsLock) : l.lock.unlock = some l := by
  obtain ⟨held, n, h⟩ := l
  cases held
  · have hn : n = 0 := h rfl
    subst hn
    rfl
  · simp [FsLock.lock, FsLock.unlock]

theorem FsLock.held_lock (l : FsLock) : l.lock.held = true := by
  rw [FsLock.lock]
  split <;> rfl

theorem unlockFilesys_lock (S : Space) (l : FsLock) :
    unlockFilesys ⟨S, l.lock⟩ = (.ret (), ⟨S, l⟩) := by
  simp [unlockFilesys, FsLock.unlock_lock]

theorem underLock_eq (k : Kernel) : underLock k = (.ret (), k) :=
  unlockFilesys_lock k.space k.fsLock

theorem evict_eq (p : Page) (k : Kernel) : evict p k = (.ret (), k) := by
  rw [evict]
  split
  · exact underLock_eq k
  · rfl

def Page.fills (p : Page) : Bool := p.isPrivate || p.file != some false

theorem fill_eq (p : Page) (k : Kernel) : fill p k = (.ret p.fills, k) := by
  rw [fill, Page.fills]
  rcases p.isPrivate with _ | _
  · rcases p.file with _ | _ | _
    · rfl
    · exact bind_of_ret (underLock_eq k)
    · exact bind_of_ret (underLock_eq k)
  · rfl

def Space.grown (S : Space) (a : ℕ) : Space :=
  if isStack a S.stackPointer && (S.lookup a).isNone then S.put a (some freshPage) else S

theorem pageAlloc_eq (a : ℕ) (S : Space) (l : FsLock) :
    pageAlloc a ⟨S, l⟩ = (.ret (), ⟨if (S.lookup a).isNone then S.put a (some freshPage) else S, l⟩) := by
  have hlookup : pageLookup a ⟨S, l⟩ = (.ret (S.lookup a), ⟨S, l⟩) := rfl
  rw [pageAlloc, bind_of_ret hlookup]
  rcases S.lookup a with _ | _ <;> rfl

theorem growStack_eq (a : ℕ) (S : Space) (l : FsLock) :
    growStack a ⟨S, l⟩ = (.ret (), ⟨S.grown a, l⟩) := by
  change (if isStack a S.stackPointer then pageAlloc a else pure ()) ⟨S, l⟩ = _
  rw [Space.grown]
  rcases isStack a S.stackPointer with _ | _
  · rfl
  · exact pageAlloc_eq a S l

theorem pageIn_eq (a : ℕ) (S : Space) (l : FsLock) :
    pageIn a ⟨S, l⟩ = match (S.grown a).lookup a with
      | none => (.ret false, ⟨S.grown a, l⟩)
      | some p =>
        if p.fills then (.ret true, ⟨(S.grown a).put a (some { p with resident := true }), l⟩)
        else (.ret false, ⟨S.grown a, l⟩) := by
  rw [pageIn, bind_of_ret (growStack_eq a S l)]
  change (match (S.grown a).lookup a with | none => _ | some p => _ : Call Bool) _ = _
  rcases (S.grown a).lookup a with _ | p
  · rfl
  · dsimp only
    rw [bind_of_ret (evict_eq p _), bind_of_ret (fill_eq p _)]
    rcases p.fills <;> rfl

def Space.grants (S : Space) (write : Bool) (a : ℕ) : Bool :=
  physBase ≤ a || match (S.grown a).lookup a with
    | some p => (p.resident || p.fills) && (!write || p.writable)
    | none => false

def Space.touched (S : Space) (a : ℕ) : Space :=
  if physBase ≤ a then S else
    match (S.grown a).lookup a with
    | some p =>
      if p.resident then S
      else if p.fills then (S.grown a).put a (some { p with resident := true })
      else S
    | none => S

theorem Space.grown_of_lookup {S : Space} {a : ℕ} {p : Page} (h : S.lookup a = some p) :
    S.grown a = S := by
  simp [Space.grown, h]

theorem Space.lookup_put_self {S : Space} {a : ℕ} (ha : a < physBase) (p : Option Page) :
    (S.put a p).lookup a = p := by
  simp [Space.lookup, Space.put, ha]

theorem Space.lookup_put_of_ne {S : Space} {a b : ℕ} (hab : b / pgSize ≠ a / pgSize)
    (p : Option Page) : (S.put a p).lookup b = S.lookup b := by
  simp [Space.lookup, Space.put, Function.update_of_ne hab]

theorem Space.lookup_grown_of_none {S : Space} {a : ℕ} (ha : a < physBase)
    (h : S.lookup a = none) :
    (S.grown a).lookup a = if isStack a S.stackPointer then some freshPage else none := by
  rw [Space.grown, h]
  rcases isStack a S.stackPointer
  · exact h
  · exact Space.lookup_put_self ha _

theorem checkRights_eq (write : Bool) (p : Page) (k : Kernel) :
    checkRights write p k = (if !write || p.writable then .ret () else .exited, k) := by
  rw [checkRights]
  rcases write <;> rcases p.writable <;> rfl

theorem touch_eq (write : Bool) (a : ℕ) (S : Space) (l : FsLock) :
    touch write a ⟨S, l⟩ =
      (if S.grants write a then .ret () else .exited, ⟨S.touched a, l⟩) := by
  rw [touch, Space.grants, Space.touched]
  by_cases ha : physBase ≤ a
  · simp only [ha, decide_true, Bool.true_or]
    rfl
  · have hlt : a < physBase := Nat.lt_of_not_le ha
    simp only [ha, decide_false, Bool.false_or, if_false]
    have hp := pageIn_eq a S l
    change (match S.lookup a with | some p => _ | none => _ : Call Unit) _ = _
    rcases hS : S.lookup a with _ | p
    · dsimp only
      rw [Space.lookup_grown_of_none hlt hS] at hp ⊢
      rcases hst : isStack a S.stackPointer <;> rw [hst] at hp
      · have hg : S.grown a = S := by simp [Space.grown, hst]
        rw [bind_of_ret hp, hg]
        rfl
      · rw [bind_of_ret hp]
        rcases write <;> rfl
    · dsimp only
      rw [Space.grown_of_lookup hS, hS] at hp ⊢
      dsimp only at hp ⊢
      by_cases hr : p.resident
      · simp only [hr, Bool.true_or, Bool.true_and, if_true]
        exact checkRights_eq write p _
      · simp only [hr, Bool.false_or, Bool.false_eq_true, if_false]
        by_cases hf : p.fills
        · rw [if_pos hf] at hp
          rw [bind_of_ret hp, if_pos hf, hf]
          exact checkRights_eq write p _
        · rw [if_neg hf] at hp
          rw [bind_of_ret hp]
          simp [hf]
          rfl

def Space.survives (S : Space) : List (Bool × ℕ) → Bool
  | [] => true
  | x :: l => S.grants x.1 x.2 && (S.touched x.2).survives l

def Space.after (S : Space) : List (Bool × ℕ) → Space
  | [] => S
  | x :: l => if S.grants x.1 x.2 then (S.touched x.2).after l else S.touched x.2

theorem touchAll_eq (xs : List (Bool × ℕ)) (S : Space) (l : FsLock) :
    touchAll xs ⟨S, l⟩ = (if S.survives xs then .ret () else .exited, ⟨S.after xs, l⟩) := by
  induction xs generalizing S with
  | nil => rfl
  | cons x xs ih =>
    rw [touchAll, Space.survives, Space.after]
    have ht := touch_eq x.1 x.2 S l
    by_cases hg : S.grants x.1 x.2
    · rw [if_pos hg] at ht
      rw [bind_of_ret ht, ih, hg, Bool.true_and, if_pos rfl]
    · rw [if_neg hg] at ht
      have he : (touch x.1 x.2 ⟨S, l⟩).1 = .exited := by rw [ht]
      rw [bind_of_exited he, ht, if_neg hg]
      simp [hg]

theorem Space.touched_cases (S : Space) (a : ℕ) :
    S.touched a = S ∨ (a < physBase ∧
      ∃ p, (S.lookup a = some p ∨ S.lookup a = none ∧ p = freshPage) ∧
        S.touched a = S.put a (some { p with resident := true })) := by
  rw [Space.touched]
  by_cases ha : physBase ≤ a
  · exact .inl (if_pos ha)
  rw [if_neg ha]
  have hlt : a < physBase := Nat.lt_of_not_le ha
  rcases hS : S.lookup a with _ | p
  · rw [Space.lookup_grown_of_none hlt hS]
    by_cases hst : isStack a S.stackPointer
    · refine .inr ⟨hlt, freshPage, .inr ⟨rfl, rfl⟩, ?_⟩
      simp [hst, Space.grown, hS, freshPage, Page.fills, Space.put]
    · exact .inl (by simp [hst])
  · rw [Space.grown_of_lookup hS, hS]
    by_cases hr : p.resident
    · exact .inl (if_pos hr)
    by_cases hf : p.fills
    · exact .inr ⟨hlt, p, .inl rfl, by simp [hr, hf]⟩
    · exact .inl (by simp [hr, hf])

theorem Space.grants_touched {S : Space} {write : Bool} {a b : ℕ} (h : S.grants write b) :
    (S.touched a).grants write b := by
  obtain heq | ⟨hlt, p, hp, heq⟩ := S.touched_cases a
  · rwa [heq]
  rw [heq]
  by_cases hb : physBase ≤ b
  · simp [Space.grants, hb]
  have hb' : b < physBase := Nat.lt_of_not_le hb
  simp only [Space.grants, hb, decide_false, Bool.false_or] at h ⊢
  by_cases hab : b / pgSize = a / pgSize
  · have hself : (S.put a (some { p with resident := true })).lookup b =
        some { p with resident := true } := by
      simp [Space.lookup, Space.put, hb', hab]
    have hSb : S.lookup b = S.lookup a := by simp [Space.lookup, hb', hlt, hab]
    rw [Space.grown_of_lookup hself, hself]
    obtain hp | ⟨hp, rfl⟩ := hp
    · rw [Space.grown_of_lookup (hSb.trans hp), hSb, hp] at h
      simp_all
    · simp [freshPage]
  · have hne := Space.lookup_put_of_ne (S := S) hab (some { p with resident := true })
    have hg : ((S.put a (some { p with resident := true })).grown b).lookup b =
        (S.grown b).lookup b := by
      rcases hl : S.lookup b with _ | q
      · rw [Space.lookup_grown_of_none hb' (hne.trans hl), Space.lookup_grown_of_none hb' hl]
        rfl
      · rw [Space.grown_of_lookup (hne.trans hl), Space.grown_of_lookup hl, hne]
    rwa [hg]

theorem Space.grants_after {S : Space} {write : Bool} {b : ℕ} (xs : List (Bool × ℕ))
    (h : S.grants write b) : (S.after xs).grants write b := by
  induction xs generalizing S with
  | nil => exact h
  | cons x xs ih =>
    rw [Space.after]
    split
    · exact ih (Space.grants_touched h)
    · exact Space.grants_touched h

theorem Space.survives_of_grants {S : Space} {xs : List (Bool × ℕ)}
    (h : ∀ x ∈ xs, S.grants x.1 x.2) : S.survives xs := by
  induction xs generalizing S with
  | nil => rfl
  | cons x xs ih =>
    simp only [List.forall_mem_cons] at h
    simp only [Space.survives, h.1, Bool.true_and]
    exact ih fun y hy => Space.grants_touched (h.2 y hy)

theorem Space.survives_again {S : Space} {xs : List (Bool × ℕ)} (h : S.survives xs) :
    (S.after xs).survives xs := by
  apply Space.survives_of_grants
  induction xs generalizing S with
  | nil => simp
  | cons x xs ih =>
    simp only [Space.survives, Bool.and_eq_true] at h
    rw [Space.after, if_pos h.1]
    intro y hy
    rcases List.mem_cons.mp hy with rfl | hy
    · exact Space.grants_after xs (Space.grants_touched h.1)
    · exact ih h.2 y hy

section Rules

variable {α β : Type} {S : Space} {l : FsLock} {Q : Kernel → Prop}

theorem exits_ite {p : Prop} [Decidable p] {c d : Call α} {k : Kernel} :
    Exits (if p then c else d) k Q ↔ if p then Exits c k Q else Exits d k Q := by
  split <;> rfl

theorem exits_touchAll {xs : List (Bool × ℕ)} :
    Exits (touchAll xs) ⟨S, l⟩ Q ↔ S.survives xs = false ∧ Q ⟨S.after xs, l⟩ := by
  rw [Exits, touchAll_eq]
  rcases S.survives xs <;> simp

theorem exits_touchAll_bind {xs : List (Bool × ℕ)} {f : Unit → Call β} :
    Exits (touchAll xs >>= f) ⟨S, l⟩ Q ↔
      if S.survives xs then Exits (f ()) ⟨S.after xs, l⟩ Q else Q ⟨S.after xs, l⟩ := by
  have ht := touchAll_eq xs S l
  by_cases hs : S.survives xs
  · rw [if_pos hs] at ht ⊢
    exact exits_bind_of_ret ht
  · rw [if_neg hs] at ht ⊢
    rw [exits_bind_of_exited (by rw [ht]), ht]

theorem exits_lock_bind {f : Unit → Call β} :
    Exits (lockFilesys >>= f) ⟨S, l⟩ Q ↔ Exits (f ()) ⟨S, l.lock⟩ Q := Iff.rfl

theorem exits_unlock_bind {f : Unit → Call β} :
    Exits (unlockFilesys >>= f) ⟨S, l.lock⟩ Q ↔ Exits (f ()) ⟨S, l⟩ Q :=
  exits_bind_of_ret (unlockFilesys_lock S l)

theorem exits_unlock : Exits unlockFilesys ⟨S, l.lock⟩ Q ↔ False := by
  simp [Exits, unlockFilesys_lock]

theorem exits_underLock {k : Kernel} : Exits underLock k Q ↔ False := by
  simp [Exits, underLock_eq]

theorem exits_lookup_bind {a : ℕ} {f : Option Page → Call β} :
    Exits (pageLookup a >>= f) ⟨S, l⟩ Q ↔ Exits (f (S.lookup a)) ⟨S, l⟩ Q := Iff.rfl

theorem exits_setPage_bind {a : ℕ} {p : Option Page} {f : Unit → Call β} :
    Exits (setPage a p >>= f) ⟨S, l⟩ Q ↔ Exits (f ()) ⟨S.put a p, l⟩ Q := Iff.rfl

end Rules

end Cs162.Userprog.Syscall
