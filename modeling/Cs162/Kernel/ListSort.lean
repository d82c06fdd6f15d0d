import Mathlib.Tactic.Common

namespace Cs162.Kernel

section Code
variable {α : Type}

def listSplice (l : List α) (before first last : ℕ) : Option (List α) :=
  if l.length < before then none
  else if first = last then some l
  else if last - 1 < first ∨ l.length ≤ last - 1 then none
  else if before ≤ first then
    some (l.take before ++ (l.take last).drop first ++ (l.take first).drop before ++ l.drop last)
  else some (l.take first ++ (l.take before).drop last ++ (l.take last).drop first ++ l.drop before)

def scanRun (less : α → α → Bool) (l : List α) : ℕ → ℕ → Option ℕ
  | 0, a => some a
  | n + 1, a => do
    let x ← l[a - 1]?
    let y ← l[a]?
    if less y x then some a else scanRun less l n (a + 1)

def isSorted (less : α → α → Bool) (l : List α) (a b : ℕ) : Option Bool :=
  if a = b then some true else (scanRun less l (b - (a + 1)) (a + 1)).map (· = b)

def findEndOfRun (less : α → α → Bool) (l : List α) (a b : ℕ) : Option ℕ :=
  if a = b then none else scanRun less l (b - (a + 1)) (a + 1)

def mergeLoop (less : α → α → Bool) : ℕ → List α → ℕ → ℕ → ℕ → Option (List α)
  | 0, _, _, _, _ => none
  | n + 1, l, a0, a1b0, b1 =>
    if a0 ≠ a1b0 ∧ a1b0 ≠ b1 then do
      let x ← l[a0]?
      let y ← l[a1b0]?
      if ¬ less y x then mergeLoop less n l (a0 + 1) a1b0 b1
      else
        let l ← listSplice l a0 a1b0 (a1b0 + 1)
        mergeLoop less n l (a0 + 1) (a1b0 + 1) b1
    else some l

def inplaceMerge (less : α → α → Bool) (l : List α) (a0 a1b0 b1 : ℕ) : Option (List α) := do
  let first ← isSorted less l a0 a1b0
  let second ← isSorted less l a1b0 b1
  if first ∧ second then mergeLoop less (b1 - a0 + 1) l a0 a1b0 b1 else none

def sortPass (less : α → α → Bool) : ℕ → List α → ℕ → ℕ → Option (List α × ℕ)
  | 0, _, _, _ => none
  | n + 1, l, a0, cnt =>
    if a0 = l.length then some (l, cnt)
    else do
      let a1b0 ← findEndOfRun less l a0 l.length
      if a1b0 = l.length then some (l, cnt + 1)
      else
        let b1 ← findEndOfRun less l a1b0 l.length
        let l ← inplaceMerge less l a0 a1b0 b1
        sortPass less n l b1 (cnt + 1)

def listSort (less : α → α → Bool) : ℕ → List α → Option (List α)
  | 0, _ => none
  | n + 1, l => do
    let (l, cnt) ← sortPass less (l.length + 1) l 0 0
    if cnt > 1 then listSort less n l
    else
      let sorted ← isSorted less l 0 l.length
      if sorted then some l else none

end Code

variable {α : Type} {less : α → α → Bool} {l : List α}

def notAfter (less : α → α → Bool) (x y : α) : Bool := !less y x

def runs (less : α → α → Bool) : List α → ℕ
  | [] => 0
  | [_] => 1
  | x :: y :: l => (if less y x then 1 else 0) + runs less (y :: l)

theorem runs_cons_pos (less : α → α → Bool) (x : α) (l : List α) : 0 < runs less (x :: l) := by
  induction l generalizing x with
  | nil => exact Nat.one_pos
  | cons y l ih =>
    have := ih y
    rw [runs]
    omega

theorem runs_append_le (less : α → α → Bool) (l l' : List α) :
    runs less (l ++ l') ≤ runs less l + runs less l' := by
  induction l with
  | nil => simp [runs]
  | cons x l ih =>
    cases l with
    | nil =>
      cases l' with
      | nil => simp [runs]
      | cons y l' =>
        simp only [List.singleton_append, runs]
        split_ifs <;> omega
    | cons y l =>
      simp only [List.cons_append, runs] at ih ⊢
      omega

theorem getElem?_length_append {Q l : List α} (x : α) : (Q ++ x :: l)[Q.length]? = some x := by
  simp

theorem listSplice_append {Q R S : List α} (y : α) :
    listSplice (Q ++ R ++ y :: S) Q.length (Q ++ R).length ((Q ++ R).length + 1) =
      some (Q ++ y :: R ++ S) := by
  have hfirst : (Q ++ R ++ y :: S).take (Q ++ R).length = Q ++ R := List.take_left
  have hlast : (Q ++ R ++ y :: S).take ((Q ++ R).length + 1) = Q ++ R ++ [y] :=
    List.take_length_add_append 1
  have hbefore : (Q ++ R ++ y :: S).take Q.length = Q := by simp
  have hrest : (Q ++ R ++ y :: S).drop ((Q ++ R).length + 1) = S := List.drop_length_add_append 1
  rw [listSplice, if_neg (by simp), if_neg (by simp), if_neg (by simp), if_pos (by simp), hfirst,
    hlast, hbefore, hrest, List.drop_left, List.drop_left]
  simp

variable [horder : IsStrictWeakOrder α fun a b => less a b = true]

include horder

theorem notAfter_trans {x y z : α} (hxy : notAfter less x y) (hyz : notAfter less y z) :
    notAfter less x z := by
  simp only [notAfter, Bool.not_eq_true', Bool.eq_false_iff] at *
  intro hzx
  by_cases hab : less x y
  · exact hyz (horder.trans _ _ _ hzx hab)
  · by_cases hbc : less y z
    · exact hxy (horder.trans _ _ _ hbc hzx)
    · exact (horder.incomp_trans _ _ _ ⟨hab, hxy⟩ ⟨hbc, hyz⟩).2 hzx

theorem notAfter_of_less {x y : α} (h : less x y) : notAfter less x y := by
  simp only [notAfter, Bool.not_eq_true', Bool.eq_false_iff]
  exact fun h' => horder.irrefl _ (horder.trans _ _ _ h h')

variable (less) in
theorem scanRun_eq (Q S : List α) (x : α) (R : List α) : ∃ A B, R = A ++ B ∧
    scanRun less (Q ++ x :: (R ++ S)) R.length (Q.length + 1) = some (Q.length + 1 + A.length) ∧
      (x :: A).Pairwise (notAfter less · ·) ∧ runs less (x :: R) = 1 + runs less B := by
  induction R generalizing Q x with
  | nil => exact ⟨[], [], rfl, rfl, List.pairwise_singleton _ _, rfl⟩
  | cons y R ih =>
    have hx : (Q ++ x :: (y :: R ++ S))[Q.length + 1 - 1]? = some x := getElem?_length_append x
    have hy : (Q ++ x :: (y :: R ++ S))[Q.length + 1]? = some y := by simp
    rw [List.length_cons, scanRun, hx, hy]
    simp only [Option.bind_eq_bind, Option.bind_some]
    split_ifs with hlt
    · refine ⟨[], y :: R, rfl, rfl, List.pairwise_singleton _ _, ?_⟩
      rw [runs, if_pos hlt]
    · obtain ⟨A, B, rfl, hscan, hsorted, hruns⟩ := ih (Q ++ [x]) y
      have hxy : notAfter less x y := by simpa [notAfter] using hlt
      refine ⟨y :: A, B, rfl, ?_, ?_, ?_⟩
      · rw [show Q ++ [x] ++ y :: (A ++ B ++ S) = Q ++ x :: (y :: (A ++ B) ++ S) by simp,
          show (Q ++ [x]).length = Q.length + 1 by simp] at hscan
        rw [hscan, List.length_cons]
        congr 1
        omega
      · refine List.pairwise_cons.mpr ⟨fun z hz => ?_, hsorted⟩
        rcases List.mem_cons.mp hz with rfl | hz
        · exact hxy
        · exact notAfter_trans hxy ((List.pairwise_cons.mp hsorted).1 z hz)
      · rw [runs, if_neg hlt, Nat.zero_add, hruns]

omit horder in
theorem runs_of_pairwise {A : List α} (h : A.Pairwise (notAfter less · ·)) : runs less A ≤ 1 := by
  induction A with
  | nil => simp [runs]
  | cons x A ih =>
    cases A with
    | nil => simp [runs]
    | cons y A =>
      obtain ⟨hx, h⟩ := List.pairwise_cons.mp h
      have hxy : less y x = false := by simpa [notAfter] using hx y List.mem_cons_self
      simpa [runs, hxy] using ih h

theorem pairwise_of_runs {A : List α} (h : runs less A ≤ 1) : A.Pairwise (notAfter less · ·) := by
  cases A with
  | nil => exact List.Pairwise.nil
  | cons x A =>
    obtain ⟨A', B, rfl, -, hsorted, hruns⟩ := scanRun_eq less [] [] x A
    cases B with
    | nil => simpa using hsorted
    | cons y B =>
      have := runs_cons_pos less y B
      omega

theorem isSorted_append {Q A S : List α} (h : A.Pairwise (notAfter less · ·)) :
    isSorted less (Q ++ A ++ S) Q.length (Q ++ A).length = some true := by
  cases A with
  | nil => simp [isSorted]
  | cons x A =>
    obtain ⟨A', B, rfl, hscan, -, hruns⟩ := scanRun_eq less Q S x A
    have hB : B = [] := by
      have hle := runs_of_pairwise h
      cases B with
      | nil => rfl
      | cons y B =>
        have := runs_cons_pos less y B
        omega
    subst hB
    rw [isSorted, if_neg (by simp)]
    rw [List.append_nil] at hscan ⊢
    rw [show (Q ++ x :: A').length - (Q.length + 1) = A'.length by simp; omega,
      show Q ++ x :: A' ++ S = Q ++ x :: (A' ++ S) by simp, hscan]
    simp [Nat.add_assoc, Nat.add_comm 1]

variable (less) in
theorem findEndOfRun_append (Q : List α) (x : α) (R : List α) : ∃ A B, x :: R = A ++ B ∧
    findEndOfRun less (Q ++ x :: R) Q.length (Q ++ x :: R).length = some (Q ++ A).length ∧
      A ≠ [] ∧ A.Pairwise (notAfter less · ·) ∧ runs less (x :: R) = 1 + runs less B := by
  obtain ⟨A, B, rfl, hscan, hsorted, hruns⟩ := scanRun_eq less Q [] x R
  refine ⟨x :: A, B, rfl, ?_, List.cons_ne_nil _ _, hsorted, hruns⟩
  rw [findEndOfRun, if_neg (by simp)]
  rw [List.append_nil] at hscan
  rw [show (Q ++ x :: (A ++ B)).length - (Q.length + 1) = (A ++ B).length by simp; omega, hscan]
  simp [Nat.add_assoc, Nat.add_comm 1]

omit horder in
theorem mergeLoop_append (less : α → α → Bool) {n : ℕ} (Q A B S : List α) (hn : A.length + B.length < n) :
    mergeLoop less n (Q ++ A ++ B ++ S) Q.length (Q ++ A).length (Q ++ A ++ B).length =
      some (Q ++ A.merge B (notAfter less) ++ S) := by
  induction n generalizing Q A B with
  | zero => omega
  | succ n ih =>
    rw [mergeLoop]
    cases A with
    | nil => simp
    | cons x A =>
      cases B with
      | nil => simp
      | cons y B =>
        have hx : (Q ++ x :: A ++ y :: B ++ S)[Q.length]? = some x := by simp
        have hy : (Q ++ x :: A ++ y :: B ++ S)[(Q ++ x :: A).length]? = some y := by simp
        rw [if_pos (by simp), hx, hy, List.cons_merge_cons]
        simp only [Option.bind_eq_bind, Option.bind_some, notAfter]
        simp only [List.length_cons] at hn
        by_cases hlt : less y x
        · have hsplice := listSplice_append (Q := Q) (R := x :: A) (S := B ++ S) y
          have := ih (Q ++ [y]) (x :: A) B (by simp; omega)
          simp only [hlt, not_true_eq_false, if_false, Bool.not_true, Bool.false_eq_true]
          rw [show Q ++ x :: A ++ y :: B ++ S = Q ++ x :: A ++ y :: (B ++ S) by simp, hsplice]
          simpa [Nat.add_assoc, Nat.add_comm 1] using this
        · have := ih (Q ++ [x]) A (y :: B) (by simp; omega)
          simp only [hlt, Bool.false_eq_true, not_false_eq_true, if_true, Bool.not_false]
          simpa [Nat.add_assoc, Nat.add_comm 1] using this

theorem filter_merge {A B : List α} {p : α → Bool}
    (hp : ∀ x y, p x → p y → ¬ less x y) (hA : A.Pairwise (notAfter less · ·)) :
    (A.merge B (notAfter less)).filter p = A.filter p ++ B.filter p := by
  induction A generalizing B with
  | nil => simp
  | cons x A ihA =>
    obtain ⟨hx, hA⟩ := List.pairwise_cons.mp hA
    induction B with
    | nil => simp
    | cons y B ihB =>
      rw [List.cons_merge_cons]
      split_ifs with hle
      · rw [List.filter_cons, List.filter_cons, ihA hA]
        split_ifs <;> rfl
      · rw [List.filter_cons, ihB]
        have hlt : less y x := by simpa [notAfter] using hle
        by_cases hpy : p y
        · -- then no element of the first list is in the class
          have hnone : (x :: A).filter p = [] := by
            refine List.filter_eq_nil_iff.mpr fun z hz hpz => hp y z hpy hpz ?_
            rcases List.mem_cons.mp hz with rfl | hz
            · exact hlt
            · by_contra hyz
              have hzy : notAfter less z y := by simpa [notAfter] using hyz
              exact absurd (notAfter_trans (hx z hz) hzy) (by simp [notAfter, hlt])
          simp [hnone, hpy]
        · simp [hpy]

def Stable (less : α → α → Bool) (l l' : List α) : Prop :=
  l'.Perm l ∧ ∀ p : α → Bool, (∀ x y, p x → p y → ¬ less x y) → l'.filter p = l.filter p

omit horder in
theorem Stable.trans {l₁ l₂ l₃ : List α} (h : Stable less l₁ l₂) (h' : Stable less l₂ l₃) :
    Stable less l₁ l₃ := ⟨h'.1.trans h.1, fun p hp => (h'.2 p hp).trans (h.2 p hp)⟩

omit horder in
theorem Stable.append {l₁ l₂ l₃ l₄ : List α} (h : Stable less l₁ l₂) (h' : Stable less l₃ l₄) :
    Stable less (l₁ ++ l₃) (l₂ ++ l₄) :=
  ⟨h.1.append h'.1, fun p hp => by rw [List.filter_append, List.filter_append, h.2 p hp, h'.2 p hp]⟩

omit horder in
theorem Stable.refl (l : List α) : Stable less l l := ⟨.refl l, fun _ _ => rfl⟩

theorem stable_merge {A B : List α} (hA : A.Pairwise (notAfter less · ·)) :
    Stable less (A ++ B) (A.merge B (notAfter less)) :=
  ⟨List.merge_perm_append _, fun p hp => by rw [filter_merge hp hA, List.filter_append]⟩

theorem pairwise_merge' {A B : List α} (hA : A.Pairwise (notAfter less · ·))
    (hB : B.Pairwise (notAfter less · ·)) :
    (A.merge B (notAfter less)).Pairwise (notAfter less · ·) := by
  refine List.pairwise_merge (fun a b c => notAfter_trans) (fun a b => ?_) A B hA hB
  rw [Bool.or_eq_true]
  by_cases h : less b a
  · exact .inr (notAfter_of_less h)
  · exact .inl (by simpa [notAfter] using h)

variable (less) in
theorem sortPass_append {n : ℕ} (Q R : List α) (cnt : ℕ) (hn : R.length < n) : ∃ R' k,
    sortPass less n (Q ++ R) Q.length cnt = some (Q ++ R', cnt + k) ∧ Stable less R R' ∧
      runs less R' ≤ k ∧ 2 * k ≤ runs less R + 1 := by
  induction n generalizing Q R cnt with
  | zero => omega
  | succ n ih =>
    rw [sortPass]
    cases R with
    | nil => exact ⟨[], 0, by simp, .refl _, by simp [runs], by simp⟩
    | cons x R =>
      obtain ⟨A, B, hAB, hfind, hne, hA, hruns⟩ := findEndOfRun_append less Q x R
      rw [if_neg (by simp), hfind]
      simp only [Option.bind_eq_bind, Option.bind_some]
      rw [hAB] at hn ⊢
      cases B with
      | nil =>
        refine ⟨A, 1, by simp, by simpa using .refl A, runs_of_pairwise hA, ?_⟩
        rw [← hAB, hruns]
        omega
      | cons y B =>
        obtain ⟨C, D, hCD, hfind', hne', hC, hruns'⟩ := findEndOfRun_append less (Q ++ A) y B
        rw [if_neg (by simp), ← List.append_assoc, hfind']
        simp only [Option.bind_some]
        rw [hCD] at hn hruns ⊢
        have hmerge : inplaceMerge less (Q ++ A ++ (C ++ D)) Q.length (Q ++ A).length
            (Q ++ A ++ C).length = some (Q ++ A.merge C (notAfter less) ++ D) := by
          have h1 := isSorted_append (Q := Q) (S := C ++ D) hA
          have h2 := isSorted_append (Q := Q ++ A) (S := D) hC
          have h3 := mergeLoop_append less (n := (Q ++ A ++ C).length - Q.length + 1) Q A C D
            (by simp)
          rw [← List.append_assoc] at h1 ⊢
          rw [inplaceMerge, h1, h2]
          simpa using h3
        rw [hmerge]
        simp only [Option.bind_some]
        have hlen : (A.merge C (notAfter less)).length = A.length + C.length := by
          simp
        have hA0 := List.length_pos_iff.mpr hne
        obtain ⟨D', k, hpass, hst, hruns₁, hk⟩ := ih (Q ++ A.merge C (notAfter less)) D (cnt + 1)
          (by simp at hn; omega)
        refine ⟨A.merge C (notAfter less) ++ D', k + 1, ?_, ?_, ?_, ?_⟩
        · rw [show (Q ++ A ++ C).length = (Q ++ A.merge C (notAfter less)).length by
            simp [hlen], hpass]
          simp [Nat.add_assoc, Nat.add_comm 1]
        · rw [← List.append_assoc]
          exact (stable_merge hA).append hst
        · have h1 := runs_append_le less (A.merge C (notAfter less)) D'
          have h2 := runs_of_pairwise (pairwise_merge' hA hC)
          omega
        · rw [← hCD] at hruns ⊢
          rw [← hAB]
          omega

theorem listSort_spec {n : ℕ} (l : List α) (hn : runs less l < n) :
    ∃ l', listSort less n l = some l' ∧ Stable less l l' ∧ l'.Pairwise (notAfter less · ·) := by
  induction n generalizing l with
  | zero => omega
  | succ n ih =>
    obtain ⟨l₁, k, hpass, hst, hruns, hk⟩ :=
      sortPass_append less [] l 0 (Nat.lt_succ_self l.length)
    rw [List.nil_append, List.nil_append, Nat.zero_add] at hpass
    rw [listSort, show sortPass less (l.length + 1) l 0 0 = some (l₁, k) from hpass]
    simp only [Option.bind_eq_bind, Option.bind_some]
    split_ifs with hcnt
    · obtain ⟨l', hsort, hst', hsorted⟩ := ih l₁ (by omega)
      exact ⟨l', hsort, hst.trans hst', hsorted⟩
    · have hsorted := pairwise_of_runs (Nat.le_trans hruns (Nat.not_lt.mp hcnt))
      have hcheck := isSorted_append (Q := []) (S := []) hsorted
      simp only [List.nil_append, List.append_nil, List.length_nil] at hcheck
      refine ⟨l₁, ?_, hst, hsorted⟩
      rw [hcheck]
      rfl

omit horder in
theorem listSort_stable (less : α → α → Bool) [h : IsStrictWeakOrder α fun a b => less a b = true]
    (l : List α) : ∃ l', (∃ n, listSort less n l = some l') ∧ l'.Perm l ∧
      l'.Pairwise (fun x y => less y x = false) ∧
      ∀ x, l'.filter (fun y => !less x y && !less y x) = l.filter fun y => !less x y && !less y x := by
  obtain ⟨l', hsort, ⟨hperm, hclass⟩, hsorted⟩ := listSort_spec l (Nat.lt_succ_self (runs less l))
  refine ⟨l', ⟨_, hsort⟩, hperm, hsorted.imp fun hxy => by simpa [notAfter] using hxy, fun x => ?_⟩
  refine hclass _ fun y z hy hz => ?_
  simp only [Bool.and_eq_true, Bool.not_eq_true', Bool.eq_false_iff] at hy hz
  exact (h.incomp_trans _ _ _ ⟨hy.2, hy.1⟩ hz).1

omit horder in
theorem listSort_stable_nat : ∃ l', (∃ n, listSort (fun x y : ℕ => x < y) n [3, 1, 2] = some l') ∧
    l'.Perm [3, 1, 2] :=
  have : IsStrictWeakOrder ℕ fun a b => decide (a < b) = true :=
    { irrefl := by simp, trans := by simp; omega, incomp_trans := by simp; omega }
  (listSort_stable _ [3, 1, 2]).imp fun _ h => ⟨h.1, h.2.1⟩

end Cs162.Kernel
