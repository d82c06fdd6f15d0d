import Mathlib.Algebra.Group.End
import Mathlib.Algebra.Order.Ring.Int

namespace Cs162.Kernel

section Code
variable {α : Type}

def doSwap (a : ℕ → α) (i j : ℕ) : ℕ → α := a ∘ Equiv.swap i j

def maxChild (compare : α → α → ℤ) (a : ℕ → α) (i cnt : ℕ) : ℕ :=
  let left := 2 * i
  let right := 2 * i + 1
  let max := if left ≤ cnt ∧ compare (a left) (a i) > 0 then left else i
  if right ≤ cnt ∧ compare (a right) (a max) > 0 then right else max

theorem maxChild_cases (compare : α → α → ℤ) (a : ℕ → α) (i cnt : ℕ) :
    maxChild compare a i cnt = i ∨ (maxChild compare a i cnt = 2 * i ∨
      maxChild compare a i cnt = 2 * i + 1) ∧ maxChild compare a i cnt ≤ cnt := by
  dsimp only [maxChild]
  split_ifs <;> omega

def heapify (compare : α → α → ℤ) (a : ℕ → α) (i cnt : ℕ) : ℕ → α :=
  if h : maxChild compare a i cnt = i then a
  else heapify compare (doSwap a i (maxChild compare a i cnt)) (maxChild compare a i cnt) cnt
termination_by cnt - i
decreasing_by
  have := maxChild_cases compare a i cnt
  omega

def buildHeap (compare : α → α → ℤ) (cnt : ℕ) : ℕ → (ℕ → α) → ℕ → α
  | 0, a => a
  | i + 1, a => buildHeap compare cnt i (heapify compare a (i + 1) cnt)

def sortHeap (compare : α → α → ℤ) : ℕ → (ℕ → α) → ℕ → α
  | 0, a => a
  | 1, a => a
  | i + 2, a => sortHeap compare (i + 1) (heapify compare (doSwap a 1 (i + 2)) 1 (i + 1))

def sort (compare : α → α → ℤ) (a : ℕ → α) (cnt : ℕ) : ℕ → α :=
  sortHeap compare cnt (buildHeap compare cnt (cnt / 2) a)

def searchBetween (compare : α → α → ℤ) (key : α) (a : ℕ → α) (first last : ℕ) : Option ℕ :=
  if first < last then
    let middle := first + (last - first) / 2
    let cmp := compare key (a (middle + 1))
    if cmp < 0 then searchBetween compare key a first middle
    else if cmp > 0 then searchBetween compare key a (middle + 1) last
    else some middle
  else none
termination_by last - first

def binarySearch (compare : α → α → ℤ) (key : α) (a : ℕ → α) (cnt : ℕ) : Option ℕ :=
  searchBetween compare key a 0 cnt

end Code

structure Compares {α : Type} (compare : α → α → ℤ) : Prop where
  pos_iff : ∀ x y, 0 < compare x y ↔ compare y x < 0
  trans : ∀ x y z, compare x y ≤ 0 → compare y z ≤ 0 → compare x z ≤ 0

section Proofs
variable {α : Type} {compare : α → α → ℤ} {a : ℕ → α} {i l cnt : ℕ}

theorem Compares.refl (h : Compares compare) (x : α) : compare x x ≤ 0 := by
  have := h.pos_iff x x
  omega

theorem Compares.le_of_pos (h : Compares compare) {x y : α} (hp : 0 < compare x y) :
    compare y x ≤ 0 := ((h.pos_iff x y).mp hp).le

theorem Compares.lt_of_lt_of_le (h : Compares compare) {x y z : α} (hxy : compare x y < 0)
    (hyz : compare y z ≤ 0) : compare x z < 0 := by
  by_contra hge
  have hzx : compare z x ≤ 0 := not_lt.mp fun hp => hge ((h.pos_iff z x).mp hp)
  exact ((h.pos_iff y x).mpr hxy).not_ge (h.trans _ _ _ hyz hzx)

theorem Compares.lt_of_le_of_lt (h : Compares compare) {x y z : α} (hxy : compare x y ≤ 0)
    (hyz : compare y z < 0) : compare x z < 0 := by
  by_contra hge
  have hzx : compare z x ≤ 0 := not_lt.mp fun hp => hge ((h.pos_iff z x).mp hp)
  exact ((h.pos_iff z y).mpr hyz).not_ge (h.trans _ _ _ hzx hxy)

def Reordered (l cnt : ℕ) (a b : ℕ → α) : Prop :=
  ∃ σ : Equiv.Perm ℕ, (∀ j, j < l ∨ cnt < j → σ j = j) ∧ b = a ∘ σ

theorem Reordered.rfl' : Reordered l cnt a a := ⟨1, fun _ _ => rfl, rfl⟩

theorem Reordered.trans {b c : ℕ → α} (h : Reordered l cnt a b) (h' : Reordered l cnt b c) :
    Reordered l cnt a c := by
  obtain ⟨σ, hσ, rfl⟩ := h
  obtain ⟨τ, hτ, rfl⟩ := h'
  refine ⟨τ.trans σ, fun j hj => ?_, rfl⟩
  rw [Equiv.trans_apply, hτ j hj, hσ j hj]

theorem Reordered.mono {b : ℕ → α} {l' cnt' : ℕ} (h : Reordered l cnt a b) (hl : l' ≤ l)
    (hc : cnt ≤ cnt') : Reordered l' cnt' a b := by
  obtain ⟨σ, hσ, rfl⟩ := h
  exact ⟨σ, fun j hj => hσ j (by omega), rfl⟩

theorem reordered_doSwap {j : ℕ} (hi : l ≤ i ∧ i ≤ cnt) (hj : l ≤ j ∧ j ≤ cnt) :
    Reordered l cnt a (doSwap a i j) :=
  ⟨Equiv.swap i j, fun k hk => Equiv.swap_apply_of_ne_of_ne (by omega) (by omega), rfl⟩

theorem Reordered.exists_eq {b : ℕ → α} (h : Reordered l cnt a b) {k : ℕ} (hk : l ≤ k ∧ k ≤ cnt) :
    ∃ k', (l ≤ k' ∧ k' ≤ cnt) ∧ b k = a k' := by
  obtain ⟨σ, hσ, rfl⟩ := h
  refine ⟨σ k, ?_, rfl⟩
  by_contra hout
  have := σ.injective (hσ (σ k) (by omega))
  omega

theorem Reordered.eq_outside {b : ℕ → α} (h : Reordered l cnt a b) {k : ℕ} (hk : k < l ∨ cnt < k) :
    b k = a k := by
  obtain ⟨σ, hσ, rfl⟩ := h
  exact congrArg a (hσ k hk)

theorem compare_maxChild (h : Compares compare) (a : ℕ → α) (i cnt : ℕ) :
    compare (a i) (a (maxChild compare a i cnt)) ≤ 0 ∧
      ∀ c, c = 2 * i ∨ c = 2 * i + 1 → c ≤ cnt →
        compare (a c) (a (maxChild compare a i cnt)) ≤ 0 := by
  dsimp only [maxChild]
  -- the first choice is at least the node and its left child
  generalize hm : (if 2 * i ≤ cnt ∧ compare (a (2 * i)) (a i) > 0 then 2 * i else i) = m
  have hnode : compare (a i) (a m) ≤ 0 := by
    subst hm
    split_ifs with hl
    · exact h.le_of_pos hl.2
    · exact h.refl _
  have hleft : 2 * i ≤ cnt → compare (a (2 * i)) (a m) ≤ 0 := by
    intro hc
    subst hm
    split_ifs with hl
    · exact h.refl _
    · exact not_lt.mp fun hp => hl ⟨hc, hp⟩
  split_ifs with hr
  · refine ⟨h.trans _ _ _ hnode (h.le_of_pos hr.2), fun c hc hle => ?_⟩
    rcases hc with rfl | rfl
    · exact h.trans _ _ _ (hleft hle) (h.le_of_pos hr.2)
    · exact h.refl _
  · refine ⟨hnode, fun c hc hle => ?_⟩
    rcases hc with rfl | rfl
    · exact hleft hle
    · exact not_lt.mp fun hp => hr ⟨hle, hp⟩

def HeapFrom (compare : α → α → ℤ) (a : ℕ → α) (l cnt : ℕ) : Prop :=
  ∀ j, l ≤ j → ∀ c, c = 2 * j ∨ c = 2 * j + 1 → c ≤ cnt → compare (a c) (a j) ≤ 0

structure HeapExcept (compare : α → α → ℤ) (a : ℕ → α) (l i cnt : ℕ) : Prop where
  other : ∀ j, l ≤ j → j ≠ i → ∀ c, c = 2 * j ∨ c = 2 * j + 1 → c ≤ cnt → compare (a c) (a j) ≤ 0
  above : l ≤ i / 2 → ∀ c, c = 2 * i ∨ c = 2 * i + 1 → c ≤ cnt → compare (a c) (a (i / 2)) ≤ 0

theorem HeapExcept.swap (h : Compares compare) (he : HeapExcept compare a l i cnt) (hl : 1 ≤ l)
    (hi : l ≤ i) (hne : maxChild compare a i cnt ≠ i) :
    HeapExcept compare (doSwap a i (maxChild compare a i cnt)) l (maxChild compare a i cnt) cnt := by
  obtain ⟨hnode, hchild⟩ := compare_maxChild h a i cnt
  obtain ⟨hm, hmle⟩ := (maxChild_cases compare a i cnt).resolve_left hne
  generalize maxChild compare a i cnt = m at *
  have hat : ∀ k, k ≠ i → k ≠ m → doSwap a i m k = a k := fun k h1 h2 =>
    congrArg a (Equiv.swap_apply_of_ne_of_ne h1 h2)
  have hati : doSwap a i m i = a m := congrArg a (Equiv.swap_apply_left i m)
  have hatm : doSwap a i m m = a i := congrArg a (Equiv.swap_apply_right i m)
  constructor
  · intro j hj hjm c hc hle
    by_cases hji : j = i
    · subst hji
      rw [hati]
      by_cases hcm : c = m
      · rw [hcm, hatm]
        exact hnode
      · rw [hat c (by omega) hcm]
        exact hchild c hc hle
    · rw [hat j hji hjm]
      by_cases hci : c = i
      · rw [hci, hati, show j = i / 2 by omega]
        exact he.above (by omega) m hm hmle
      · rw [hat c hci (by omega)]
        exact he.other j hj hji c hc hle
  · intro hlm c hc hle
    rw [show m / 2 = i by omega, hati, hat c (by omega) (by omega)]
    exact he.other m (by omega) (by omega) c hc hle

theorem heapify_spec (h : Compares compare) (hl : 1 ≤ l) (hi : l ≤ i)
    (he : HeapExcept compare a l i cnt) (hcnt : i ≤ cnt) :
    HeapFrom compare (heapify compare a i cnt) l cnt ∧
      Reordered l cnt a (heapify compare a i cnt) := by
  induction a, i using heapify.induct compare cnt with
  | case1 a i hmax =>
    rw [heapify, dif_pos hmax]
    refine ⟨fun j hj c hc hle => ?_, .rfl'⟩
    by_cases hji : j = i
    · have := (compare_maxChild h a i cnt).2 c (hji ▸ hc) hle
      rwa [hmax, ← hji] at this
    · exact he.other j hj hji c hc hle
  | case2 a i hmax ih =>
    have hm := (maxChild_cases compare a i cnt).resolve_left hmax
    rw [heapify, dif_neg hmax]
    obtain ⟨hheap, hre⟩ := ih (by omega) (he.swap h hl hi hmax) hm.2
    exact ⟨hheap, (reordered_doSwap ⟨hi, hcnt⟩ ⟨by omega, hm.2⟩).trans hre⟩

theorem buildHeap_spec (h : Compares compare) (hi : i ≤ cnt) (hheap : HeapFrom compare a (i + 1) cnt) :
    HeapFrom compare (buildHeap compare cnt i a) 1 cnt ∧
      Reordered 1 cnt a (buildHeap compare cnt i a) := by
  induction i generalizing a with
  | zero => exact ⟨hheap, .rfl'⟩
  | succ i ih =>
    have he : HeapExcept compare a (i + 1) (i + 1) cnt :=
      ⟨fun j hj hne => hheap j (by omega), fun hle => by omega⟩
    obtain ⟨hheap', hre⟩ := heapify_spec h (by omega) le_rfl he hi
    obtain ⟨hdone, hre'⟩ := ih (by omega) hheap'
    exact ⟨hdone, (hre.mono (by omega) le_rfl).trans hre'⟩

theorem HeapFrom.le_root (h : Compares compare) (hheap : HeapFrom compare a 1 cnt) :
    ∀ k, 1 ≤ k → k ≤ cnt → compare (a k) (a 1) ≤ 0 := by
  intro k
  induction k using Nat.strongRecOn with
  | ind k ih =>
    intro hk hle
    by_cases h1 : k = 1
    · rw [h1]
      exact h.refl _
    · exact h.trans _ _ _ (hheap (k / 2) (by omega) k (by omega) hle)
        (ih (k / 2) (by omega) (by omega) (by omega))

def SortedFrom (compare : α → α → ℤ) (a : ℕ → α) (i cnt : ℕ) : Prop :=
  ∀ k j, 1 ≤ k → k ≤ j → i < j → j ≤ cnt → compare (a k) (a j) ≤ 0

theorem sortHeap_spec (h : Compares compare) (hi : i ≤ cnt) (hheap : HeapFrom compare a 1 i)
    (hsorted : SortedFrom compare a i cnt) :
    SortedFrom compare (sortHeap compare i a) 0 cnt ∧ Reordered 1 cnt a (sortHeap compare i a) := by
  induction i, a using sortHeap.induct compare with
  | case1 a => exact ⟨hsorted, .rfl'⟩
  | case2 a =>
    refine ⟨fun k j hk hkj hj hle => ?_, .rfl'⟩
    by_cases h1 : j = 1
    · rw [h1, show k = 1 by omega]
      exact h.refl _
    · exact hsorted k j hk hkj (by omega) hle
  | case3 i a ih =>
    have hswap : Reordered 1 (i + 2) a (doSwap a 1 (i + 2)) :=
      reordered_doSwap ⟨le_rfl, by omega⟩ ⟨by omega, le_rfl⟩
    have hat : ∀ k, k ≠ 1 → k ≠ i + 2 → doSwap a 1 (i + 2) k = a k := fun k h1 h2 =>
      congrArg a (Equiv.swap_apply_of_ne_of_ne h1 h2)
    have he : HeapExcept compare (doSwap a 1 (i + 2)) 1 1 (i + 1) := by
      refine ⟨fun j hj hne c hc hle => ?_, fun hle => by omega⟩
      rw [hat j hne (by omega), hat c (by omega) (by omega)]
      exact hheap j hj c hc (by omega)
    obtain ⟨hheap', hre⟩ := heapify_spec h le_rfl le_rfl he (by omega)
    have hboth := hswap.trans (hre.mono le_rfl (by omega))
    -- the root has gone behind the heap
    have hnext : SortedFrom compare (heapify compare (doSwap a 1 (i + 2)) 1 (i + 1)) (i + 1) cnt := by
      intro k j hk hkj hj hle
      by_cases hlast : j = i + 2
      · subst hlast
        rw [hre.eq_outside (k := i + 2) (.inr (by omega)),
          show doSwap a 1 (i + 2) (i + 2) = a 1 from congrArg a (Equiv.swap_apply_right _ _)]
        obtain ⟨k', hk', hval⟩ := hboth.exists_eq ⟨hk, hkj⟩
        rw [hval]
        exact hheap.le_root h k' hk'.1 hk'.2
      · rw [hboth.eq_outside (k := j) (.inr (by omega))]
        by_cases hki : k ≤ i + 2
        · obtain ⟨k', hk', hval⟩ := hboth.exists_eq ⟨hk, hki⟩
          rw [hval]
          exact hsorted k' j hk'.1 (by omega) (by omega) hle
        · rw [hboth.eq_outside (.inr (by omega))]
          exact hsorted k j hk hkj (by omega) hle
    obtain ⟨hdone, hre'⟩ := ih (by omega) hheap' hnext
    exact ⟨hdone, (hboth.mono le_rfl hi).trans hre'⟩

theorem sort_spec (h : Compares compare) (a : ℕ → α) (cnt : ℕ) :
    SortedFrom compare (sort compare a cnt) 0 cnt ∧ Reordered 1 cnt a (sort compare a cnt) := by
  obtain ⟨hheap, hre⟩ := buildHeap_spec (a := a) h (show cnt / 2 ≤ cnt by omega)
    fun j hj c hc hle => by omega
  obtain ⟨hsorted, hre'⟩ := sortHeap_spec h le_rfl hheap fun k j _ _ hj hle => by omega
  exact ⟨hsorted, hre.trans hre'⟩

theorem searchBetween_spec (h : Compares compare) (key : α) (hs : SortedFrom compare a 0 cnt)
    {first last : ℕ} (hlast : last ≤ cnt)
    (hlow : ∀ i < first, 0 < compare key (a (i + 1)))
    (hhigh : ∀ i, last ≤ i → i < cnt → compare key (a (i + 1)) < 0) :
    (∃ m < cnt, searchBetween compare key a first last = some m ∧ compare key (a (m + 1)) = 0) ∨
      searchBetween compare key a first last = none ∧
        ∀ i < cnt, compare key (a (i + 1)) ≠ 0 := by
  induction first, last using searchBetween.induct compare key a with
  | case1 first last hlt middle cmp hcmp ih =>
    have hm : middle < last := by omega
    rw [searchBetween, if_pos hlt]
    simp only
    rw [if_pos hcmp]
    exact ih (by omega) hlow fun i hi hic =>
      h.lt_of_lt_of_le hcmp (hs _ _ (by omega) (by omega) (by omega) (by omega))
  | case2 first last hlt middle cmp hcmp hcmp' ih =>
    have hm : middle < last := by omega
    rw [searchBetween, if_pos hlt]
    simp only
    rw [if_neg hcmp, if_pos hcmp']
    refine ih hlast (fun i hi => (h.pos_iff _ _).mpr ?_) hhigh
    exact h.lt_of_le_of_lt (hs _ _ (by omega) (by omega) (by omega) (by omega))
      ((h.pos_iff _ _).mp hcmp')
  | case3 first last hlt middle cmp hcmp hcmp' =>
    have hm : middle < last := by omega
    rw [searchBetween, if_pos hlt]
    simp only
    rw [if_neg hcmp, if_neg hcmp']
    exact .inl ⟨middle, by omega, rfl, by omega⟩
  | case4 first last hlt =>
    rw [searchBetween, if_neg hlt]
    refine .inr ⟨rfl, fun i hi h0 => ?_⟩
    by_cases hfirst : i < first
    · exact absurd h0 (hlow i hfirst).ne'
    · exact absurd h0 (hhigh i (by omega) hi).ne

theorem sort_and_search (h : Compares compare) (a : ℕ → α) (cnt : ℕ) :
    SortedFrom compare (sort compare a cnt) 0 cnt ∧ Reordered 1 cnt a (sort compare a cnt) ∧
      ∀ key, (∃ m < cnt, binarySearch compare key (sort compare a cnt) cnt = some m ∧
          compare key (sort compare a cnt (m + 1)) = 0) ∨
        binarySearch compare key (sort compare a cnt) cnt = none ∧
          ∀ m < cnt, compare key (sort compare a cnt (m + 1)) ≠ 0 := by
  obtain ⟨hsorted, hre⟩ := sort_spec h a cnt
  refine ⟨hsorted, hre, fun key => ?_⟩
  exact searchBetween_spec h key hsorted le_rfl (fun i hi => by omega) fun i hi hc => by omega

theorem sort_and_search_ints : SortedFrom (fun x y : ℤ => x - y)
    (sort (fun x y => x - y) (fun i => 5 - i) 4) 0 4 :=
  (sort_and_search ⟨fun x y => by omega, fun x y z => by omega⟩ _ _).1

end Proofs

end Cs162.Kernel
