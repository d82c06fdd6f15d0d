import Mathlib.Data.Finset.Card

namespace Cs162.Kernel

structure Bitmap where
  bitCnt : ℕ
  bits : ℕ → Bool

namespace Bitmap

def contains (b : Bitmap) (start cnt : ℕ) (value : Bool) : Bool :=
  (List.range cnt).any fun i => b.bits (start + i) == value

def all (b : Bitmap) (start cnt : ℕ) : Bool := !b.contains start cnt false

def setMultiple (b : Bitmap) (start cnt : ℕ) (value : Bool) : Bitmap :=
  { b with bits := fun i => if start ≤ i ∧ i < start + cnt then value else b.bits i }

def scan (b : Bitmap) (start cnt : ℕ) (value : Bool) : Option ℕ :=
  if cnt ≤ b.bitCnt then
    (List.range' start (b.bitCnt - cnt + 1 - start)).find? fun i => !b.contains i cnt (!value)
  else none

def scanAndFlip (b : Bitmap) (start cnt : ℕ) (value : Bool) : Option (ℕ × Bitmap) :=
  (b.scan start cnt value).map fun i => (i, b.setMultiple i cnt (!value))

variable {b : Bitmap} {start cnt i : ℕ} {value : Bool}

theorem contains_eq_false : b.contains start cnt (!value) = false ↔ ∀ j < cnt, b.bits (start + j) = value := by
  simp only [contains, List.any_eq_false, List.mem_range, beq_iff_eq, Bool.not_eq_not]

theorem all_eq_true : b.all start cnt = true ↔ ∀ j < cnt, b.bits (start + j) = true := by
  rw [all, Bool.not_eq_true', ← contains_eq_false]
  rfl

theorem scan_eq_some (h : b.scan start cnt value = some i) :
    start ≤ i ∧ i + cnt ≤ b.bitCnt ∧ ∀ j < cnt, b.bits (i + j) = value := by
  unfold scan at h
  split_ifs at h with hcnt
  have hmem := List.mem_range'_1.mp (List.mem_of_find?_eq_some h)
  have hfree := List.find?_some h
  exact ⟨hmem.1, by omega, contains_eq_false.mp (by simpa using hfree)⟩

theorem scan_eq_none (h : b.scan start cnt value = none) (hs : start ≤ i) (hi : i + cnt ≤ b.bitCnt) :
    ∃ j < cnt, b.bits (i + j) = !value := by
  unfold scan at h
  rw [if_pos (by omega)] at h
  have := List.find?_eq_none.mp h i (List.mem_range'_1.mpr (by omega))
  by_contra hno
  push Not at hno
  refine this ?_
  rw [contains_eq_false.mpr fun j hj => by simpa using hno j hj]
  rfl

def freeCount (b : Bitmap) : ℕ := ((Finset.range b.bitCnt).filter fun i => b.bits i = false).card

theorem bits_setMultiple_one (j : ℕ) :
    (b.setMultiple i 1 value).bits j = if j = i then value else b.bits j := by
  unfold setMultiple
  simp only
  split_ifs <;> first | rfl | omega

theorem exists_scanAndFlip (h : 0 < b.freeCount) :
    ∃ i, b.scanAndFlip 0 1 false = some (i, b.setMultiple i 1 true) ∧ i < b.bitCnt ∧ b.bits i = false := by
  obtain ⟨j, hj⟩ := Finset.card_pos.mp h
  rw [Finset.mem_filter, Finset.mem_range] at hj
  rcases hscan : b.scan 0 1 false with _ | i
  · obtain ⟨k, hk, hbit⟩ := scan_eq_none hscan (Nat.zero_le j) (by omega)
    obtain rfl : k = 0 := by omega
    simp [hj.2] at hbit
  · obtain ⟨-, hi, hbits⟩ := scan_eq_some hscan
    exact ⟨i, by simp [scanAndFlip, hscan], by omega, hbits 0 (by omega)⟩

theorem freeCount_setMultiple (hi : i < b.bitCnt) (hbit : b.bits i = false) :
    (b.setMultiple i 1 true).freeCount + 1 = b.freeCount := by
  have herase : ((Finset.range b.bitCnt).filter fun j => (b.setMultiple i 1 true).bits j = false) =
      ((Finset.range b.bitCnt).filter fun j => b.bits j = false).erase i := by
    ext j
    simp only [Finset.mem_filter, Finset.mem_erase, Finset.mem_range, bits_setMultiple_one]
    by_cases hj : j = i <;> simp [hj]
  unfold freeCount
  change (Finset.filter _ (Finset.range b.bitCnt)).card + 1 = _
  rw [herase]
  exact Finset.card_erase_add_one (by simp [hi, hbit])

end Bitmap
end Cs162.Kernel
