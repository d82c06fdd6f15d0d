import Mathlib.Tactic.Common

namespace Cs162.Lib

def inRange (a n q : ℕ) : Bool := a ≤ q && q < a + n

theorem inRange_iff {a n q : ℕ} : inRange a n q = true ↔ a ≤ q ∧ q < a + n := by simp [inRange]

def setRange (used : ℕ → Bool) (a n : ℕ) (value : Bool) : ℕ → Bool :=
  fun q => if inRange a n q then value else used q

def NoOverlap (r r' : ℕ × ℕ) : Prop := r.1 + r.2 ≤ r'.1 ∨ r'.1 + r'.2 ≤ r.1

theorem NoOverlap.symm {r r' : ℕ × ℕ} (h : NoOverlap r r') : NoOverlap r' r := Or.symm h

theorem noOverlap_of_forall {a n a' n' : ℕ} (hn : 0 < n) (hn' : 0 < n')
    (h : ∀ q, inRange a n q → inRange a' n' q → False) : NoOverlap (a, n) (a', n') := by
  by_contra hnot
  simp only [NoOverlap, not_or, Nat.not_le] at hnot
  exact h (max a a') (inRange_iff.mpr (by omega)) (inRange_iff.mpr (by omega))

variable {ι : Type*}

structure Ranges (range : ι → Option (ℕ × ℕ)) (used : ℕ → Bool) : Prop where
  pos : ∀ {o r}, range o = some r → 0 < r.2
  apart : ∀ {o o' r r'}, range o = some r → range o' = some r' → o ≠ o' → NoOverlap r r'
  used_iff : ∀ q, used q = true ↔ ∃ o r, range o = some r ∧ inRange r.1 r.2 q

namespace Ranges
variable {range : ι → Option (ℕ × ℕ)} {used : ℕ → Bool} {o : ι} {a n : ℕ}

theorem empty : Ranges (fun _ : ι => none) fun _ => false := ⟨nofun, nofun, fun _ => by simp⟩

theorem used_of_range (h : Ranges range used) (ho : range o = some (a, n)) {q : ℕ} (hq : inRange a n q) :
    used q = true :=
  (h.used_iff q).mpr ⟨o, _, ho, hq⟩

theorem used_start (h : Ranges range used) (ho : range o = some (a, n)) : used a = true :=
  h.used_of_range ho (inRange_iff.mpr ⟨Nat.le_refl a, Nat.lt_add_of_pos_right (h.pos ho)⟩)

theorem owner_unique (h : Ranges range used) {o' : ι} {r r' : ℕ × ℕ} {q : ℕ} (ho : range o = some r)
    (ho' : range o' = some r') (hq : inRange r.1 r.2 q) (hq' : inRange r'.1 r'.2 q) : o = o' := by
  by_contra hne
  have := h.apart ho ho' hne
  rw [inRange_iff] at hq hq'
  rw [NoOverlap] at this
  omega

variable [DecidableEq ι]

theorem claim (h : Ranges range used) (hnone : range o = none) (hn : 0 < n)
    (hfree : ∀ q, inRange a n q → used q = false) :
    Ranges (Function.update range o (some (a, n))) (setRange used a n true) := by
  have hold : ∀ {o' r'}, range o' = some r' → NoOverlap (a, n) r' := fun {o' r'} ho' =>
    noOverlap_of_forall hn (h.pos ho') fun q hq hq' =>
      absurd (h.used_of_range ho' hq') (by rw [hfree q hq]; exact Bool.false_ne_true)
  refine ⟨fun {o' r'} ho' => ?_, fun {o₁ o₂ r₁ r₂} h₁ h₂ hne => ?_, fun q => ?_⟩
  · rw [Function.update_apply] at ho'
    split_ifs at ho'
    · exact Option.some.inj ho' ▸ hn
    · exact h.pos ho'
  · rw [Function.update_apply] at h₁ h₂
    split_ifs at h₁ h₂ with e₁ e₂ e₂
    · exact absurd (e₁.trans e₂.symm) hne
    · exact Option.some.inj h₁ ▸ hold h₂
    · exact Option.some.inj h₂ ▸ (hold h₁).symm
    · exact h.apart h₁ h₂ hne
  · rw [setRange]
    split_ifs with hq
    · exact iff_of_true rfl ⟨o, (a, n), Function.update_self .., hq⟩
    · rw [h.used_iff q]
      constructor
      · rintro ⟨o', r', ho', hq'⟩
        have hne : o' ≠ o := by
          rintro rfl
          exact nomatch hnone.symm.trans ho'
        exact ⟨o', r', (Function.update_of_ne hne ..).trans ho', hq'⟩
      · rintro ⟨o', r', ho', hq'⟩
        rw [Function.update_apply] at ho'
        split_ifs at ho'
        · obtain rfl := Option.some.inj ho'
          exact absurd hq' hq
        · exact ⟨o', r', ho', hq'⟩

theorem release (h : Ranges range used) (ho : range o = some (a, n)) :
    Ranges (Function.update range o none) (setRange used a n false) := by
  have hold : ∀ {o' r'}, Function.update range o none o' = some r' → o' ≠ o ∧ range o' = some r' := by
    intro o' r' ho'
    rw [Function.update_apply] at ho'
    split_ifs at ho' with e
    exact ⟨e, ho'⟩
  refine ⟨fun ho' => h.pos (hold ho').2, fun h₁ h₂ => h.apart (hold h₁).2 (hold h₂).2, fun q => ?_⟩
  rw [setRange]
  split_ifs with hq
  · refine iff_of_false id ?_
    rintro ⟨o', r', ho', hq'⟩
    exact (hold ho').1 (h.owner_unique (hold ho').2 ho hq' hq)
  · rw [h.used_iff q]
    constructor
    · rintro ⟨o', r', ho', hq'⟩
      have hne : o' ≠ o := by
        rintro rfl
        obtain rfl := Option.some.inj (ho.symm.trans ho')
        exact hq hq'
      exact ⟨o', r', (Function.update_of_ne hne ..).trans ho', hq'⟩
    · rintro ⟨o', r', ho', hq'⟩
      exact ⟨o', r', (hold ho').2, hq'⟩

end Ranges
end Cs162.Lib
