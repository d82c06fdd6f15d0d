import Mathlib.Dynamics.PeriodicPts.Defs

namespace Cs162.Lib
variable {α : Type*} {p : α → Bool} {next : α → α} {n m : ℕ} {a b : α}

def walk (p : α → Bool) (next : α → α) : ℕ → α → Option α
  | 0, _ => none
  | n + 1, a => if p a then some a else walk p next n (next a)

def Meets (p : α → Bool) (next : α → α) (a : α) (k : ℕ) (b : α) : Prop :=
  next^[k] a = b ∧ p b = true ∧ ∀ j < k, p (next^[j] a) = false

theorem Meets.unique {k k' : ℕ} {b' : α} (h : Meets p next a k b) (h' : Meets p next a k' b') : b = b' := by
  obtain ⟨rfl, hb, hbefore⟩ := h
  obtain ⟨rfl, hb', hbefore'⟩ := h'
  rcases Nat.lt_trichotomy k k' with hlt | rfl | hlt
  · exact absurd hb (by simp [hbefore' k hlt])
  · rfl
  · exact absurd hb' (by simp [hbefore k' hlt])

theorem walk_eq_some : walk p next n a = some b ↔ ∃ k < n, Meets p next a k b := by
  induction n generalizing a with
  | zero => simp [walk]
  | succ n ih =>
    rw [walk]
    split_ifs with ha
    · constructor
      · rintro ⟨⟩
        exact ⟨0, Nat.succ_pos n, rfl, ha, fun j hj => absurd hj (Nat.not_lt_zero j)⟩
      · rintro ⟨k, -, hk⟩
        exact congrArg some (Meets.unique ⟨rfl, ha, fun j hj => absurd hj (Nat.not_lt_zero j)⟩ hk)
    · have ha : p a = false := Bool.eq_false_iff.mpr ha
      rw [ih]
      constructor
      · rintro ⟨k, hk, hb, hp, hbefore⟩
        refine ⟨k + 1, Nat.succ_lt_succ hk, hb, hp, fun j hj => ?_⟩
        cases j with
        | zero => exact ha
        | succ j => exact hbefore j (Nat.lt_of_succ_lt_succ hj)
      · rintro ⟨k, hk, hb, hp, hbefore⟩
        cases k with
        | zero =>
          cases hb
          exact absurd hp (by simp [ha])
        | succ k => exact ⟨k, Nat.lt_of_succ_lt_succ hk, hb, hp, fun j hj => hbefore (j + 1) (Nat.succ_lt_succ hj)⟩

theorem walk_eq_none : walk p next n a = none ↔ ∀ j < n, p (next^[j] a) = false := by
  induction n generalizing a with
  | zero => simp [walk]
  | succ n ih =>
    rw [walk]
    split_ifs with ha
    · exact iff_of_false id fun h => absurd ha (by simpa using h 0 (Nat.succ_pos n))
    · rw [ih]
      constructor
      · rintro h (_ | j) hj
        · exact Bool.eq_false_iff.mpr ha
        · exact h j (Nat.lt_of_succ_lt_succ hj)
      · exact fun h j hj => h (j + 1) (Nat.succ_lt_succ hj)

end Cs162.Lib
