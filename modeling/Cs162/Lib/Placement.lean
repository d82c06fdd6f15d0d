import Mathlib.Tactic.Common

namespace Cs162.Lib
open Function

structure Placement (ι κ : Type*) where
  slotOf : ι → Option κ
  itemIn : κ → Option ι
  view : ι → Option κ

namespace Placement
variable {ι κ : Type*} {P : Placement ι κ} {hidden : ι → Prop} {i j : ι} {k : κ}

structure Ok (hidden : ι → Prop) (P : Placement ι κ) : Prop where
  inverse : ∀ i k, P.itemIn k = some i ↔ P.slotOf i = some k
  sound : ∀ i k, P.view i = some k → P.slotOf i = some k
  shown : ∀ i k, P.slotOf i = some k → ¬ hidden i → P.view i = some k

theorem Ok.mono {hidden' : ι → Prop} (h : P.Ok hidden) (hsub : ∀ i, hidden i → hidden' i) : P.Ok hidden' :=
  ⟨h.inverse, h.sound, fun i k hi hn => h.shown i k hi fun hh => hn (hsub i hh)⟩

theorem Ok.injective (h : P.Ok hidden) (hi : P.slotOf i = some k) (hj : P.slotOf j = some k) : i = j :=
  Option.some.inj (((h.inverse i k).mpr hi).symm.trans ((h.inverse j k).mpr hj))

theorem Ok.view_iff (h : P.Ok fun _ => False) : P.view i = some k ↔ P.slotOf i = some k :=
  ⟨h.sound i k, fun hi => h.shown i k hi id⟩

section Moves
variable [DecidableEq ι]

def remove (P : Placement ι κ) (i : ι) : Placement ι κ :=
  { P with slotOf := update P.slotOf i none, view := update P.view i none }

def reveal (P : Placement ι κ) (i : ι) (k : κ) : Placement ι κ :=
  { P with view := update P.view i (some k) }

theorem Ok.reveal (h : P.Ok fun x => hidden x ∨ x = i) (hi : P.slotOf i = some k) : (P.reveal i k).Ok hidden := by
  refine ⟨h.inverse, fun x y hx => ?_, fun x y hx hn => ?_⟩
  · by_cases hxi : x = i
    · subst hxi
      simp only [Placement.reveal, update_self] at hx ⊢
      rw [hi, hx]
    · simp only [Placement.reveal, update_of_ne hxi] at hx
      exact h.sound x y hx
  · by_cases hxi : x = i
    · subst hxi
      simp only [Placement.reveal, update_self]
      exact hi.symm.trans hx
    · simp only [Placement.reveal, update_of_ne hxi]
      exact h.shown x y hx (not_or.mpr ⟨hn, hxi⟩)

variable [DecidableEq κ]

def put (P : Placement ι κ) (i : ι) (k : κ) : Placement ι κ :=
  { P with slotOf := update P.slotOf i (some k), itemIn := update P.itemIn k (some i) }

theorem Ok.put (hinv : ∀ i' k', k' ≠ k → (P.itemIn k' = some i' ↔ P.slotOf i' = some k'))
    (hsound : ∀ i k, P.view i = some k → P.slotOf i = some k)
    (hshown : ∀ i k, P.slotOf i = some k → ¬ hidden i → P.view i = some k)
    (hfree : ∀ j, P.slotOf j ≠ some k) (hi : P.slotOf i = none) : (P.put i k).Ok fun x => hidden x ∨ x = i := by
  have hne : ∀ k', P.itemIn k' = some i → k' = k := fun k' hk' => by_contra fun hkk => by
    have := (hinv i k' hkk).mp hk'
    rw [hi] at this
    cases this
  refine ⟨fun x y => ?_, fun x y hx => ?_, fun x y hx hn => ?_⟩
  · by_cases hxi : x = i <;> by_cases hyk : y = k
    · subst hxi hyk
      simp [Placement.put]
    · subst hxi
      simp only [Placement.put, update_of_ne hyk, update_self, Option.some.injEq]
      exact ⟨fun hy => absurd (hne y hy) hyk, fun hy => absurd hy.symm hyk⟩
    · subst hyk
      simp only [Placement.put, update_self, update_of_ne hxi, Option.some.injEq]
      exact ⟨fun hx => absurd hx.symm hxi, fun hx => absurd hx (hfree x)⟩
    · simp only [Placement.put, update_of_ne hyk, update_of_ne hxi]
      exact hinv x y hyk
  · have hxi : x ≠ i := by
      rintro rfl
      have := hsound x y hx
      rw [hi] at this
      cases this
    simp only [Placement.put, update_of_ne hxi]
    exact hsound x y hx
  · have hxi : x ≠ i := fun hxi => hn (.inr hxi)
    simp only [Placement.put, update_of_ne hxi] at hx
    exact hshown x y hx fun hh => hn (.inl hh)

theorem Ok.put_free (h : P.Ok hidden) (hk : P.itemIn k = none) (hi : P.slotOf i = none) :
    (P.put i k).Ok fun x => hidden x ∨ x = i := by
  refine Ok.put (fun i' k' _ => h.inverse i' k') h.sound h.shown (fun j hj => ?_) hi
  rw [(h.inverse j k).mpr hj] at hk
  cases hk

theorem Ok.put_remove (h : P.Ok hidden) (hj : P.slotOf j = some k) (hi : P.slotOf i = none) :
    ((P.remove j).put i k).Ok fun x => hidden x ∨ x = i := by
  have hij : i ≠ j := by
    rintro rfl
    rw [hi] at hj
    cases hj
  refine Ok.put (fun x y hy => ?_) (fun x y hx => ?_) (fun x y hx hn => ?_) (fun x hx => ?_) ?_
  · by_cases hxj : x = j
    · subst hxj
      simp only [remove, update_self]
      refine ⟨fun hx => absurd ?_ hy, fun hx => by cases hx⟩
      exact Option.some.inj (((h.inverse x y).mp hx).symm.trans hj)
    · simp only [remove, update_of_ne hxj]
      exact h.inverse x y
  · by_cases hxj : x = j
    · subst hxj
      simp [remove] at hx
    · simp only [remove, update_of_ne hxj] at hx ⊢
      exact h.sound x y hx
  · by_cases hxj : x = j
    · subst hxj
      simp [remove] at hx
    · simp only [remove, update_of_ne hxj] at hx ⊢
      exact h.shown x y hx hn
  · by_cases hxj : x = j
    · subst hxj
      simp [remove] at hx
    · simp only [remove, update_of_ne hxj] at hx
      exact hxj (h.injective hx hj)
  · simp only [remove, update_of_ne hij, hi]

end Moves
end Placement
end Cs162.Lib
