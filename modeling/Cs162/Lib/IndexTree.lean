import Mathlib.Tactic.Common

namespace Cs162.Lib
open Function Option

structure IndexTree (α σ δ κ : Type*) where
  cell : α → Option (α × κ)
  ptr : α → δ → κ → σ
  cell_inj : ∀ c c' a k, cell c = some (a, k) → cell c' = some (a, k) → c = c'

namespace IndexTree
variable {α σ δ κ : Type*} (T : IndexTree α σ δ κ)

structure Linked (store : σ → δ) (loc : α → Option σ) (blank : α → σ) : Prop where
  ptr : ∀ c a k t, T.cell c = some (a, k) → loc a = some t → T.ptr a (store t) k = (loc c).getD (blank c)
  inj : ∀ a b t, loc a = some t → loc b = some t → a = b
  up : ∀ c a k t, T.cell c = some (a, k) → loc c = some t → loc a ≠ none

namespace Linked
variable {T} {store store' : σ → δ} {loc : α → Option σ} {blank blank' : α → σ} {a c : α} {t u : σ} {k : κ}
  {d e : δ}

theorem congr (h : T.Linked store loc blank) (hstore : ∀ a t, loc a = some t → store' t = store t)
    (hblank : ∀ c, loc c = none → blank' c = blank c) : T.Linked store' loc blank' := by
  refine ⟨fun c a k t hc ha => ?_, h.inj, h.up⟩
  rw [hstore a t ha, h.ptr c a k t hc ha]
  cases hlc : loc c with
  | none => exact (hblank c hlc).symm
  | some u => rfl

variable [DecidableEq σ]

theorem rewrite (h : T.Linked store loc blank) (ha : loc a = some t)
    (hd : ∀ c k, T.cell c = some (a, k) → T.ptr a d k = T.ptr a (store t) k) :
    T.Linked (update store t d) loc blank := by
  refine ⟨fun c b k u hc hb => ?_, h.inj, h.up⟩
  by_cases hu : u = t
  · subst hu
    obtain rfl := h.inj a b u ha hb
    rw [update_self, hd c k hc, h.ptr c a k u hc ha]
  · rw [update_of_ne hu, h.ptr c b k u hc hb]

variable [DecidableEq α]

theorem mark (h : T.Linked store loc blank) (hc : T.cell c = some (a, k)) (ha : loc a = some t)
    (hnone : loc c = none) (hk : T.ptr a d k = u)
    (hd : ∀ c' k', T.cell c' = some (a, k') → k' ≠ k → T.ptr a d k' = T.ptr a (store t) k') :
    T.Linked (update store t d) loc (update blank c u) := by
  refine ⟨fun c' b k' v hc' hb => ?_, h.inj, h.up⟩
  have hother : ∀ c', c' ≠ c → (loc c').getD (update blank c u c') = (loc c').getD (blank c') :=
    fun c' hne => by rw [update_of_ne hne]
  by_cases hv : v = t
  · subst hv
    obtain rfl := h.inj a b v ha hb
    rw [update_self]
    by_cases hk' : k' = k
    · subst hk'
      obtain rfl := T.cell_inj c' c a k' hc' hc
      rw [hk, hnone, update_self]
      rfl
    · have hne : c' ≠ c := by
        rintro rfl
        exact hk' (Prod.mk.inj (some.inj (hc'.symm.trans hc))).2
      rw [hd c' k' hc' hk', h.ptr c' a k' v hc' ha, hother c' hne]
  · have hne : c' ≠ c := by
      rintro rfl
      obtain ⟨rfl, -⟩ := Prod.mk.inj (some.inj (hc'.symm.trans hc))
      exact hv (some.inj (hb.symm.trans ha))
    rw [update_of_ne hv, h.ptr c' b k' v hc' hb, hother c' hne]

theorem alloc (h : T.Linked store loc blank) (hc : T.cell c = some (a, k)) (ha : loc a = some t)
    (hnone : loc c = none) (hfresh : ∀ b, loc b ≠ some u) (hk : T.ptr a d k = u)
    (hd : ∀ c' k', T.cell c' = some (a, k') → k' ≠ k → T.ptr a d k' = T.ptr a (store t) k')
    (he : ∀ c' k', T.cell c' = some (c, k') → T.ptr c e k' = blank c') :
    T.Linked (update (update store u e) t d) (update loc c (some u)) blank := by
  have hac : a ≠ c := by
    rintro rfl
    exact some_ne_none t (ha.symm.trans hnone)
  have hut : t ≠ u := by
    rintro rfl
    exact hfresh a ha
  -- what points to `c` is in `a`, and what `c` is to point to has no block yet
  have hchild : ∀ c' k', T.cell c' = some (c, k') → loc c' = none := fun c' k' hc' => by
    by_contra hsome
    obtain ⟨v, hv⟩ := ne_none_iff_exists'.mp hsome
    exact h.up c' c k' v hc' hv hnone
  refine ⟨fun c' b k' v hc' hb => ?_, fun b b' v hb hb' => ?_, fun c' b k' v hc' hv => ?_⟩
  · by_cases hbc : b = c
    · subst hbc
      rw [update_self] at hb
      obtain rfl : u = v := some.inj hb
      have hc'b : c' ≠ b := by
        rintro rfl
        exact hac (Prod.mk.inj (some.inj (hc.symm.trans hc'))).1
      rw [update_of_ne hut.symm, update_self, update_of_ne hc'b, hchild c' k' hc',
        he c' k' hc']
      rfl
    rw [update_of_ne hbc] at hb
    have hvu : v ≠ u := fun hvu => hfresh b (hvu ▸ hb)
    by_cases hvt : v = t
    · subst hvt
      obtain rfl := h.inj a b v ha hb
      rw [update_self]
      by_cases hk' : k' = k
      · subst hk'
        obtain rfl := T.cell_inj c' c a k' hc' hc
        rw [hk, update_self]
        rfl
      · have hne : c' ≠ c := by
          rintro rfl
          exact hk' (Prod.mk.inj (some.inj (hc'.symm.trans hc))).2
        rw [hd c' k' hc' hk', h.ptr c' a k' v hc' ha, update_of_ne hne]
    · have hne : c' ≠ c := by
        rintro rfl
        obtain ⟨rfl, -⟩ := Prod.mk.inj (some.inj (hc'.symm.trans hc))
        exact hvt (some.inj (hb.symm.trans ha))
      rw [update_of_ne hvt, update_of_ne hvu, h.ptr c' b k' v hc' hb, update_of_ne hne]
  · by_cases hbc : b = c <;> by_cases hbc' : b' = c
    · rw [hbc, hbc']
    · subst hbc
      rw [update_self] at hb
      rw [update_of_ne hbc'] at hb'
      exact absurd (hb'.trans hb.symm) (hfresh b')
    · subst hbc'
      rw [update_self] at hb'
      rw [update_of_ne hbc] at hb
      exact absurd (hb.trans hb'.symm) (hfresh b)
    · rw [update_of_ne hbc] at hb
      rw [update_of_ne hbc'] at hb'
      exact h.inj b b' v hb hb'
  · by_cases hbc : b = c
    · rw [hbc, update_self]
      exact some_ne_none u
    rw [update_of_ne hbc]
    by_cases hc'c : c' = c
    · subst hc'c
      obtain ⟨rfl, -⟩ := Prod.mk.inj (some.inj (hc.symm.trans hc'))
      exact ha ▸ some_ne_none t
    · rw [update_of_ne hc'c] at hv
      exact h.up c' b k' v hc' hv

end Linked
end IndexTree
end Cs162.Lib
