import Mathlib.Data.List.Range

namespace Cs162.Lib
variable {σ τ ι : Type*} {s s' : σ} {t : τ}

theorem foldlM_invariant {I : σ → Prop} {f : σ → ι → Option σ} {l : List ι}
    (hstep : ∀ x ∈ l, ∀ s s', I s → f s x = some s' → I s') (hI : I s) (h : l.foldlM f s = some s') : I s' := by
  induction l generalizing s with
  | nil =>
    cases h
    exact hI
  | cons x l ih =>
    obtain ⟨s1, hs1, hrest⟩ := Option.bind_eq_some_iff.mp h
    exact ih (fun y hy => hstep y (List.mem_cons_of_mem x hy)) (hstep x List.mem_cons_self s s1 hI hs1) hrest

theorem foldlM_follows {R : σ → τ → Prop} {f : σ → ι → Option σ} {g : τ → ι → Option τ} {l : List ι}
    (hstep : ∀ x ∈ l, ∀ s s' t, R s t → f s x = some s' → ∃ t', g t x = some t' ∧ R s' t')
    (hR : R s t) (h : l.foldlM f s = some s') : ∃ t', l.foldlM g t = some t' ∧ R s' t' := by
  induction l generalizing s t with
  | nil =>
    cases h
    exact ⟨t, rfl, hR⟩
  | cons x l ih =>
    obtain ⟨s1, hs1, hrest⟩ := Option.bind_eq_some_iff.mp h
    obtain ⟨t1, ht1, hR1⟩ := hstep x List.mem_cons_self s s1 t hR hs1
    obtain ⟨t', ht', hR'⟩ := ih (fun y hy => hstep y (List.mem_cons_of_mem x hy)) hR1 hrest
    refine ⟨t', ?_, hR'⟩
    rw [List.foldlM_cons, ht1]
    exact ht'

theorem foldlM_range_follows {R : ℕ → σ → τ → Prop} {f : σ → ℕ → Option σ} {g : τ → ℕ → Option τ} {k : ℕ}
    (hstep : ∀ i < k, ∀ s s' t, R i s t → f s i = some s' → ∃ t', g t i = some t' ∧ R (i + 1) s' t')
    (hR : R 0 s t) (h : (List.range k).foldlM f s = some s') : ∃ t', (List.range k).foldlM g t = some t' ∧ R k s' t' := by
  induction k generalizing s' with
  | zero =>
    cases h
    exact ⟨t, rfl, hR⟩
  | succ k ih =>
    rw [List.range_succ, List.foldlM_append] at h
    obtain ⟨s1, hs1, hlast⟩ := Option.bind_eq_some_iff.mp h
    obtain ⟨s₂, hs₂, heq⟩ := Option.bind_eq_some_iff.mp hlast
    cases heq
    obtain ⟨t1, ht1, hR1⟩ := ih (fun i hi => hstep i (Nat.lt_succ_of_lt hi)) hs1
    obtain ⟨t', ht', hR'⟩ := hstep k (Nat.lt_succ_self k) s1 s' t1 hR1 hs₂
    refine ⟨t', ?_, hR'⟩
    rw [List.range_succ, List.foldlM_append, ht1]
    show (g t1 k).bind some = some t'
    rw [ht', Option.bind_some]

structure Supply {κ : Type*} (f : σ → ι → Option σ) (ok : ι → Prop) (need : ι → κ → Prop) (has : σ → κ → Prop)
    (granted : κ → Prop) : Prop where
  succeeds : ∀ s x, ok x → (f s x ≠ none ↔ ∀ k, need x k → has s k ∨ granted k)
  gets : ∀ s s' x, ok x → f s x = some s' → ∀ k, has s' k ↔ has s k ∨ need x k

variable {κ : Type*} {f : σ → ι → Option σ} {ok : ι → Prop} {need : ι → κ → Prop} {has : σ → κ → Prop}
  {granted : κ → Prop}

theorem Supply.foldlM_gets (h : Supply f ok need has granted) {l : List ι} (hok : ∀ x ∈ l, ok x)
    (hs : l.foldlM f s = some s') (k : κ) : has s' k ↔ has s k ∨ ∃ x ∈ l, need x k := by
  induction l generalizing s with
  | nil =>
    cases hs
    exact ⟨.inl, fun hk => hk.resolve_right (by simp)⟩
  | cons x l ih =>
    obtain ⟨s1, hs1, hrest⟩ := Option.bind_eq_some_iff.mp hs
    rw [ih (fun y hy => hok y (List.mem_cons_of_mem x hy)) hrest, h.gets s s1 x (hok x List.mem_cons_self) hs1, or_assoc,
      List.exists_mem_cons_iff]

theorem Supply.foldlM_succeeds (h : Supply f ok need has granted) {l : List ι} (hok : ∀ x ∈ l, ok x) :
    l.foldlM f s ≠ none ↔ ∀ k, (∃ x ∈ l, need x k) → has s k ∨ granted k := by
  induction l generalizing s with
  | nil => exact iff_of_true (Option.some_ne_none s) fun k hk => absurd hk (by simp)
  | cons x l ih =>
    have hx := hok x List.mem_cons_self
    have hl : ∀ y ∈ l, ok y := fun y hy => hok y (List.mem_cons_of_mem x hy)
    have hfirst := h.succeeds s x hx
    simp only [List.exists_mem_cons_iff]
    cases hs1 : f s x with
    | none =>
      have hnone : (x :: l).foldlM f s = none := by rw [List.foldlM_cons, hs1]; rfl
      refine iff_of_false (not_not.mpr hnone) fun hall => ?_
      exact hfirst.mpr (fun k hk => hall k (.inl hk)) hs1
    | some s1 =>
      have hrest : (x :: l).foldlM f s = l.foldlM f s1 := by rw [List.foldlM_cons, hs1]; rfl
      have hgets := h.gets s s1 x hx hs1
      have hneeds := hfirst.mp (hs1 ▸ Option.some_ne_none s1)
      rw [hrest, ih hl]
      constructor
      · rintro hall k (hk | hk)
        · exact hneeds k hk
        · rcases hall k hk with hhas | hgranted
          · exact ((hgets k).mp hhas).elim .inl (hneeds k)
          · exact .inr hgranted
      · exact fun hall k hk => (hall k (.inr hk)).imp_left fun hhas => (hgets k).mpr (.inl hhas)

end Cs162.Lib
