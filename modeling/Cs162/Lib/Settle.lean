import Mathlib.Tactic.Common

namespace Cs162.Lib

section Settle
variable {σ ε : Type*} (mend : ε → σ → Option (Option σ))

def settlePass (again : σ → Option σ) : List ε → σ → Option σ
  | [], s => some s
  | e :: l, s => (mend e s).bind fun r =>
    match r with
    | none => settlePass again l s
    | some s' => (again s').bind (settlePass again l)

def settle (l : List ε) : ℕ → σ → Option σ
  | 0 => settlePass mend (fun _ => none) l
  | n + 1 => settlePass mend (settle l n) l

variable {mend} {l : List ε} {s s' : σ} {I : σ → Prop}

theorem settlePass_invariant {again : σ → Option σ} (hagain : ∀ s s', I s → again s = some s' → I s')
    (hmend : ∀ e ∈ l, ∀ s s', I s → mend e s = some (some s') → I s') (hs : I s)
    (h : settlePass mend again l s = some s') : I s' := by
  induction l generalizing s with
  | nil => exact Option.some.inj h ▸ hs
  | cons e l ih =>
    have hl : ∀ e ∈ l, ∀ s s', I s → mend e s = some (some s') → I s' := fun e he =>
      hmend e (List.mem_cons_of_mem _ he)
    obtain ⟨r, hr, h⟩ := Option.bind_eq_some_iff.mp h
    cases r with
    | none => exact ih hl hs h
    | some s₁ =>
      obtain ⟨s₂, hs₂, h⟩ := Option.bind_eq_some_iff.mp h
      exact ih hl (hagain s₁ s₂ (hmend e (List.mem_cons_self ..) s s₁ hs hr) hs₂) h

theorem settle_invariant (hmend : ∀ e ∈ l, ∀ s s', I s → mend e s = some (some s') → I s') {n : ℕ} (hs : I s)
    (h : settle mend l n s = some s') : I s' := by
  induction n generalizing s s' with
  | zero => exact settlePass_invariant (fun _ _ _ h => by cases h) hmend hs h
  | succ n ih => exact settlePass_invariant (fun s s' hs h => ih hs h) hmend hs h

theorem settlePass_settled {again : σ → Option σ} {all : List ε}
    (hagain : ∀ s s', again s = some s' → ∀ e ∈ all, mend e s' = some none) {pre : List ε} (hall : all = pre ++ l)
    (hs : ∀ e ∈ pre, mend e s = some none) (h : settlePass mend again l s = some s') :
    ∀ e ∈ all, mend e s' = some none := by
  induction l generalizing s pre with
  | nil =>
    rw [List.append_nil] at hall
    exact Option.some.inj h ▸ hall ▸ hs
  | cons e l ih =>
    have hall' : all = (pre ++ [e]) ++ l := by rw [hall, List.append_assoc, List.singleton_append]
    obtain ⟨r, hr, h⟩ := Option.bind_eq_some_iff.mp h
    cases r with
    | none =>
      refine ih hall' (fun e' he' => ?_) h
      rcases List.mem_append.mp he' with he' | he'
      · exact hs e' he'
      · rwa [List.mem_singleton.mp he']
    | some s₁ =>
      obtain ⟨s₂, hs₂, h⟩ := Option.bind_eq_some_iff.mp h
      refine ih hall' (fun e' he' => hagain s₁ s₂ hs₂ e' ?_) h
      rw [hall']
      exact List.mem_append_left _ he'

theorem settle_settled {n : ℕ} (h : settle mend l n s = some s') : ∀ e ∈ l, mend e s' = some none := by
  induction n generalizing s s' with
  | zero => exact settlePass_settled (fun _ _ h => by cases h) (List.nil_append l).symm (fun _ h => by cases h) h
  | succ n ih => exact settlePass_settled (fun s s' h => ih h) (List.nil_append l).symm (fun _ h => by cases h) h

theorem settlePass_isSome {again : σ → Option σ} {μ : σ → ℕ} {n : ℕ}
    (hagain : ∀ s, I s → μ s < n → ∃ s', again s = some s' ∧ I s' ∧ μ s' < n)
    (hmend : ∀ e ∈ l, ∀ s, I s → mend e s = some none ∨ ∃ s', mend e s = some (some s') ∧ I s' ∧ μ s' < μ s)
    (hs : I s) (hn : μ s ≤ n) : ∃ s', settlePass mend again l s = some s' ∧ I s' ∧ μ s' ≤ n := by
  induction l generalizing s with
  | nil => exact ⟨s, rfl, hs, hn⟩
  | cons e l ih =>
    have hl : ∀ e ∈ l, ∀ s, I s → mend e s = some none ∨ ∃ s', mend e s = some (some s') ∧ I s' ∧ μ s' < μ s :=
      fun e he => hmend e (List.mem_cons_of_mem _ he)
    rcases hmend e (List.mem_cons_self ..) s hs with hr | ⟨s₁, hr, hs₁, hlt⟩
    · simpa only [settlePass, hr, Option.bind_some] using ih hl hs hn
    · obtain ⟨s₂, hs₂, hI₂, hlt₂⟩ := hagain s₁ hs₁ (by omega)
      simpa only [settlePass, hr, Option.bind_some, hs₂] using ih hl hI₂ (Nat.le_of_lt hlt₂)

theorem settle_isSome {μ : σ → ℕ} {n : ℕ}
    (hmend : ∀ e ∈ l, ∀ s, I s → mend e s = some none ∨ ∃ s', mend e s = some (some s') ∧ I s' ∧ μ s' < μ s)
    (hs : I s) (hn : μ s ≤ n) : ∃ s', settle mend l n s = some s' ∧ I s' ∧ μ s' ≤ n := by
  induction n generalizing s with
  | zero => exact settlePass_isSome (fun s _ hlt => absurd hlt (Nat.not_lt_zero _)) hmend hs hn
  | succ n ih =>
    refine settlePass_isSome (fun s hs hlt => ?_) hmend hs hn
    obtain ⟨s', hs', hI, hle⟩ := ih hs (Nat.lt_succ_iff.mp hlt)
    exact ⟨s', hs', hI, Nat.lt_succ_of_le hle⟩

end Settle
end Cs162.Lib
