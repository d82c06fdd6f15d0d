import Mathlib.Tactic.Common

namespace Cs162.Lib

structure System (σ ℓ : Type*) where
  init : σ → Prop
  step : σ → ℓ → σ → Prop

namespace System
variable {σ ℓ : Type*}

inductive ReachVia (S : System σ ℓ) (ok : σ → ℓ → Prop) : σ → Prop
  | init {s : σ} : S.init s → ReachVia S ok s
  | step {s s' : σ} {l : ℓ} : ReachVia S ok s → ok s l → S.step s l s' → ReachVia S ok s'

def Reach (S : System σ ℓ) : σ → Prop := S.ReachVia fun _ _ => True

variable {S : System σ ℓ} {ok : σ → ℓ → Prop} {I : σ → Prop}

theorem ReachVia.invariant (hinit : ∀ s, S.init s → I s)
    (hstep : ∀ s l s', I s → ok s l → S.step s l s' → I s') {s : σ}
    (h : S.ReachVia ok s) : I s := by
  induction h with
  | init h => exact hinit _ h
  | step _ hok hs ih => exact hstep _ _ _ ih hok hs

theorem ReachVia.mono {ok' : σ → ℓ → Prop} (hok : ∀ s l, ok s l → ok' s l) {s : σ} (h : S.ReachVia ok s) :
    S.ReachVia ok' s := by
  induction h with
  | init h => exact .init h
  | step _ h hs ih => exact .step ih (hok _ _ h) hs

def ofStep (init : σ → Prop) (step : σ → ℓ → Option σ) : System σ ℓ where
  init := init
  step s l s' := step s l = some s'

def runVia (step : σ → ℓ → Option σ) (ok : σ → ℓ → Prop) [∀ s l, Decidable (ok s l)] (s : σ) :
    List ℓ → Option σ
  | [] => some s
  | l :: ls => if ok s l then (step s l).bind fun s' => runVia step ok s' ls else none

theorem ReachVia.run {init : σ → Prop} {step : σ → ℓ → Option σ} [∀ s l, Decidable (ok s l)] {s s' : σ}
    (h : (ofStep init step).ReachVia ok s) {ls : List ℓ} (hr : runVia step ok s ls = some s') :
    (ofStep init step).ReachVia ok s' := by
  induction ls generalizing s with
  | nil => exact Option.some.inj hr ▸ h
  | cons l ls ih =>
    simp only [runVia] at hr
    split_ifs at hr with hok
    obtain ⟨s₁, hs₁, hrest⟩ := Option.bind_eq_some_iff.mp hr
    exact ih (.step h hok hs₁) hrest

end System
end Cs162.Lib
