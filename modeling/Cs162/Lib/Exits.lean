import Mathlib.Logic.Basic

namespace Cs162.Lib

inductive Outcome (α : Type*) where
  | ret (a : α)
  | exited
  | stopped
  deriving DecidableEq

def Proc (σ : Type) (α : Type) : Type := σ → Outcome α × σ

namespace Proc

variable {σ α β : Type}

instance : Monad (Proc σ) where
  pure a := fun s => (.ret a, s)
  bind c f := fun s =>
    match c s with
    | (.ret a, s') => f a s'
    | (.exited, s') => (.exited, s')
    | (.stopped, s') => (.stopped, s')

def exit : Proc σ α := fun s => (.exited, s)

def stop : Proc σ α := fun s => (.stopped, s)

def get : Proc σ σ := fun s => (.ret s, s)

def modify (f : σ → σ) : Proc σ Unit := fun s => (.ret (), f s)

def Exits (c : Proc σ α) (s : σ) (Q : σ → Prop) : Prop :=
  (c s).1 = .exited ∧ Q (c s).2

instance (c : Proc σ α) (s : σ) (Q : σ → Prop) [DecidableEq α] [DecidablePred Q] :
    Decidable (Exits c s Q) :=
  inferInstanceAs (Decidable (_ ∧ _))

variable {c : Proc σ α} {f : α → Proc σ β} {s s' : σ} {a : α} {Q : σ → Prop}

theorem bind_of_ret (h : c s = (.ret a, s')) : (c >>= f) s = f a s' := by
  change (match c s with
    | (.ret a, s') => f a s'
    | (.exited, s') => (.exited, s')
    | (.stopped, s') => (.stopped, s')) = _
  rw [h]

theorem bind_of_exited (h : (c s).1 = .exited) : (c >>= f) s = (.exited, (c s).2) := by
  change (match c s with
    | (.ret a, s') => f a s'
    | (.exited, s') => (.exited, s')
    | (.stopped, s') => (.stopped, s')) = _
  rcases hc : c s with ⟨o, t⟩
  rw [hc] at h
  cases h
  rfl

theorem bind_of_stopped (h : c s = (.stopped, s')) : (c >>= f) s = (.stopped, s') := by
  change (match c s with
    | (.ret a, s') => f a s'
    | (.exited, s') => (.exited, s')
    | (.stopped, s') => (.stopped, s')) = _
  rw [h]

theorem bind_assoc {γ : Type} (c : Proc σ α) (f : α → Proc σ β) (g : β → Proc σ γ) :
    (c >>= f) >>= g = c >>= fun a => f a >>= g := by
  funext s
  rcases hc : c s with ⟨_ | _ | _, s'⟩
  · rw [bind_of_ret hc]
    change (match (c >>= f) s with
      | (.ret a, s') => g a s'
      | (.exited, s') => (.exited, s')
      | (.stopped, s') => (.stopped, s')) = _
    rw [bind_of_ret hc]
    rfl
  · have he : (c s).1 = .exited := by rw [hc]
    have hf : ((c >>= f) s).1 = .exited := by rw [bind_of_exited he]
    rw [bind_of_exited he, bind_of_exited hf, bind_of_exited he]
  · rw [bind_of_stopped hc]
    exact bind_of_stopped (bind_of_stopped hc)

theorem exits_bind_of_ret (h : c s = (.ret a, s')) :
    Exits (c >>= f) s Q ↔ Exits (f a) s' Q := by
  rw [Exits, bind_of_ret h, Exits]

theorem exits_bind_of_exited (h : (c s).1 = .exited) : Exits (c >>= f) s Q ↔ Q (c s).2 := by
  rw [Exits, bind_of_exited h]
  exact and_iff_right rfl

theorem exits_bind_of_never (h : ∀ a t, ¬ Exits (f a) t Q) :
    Exits (c >>= f) s Q ↔ Exits c s Q := by
  rcases hc : c s with ⟨o, t⟩
  cases o with
  | ret a =>
    rw [exits_bind_of_ret hc]
    refine iff_of_false (h a t) fun hx => ?_
    rw [Exits, hc] at hx
    cases hx.1
  | exited =>
    rw [exits_bind_of_exited (by rw [hc]), Exits, hc]
    exact (and_iff_right rfl).symm
  | stopped =>
    rw [Exits, bind_of_stopped hc, Exits, hc]
    exact and_congr_left fun _ => iff_of_false nofun nofun

@[simp] theorem exits_pure : Exits (pure a) s Q ↔ False :=
  iff_false_intro fun h => nomatch h.1

@[simp] theorem exits_exit : Exits (exit : Proc σ α) s Q ↔ Q s := and_iff_right rfl

@[simp] theorem exits_stop : Exits (stop : Proc σ α) s Q ↔ False :=
  iff_false_intro fun h => nomatch h.1

@[simp] theorem exits_exit_bind : Exits (exit >>= f) s Q ↔ Q s := and_iff_right rfl

def Stops (c : Proc σ α) (s : σ) : Prop := (c s).1 = .stopped

instance (c : Proc σ α) (s : σ) [DecidableEq α] : Decidable (Stops c s) := inferInstanceAs (Decidable (_ = _))

theorem stops_bind_of_ret (h : c s = (.ret a, s')) : Stops (c >>= f) s ↔ Stops (f a) s' := by
  rw [Stops, bind_of_ret h, Stops]

theorem not_stops_bind_of_exited (h : (c s).1 = .exited) : ¬ Stops (c >>= f) s := by
  rw [Stops, bind_of_exited h]
  nofun

@[simp] theorem stops_pure : Stops (pure a) s ↔ False := iff_false_intro nofun

@[simp] theorem stops_pure_bind : Stops (pure a >>= f) s ↔ Stops (f a) s := Iff.rfl

@[simp] theorem stops_exit_bind : Stops (exit >>= f) s ↔ False := iff_false_intro nofun

@[simp] theorem stops_stop_bind : Stops (stop >>= f) s ↔ True := iff_true_intro rfl

theorem stops_ite {p : Prop} [Decidable p] {c d : Proc σ α} :
    Stops (if p then c else d) s ↔ if p then Stops c s else Stops d s := by
  split <;> rfl

end Proc

end Cs162.Lib
