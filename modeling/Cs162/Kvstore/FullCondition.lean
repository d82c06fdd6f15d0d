import Cs162.Kvstore.Registration

namespace Cs162.Kvstore.FullCondition
open Cs162.Lib Registration Option

variable {T : Type}

inductive Method
  | handleGet
  | handleTPCRequest
  deriving DecidableEq

inductive Pos
  | outside
  | waiting
  | woken
  | past
  deriving DecidableEq

structure State (T : Type) where
  slaves : SlaveTable
  pos : T → Pos
  monitor : Option T
  signalled : Bool

inductive Event (T : Type)
  | register (slave : TPCSlaveInfo)
  | call (method : Method) (t : T)
  | wake (t : T)
  | recheck (t : T)
  | interrupt (t : T)
  | finish (t : T)

namespace State
variable (numSlaves : ℤ) (s : State T)

def init : State T := ⟨.empty, fun _ => .outside, none, false⟩

def signalAll : State T :=
  { s with pos := fun t => if s.pos t = .waiting then .woken else s.pos t, signalled := true }

def Completes (slave : TPCSlaveInfo) : Prop :=
  ¬ s.slaves.containsKey slave.slaveID ∧ (s.slaves.size : ℤ) + 1 = numSlaves

instance (slave : TPCSlaveInfo) : Decidable (s.Completes numSlaves slave) := inferInstanceAs (Decidable (_ ∧ _))

/-- `registerSlave`. Only the branch that drops the slave signals. -/
def register (slave : TPCSlaveInfo) : State T :=
  if s.slaves.containsKey slave.slaveID ∨ (s.slaves.size : ℤ) < numSlaves then
    { s with
      slaves := registerSlave numSlaves s.slaves slave
      signalled := s.signalled && !decide (s.Completes numSlaves slave) }
  else s.signalAll

def Forgotten : Prop :=
  numSlaves ≤ s.slaves.size ∧ (∃ t, s.pos t = .waiting) ∧ s.signalled = false

def Timely : Event T → Prop
  | .register slave => s.Completes numSlaves slave → ∀ t, s.pos t ≠ .waiting
  | _ => True

end State

namespace State
variable [DecidableEq T] (numSlaves : ℤ) (s : State T)

def look (t : T) : State T :=
  { s with pos := Function.update s.pos t (if (s.slaves.size : ℤ) < numSlaves then .waiting else .past) }

def step : Event T → Option (State T)
  | .register slave => some (s.register numSlaves slave)
  | .call method t =>
    if s.pos t = .outside ∧ (method = .handleTPCRequest → s.monitor = none) then
      let entered := if method = .handleTPCRequest then { s with monitor := some t } else s
      some (entered.look numSlaves t)
    else none
  | .wake t => if s.pos t = .waiting then some { s with pos := Function.update s.pos t .woken } else none
  | .recheck t => if s.pos t = .woken then some (s.look numSlaves t) else none
  | .interrupt t =>
    if s.pos t = .waiting ∨ s.pos t = .woken then some { s with pos := Function.update s.pos t .past } else none
  | .finish t =>
    if s.pos t = .past then
      some { s with
        pos := Function.update s.pos t .outside
        monitor := if s.monitor = some t then none else s.monitor }
    else none

end State

def system [DecidableEq T] (numSlaves : ℤ) : System (State T) (Event T) :=
  .ofStep (· = .init) (State.step numSlaves)

variable {numSlaves : ℤ} {s s' : State T} {t : T} {e : Event T}

namespace State

def Inv (numSlaves : ℤ) (s : State T) : Prop := numSlaves ≤ s.slaves.size → ∀ t, s.pos t ≠ .waiting

theorem inv_init (numSlaves : ℤ) : (init : State T).Inv numSlaves := fun _ _ => nofun

theorem completes_of_registerSlave {slave : TPCSlaveInfo} (hfew : (s.slaves.size : ℤ) < numSlaves)
    (hfull : numSlaves ≤ (registerSlave numSlaves s.slaves slave).size) : s.Completes numSlaves slave := by
  unfold registerSlave at hfull
  split at hfull
  · rename_i hold
    have hsize := SlaveTable.size_put_remove_le hold
    omega
  · rename_i hnew
    have hsize := SlaveTable.size_put hnew
    rw [hsize] at hfull
    exact ⟨hnew, by omega⟩

theorem Inv.register (h : s.Inv numSlaves) {slave : TPCSlaveInfo}
    (htimely : s.Completes numSlaves slave → ∀ t, s.pos t ≠ .waiting) :
    (s.register numSlaves slave).Inv numSlaves := by
  unfold State.register
  split
  · intro hfull t
    by_cases hfew : (s.slaves.size : ℤ) < numSlaves
    · exact htimely (completes_of_registerSlave hfew hfull) t
    · exact h (not_lt.mp hfew) t
  · intro _ t
    change (if s.pos t = .waiting then Pos.woken else s.pos t) ≠ .waiting
    split
    · exact nofun
    · assumption

variable [DecidableEq T]

theorem Inv.update (h : s.Inv numSlaves) (t : T) (p : Pos) (hp : numSlaves ≤ s.slaves.size → p ≠ .waiting)
    (monitor : Option T) : Inv numSlaves { s with pos := Function.update s.pos t p, monitor := monitor } := by
  intro hfull u
  by_cases hu : u = t
  · rw [hu]
    exact (Function.update_self t p s.pos).trans_ne (hp hfull)
  · exact (Function.update_of_ne hu p s.pos).trans_ne (h hfull u)

theorem Inv.look (h : s.Inv numSlaves) (t : T) : (s.look numSlaves t).Inv numSlaves := by
  refine h.update t _ (fun hfull => ?_) s.monitor
  rw [if_neg (not_lt.mpr hfull)]
  exact nofun

theorem Inv.step (h : s.Inv numSlaves) (htimely : s.Timely numSlaves e) (hs : s.step numSlaves e = some s') :
    s'.Inv numSlaves := by
  match e with
  | .register slave =>
    cases hs
    exact h.register htimely
  | .call method t =>
    obtain ⟨-, ⟨⟩⟩ := ite_none_right_eq_some.mp hs
    refine Inv.look ?_ t
    split <;> exact h
  | .wake t =>
    obtain ⟨-, ⟨⟩⟩ := ite_none_right_eq_some.mp hs
    exact h.update t .woken (fun _ => nofun) s.monitor
  | .recheck t =>
    obtain ⟨-, ⟨⟩⟩ := ite_none_right_eq_some.mp hs
    exact h.look t
  | .interrupt t =>
    obtain ⟨-, ⟨⟩⟩ := ite_none_right_eq_some.mp hs
    exact h.update t .past (fun _ => nofun) s.monitor
  | .finish t =>
    obtain ⟨-, ⟨⟩⟩ := ite_none_right_eq_some.mp hs
    exact h.update t .outside (fun _ => nofun) _

theorem forgotten_of_not_timely (h : ¬ s.Timely numSlaves e) (hs : s.step numSlaves e = some s') :
    s'.Forgotten numSlaves := by
  match e with
  | .register slave =>
    cases hs
    simp only [Timely, not_forall, not_not] at h
    obtain ⟨hcompletes, t, ht⟩ := h
    have hfew : (s.slaves.size : ℤ) < numSlaves := by
      have hsize := hcompletes.2
      omega
    rw [State.register, if_pos (.inr hfew)]
    refine ⟨?_, ⟨t, ht⟩, by simp [hcompletes]⟩
    have hput : registerSlave numSlaves s.slaves slave = s.slaves.put slave := by
      rw [registerSlave, if_neg hcompletes.1, if_pos hfew]
    have hsize := SlaveTable.size_put hcompletes.1
    rw [hput, hsize, ← hcompletes.2]
    push_cast
    exact le_rfl
  | .call .. | .wake _ | .recheck _ | .interrupt _ | .finish _ => exact absurd trivial h

end State

theorem not_forgotten_of_timely [DecidableEq T] (numSlaves : ℤ) :
    (∀ s : State T, (system numSlaves).ReachVia (State.Timely numSlaves) s → ¬ s.Forgotten numSlaves) ∧
      ∀ (s s' : State T) (e : Event T), (system numSlaves).Reach s → s.step numSlaves e = some s' →
        ¬ s.Timely numSlaves e → s'.Forgotten numSlaves := by
  refine ⟨fun s h => ?_, fun s s' e _ hs htimely => State.forgotten_of_not_timely htimely hs⟩
  have hinv : s.Inv numSlaves := by
    refine h.invariant (fun s hs => ?_) fun s e s' hinv htimely hs => hinv.step htimely hs
    cases hs
    exact State.inv_init numSlaves
  rintro ⟨hfull, ⟨t, ht⟩, -⟩
  exact hinv hfull t ht

instance [Fintype T] (s : State T) (e : Event T) : Decidable (s.Timely numSlaves e) :=
  match e with
  | .register slave => inferInstanceAs (Decidable (s.Completes numSlaves slave → ∀ t, s.pos t ≠ .waiting))
  | .call .. | .wake _ | .recheck _ | .interrupt _ | .finish _ => .isTrue trivial

def patient : List (Event (Fin 1)) :=
  [.register slaveA, .call .handleGet 0, .interrupt 0, .register slaveB, .finish 0, .call .handleTPCRequest 0]

theorem not_forgotten_patient : ∃ s : State (Fin 1),
    System.runVia (State.step 2) (State.Timely 2) .init patient = some s ∧ s.slaves.size = 2 ∧
      s.pos 0 = .past ∧ ¬ s.Forgotten 2 := by
  obtain ⟨s, hs⟩ := isSome_iff_exists.mp
    (show (System.runVia (State.step 2) (State.Timely 2) .init patient).isSome by decide +kernel)
  have hend : (System.runVia (State.step 2) (State.Timely 2) .init patient).map
      (fun s => (s.slaves.size, s.pos 0)) = some (2, .past) := by decide +kernel
  rw [hs, map_some, some.injEq, Prod.mk.injEq] at hend
  have hreach : (system 2).ReachVia (State.Timely 2) s := System.ReachVia.run (.init rfl) hs
  exact ⟨s, hs, hend.1, hend.2, (not_forgotten_of_timely 2).1 s hreach⟩

def early : List (Event (Fin 1)) := [.call .handleGet 0, .register slaveA]

theorem forgotten_early : ∃ s : State (Fin 1), (system 1).Reach s ∧ s.Forgotten 1 := by
  obtain ⟨s, hs⟩ := isSome_iff_exists.mp
    (show (System.runVia (State.step 1) (fun _ _ => True) .init early).isSome by decide +kernel)
  have hend : (System.runVia (State.step 1) (fun _ _ => True) .init early).map
      (fun s => (s.slaves.size, s.pos 0, s.signalled)) = some (1, .waiting, false) := by decide +kernel
  rw [hs, map_some, some.injEq, Prod.mk.injEq, Prod.mk.injEq] at hend
  refine ⟨s, System.ReachVia.run (.init rfl) hs, ?_, ⟨0, hend.2.1⟩, hend.2.2⟩
  rw [hend.1]
  exact le_rfl

end Cs162.Kvstore.FullCondition
