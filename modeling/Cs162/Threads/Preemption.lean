import Cs162.Threads.PriorityExact

namespace Cs162.Threads
open Lib

structure Machine where
  sched : Scheduler
  allList : List ℕ
  nextTid : ℕ
  semaValue : ℕ → ℕ
  semaWaiters : ℕ → List ℕ
  downing : ℕ → Option ℕ
  sleepTicks : ℕ → ℕ

namespace Machine

inductive Event where
  | call (a : Action)
  | create (priority : ℤ)
  | semaDown (sema : ℕ)
  | again
  | semaUp (sema : ℕ) (inIntr : Bool)
  | sleep (ticks : ℕ)
  | exit
  | tick (sliceOver : Bool)
  deriving DecidableEq

def caller (m : Machine) : Option ℕ := m.sched.caller.filter fun t => m.downing t = none

def threadUnblock (s : Scheduler) (t : ℕ) : Scheduler :=
  { s.setPoint t .running with readyList := s.readyList ++ [t] }

def runningPriority (s : Scheduler) : ℤ := (s.current.map s.priority).getD 0

def yieldCpu (s : Scheduler) : Scheduler :=
  match s.current with
  | some t => s.threadYield t
  | none => s.schedule

def threadCreate (m : Machine) (priority : ℤ) : Machine :=
  let t := m.nextTid
  let s := threadUnblock { m.sched with
    priority := Function.update m.sched.priority t priority
    priorityOld := Function.update m.sched.priorityOld t priority
    allLocks := Function.update m.sched.allLocks t [] } t
  { m with
    sched := if runningPriority s < s.priority t then yieldCpu s else s
    allList := m.allList ++ [t]
    nextTid := t + 1 }

def semaDown (m : Machine) (t sema : ℕ) : Machine :=
  if m.semaValue sema = 0 then
    { m with
      sched := (m.sched.setPoint t .blocked).schedule
      semaWaiters := Function.update m.semaWaiters sema (m.semaWaiters sema ++ [t])
      downing := Function.update m.downing t (some sema) }
  else
    { m with
      semaValue := Function.update m.semaValue sema (m.semaValue sema - 1)
      downing := Function.update m.downing t none }

def semaUp (m : Machine) (sema : ℕ) (inIntr : Bool) : Machine :=
  let m' := { m with semaValue := Function.update m.semaValue sema (m.semaValue sema + 1) }
  match listMax m.sched.priority (m.semaWaiters sema) with
  | some w =>
    let s := threadUnblock m.sched w
    { m' with
      sched := if !inIntr && runningPriority s < s.priority w then yieldCpu s else s
      semaWaiters := Function.update m.semaWaiters sema ((m.semaWaiters sema).erase w) }
  | none =>
    { m' with sched := if !inIntr && runningPriority m.sched < 0 then yieldCpu m.sched else m.sched }

def timerSleep (m : Machine) (t ticks : ℕ) : Machine :=
  if 0 < ticks then
    { m with
      sched := (m.sched.setPoint t .blocked).schedule
      sleepTicks := Function.update m.sleepTicks t ticks }
  else m

def threadExit (m : Machine) (t : ℕ) : Machine :=
  { m with
    sched := (m.sched.setPoint t .blocked).schedule
    allList := m.allList.erase t }

def wakes (m : Machine) (t : ℕ) : Bool := m.sched.point t = .blocked ∧ m.sleepTicks t = 1

def wakeThreads (m : Machine) : Machine :=
  { m with
    sched := { m.sched with
      point := fun t => if t ∈ m.allList ∧ m.wakes t then .running else m.sched.point t
      readyList := m.sched.readyList ++ m.allList.filter m.wakes }
    sleepTicks := fun t => if m.sched.point t = .blocked then m.sleepTicks t - 1 else m.sleepTicks t }

def tick (m : Machine) (sliceOver : Bool) : Machine :=
  let m := m.wakeThreads
  if sliceOver then { m with sched := yieldCpu m.sched } else m

def step (m : Machine) : Event → Option Machine
  | .call a =>
    match a with
    | .block | .unblock _ => none
    | .resume => (m.sched.step a).map fun s => { m with sched := s }
    | a =>
      if m.caller.isSome ∨ m.sched.current = none then
        (m.sched.step a).map fun s => { m with sched := s }
      else none
  | .create priority =>
    if m.caller.isSome ∧ 0 ≤ priority ∧ priority ≤ 63 then some (m.threadCreate priority) else none
  | .semaDown sema => m.caller.map fun t => m.semaDown t sema
  | .again => m.sched.current.bind fun t => (m.downing t).map fun sema => m.semaDown t sema
  | .semaUp sema inIntr => if inIntr ∨ m.caller.isSome then some (m.semaUp sema inIntr) else none
  | .sleep ticks => m.caller.map fun t => m.timerSleep t ticks
  | .exit => m.caller.map m.threadExit
  | .tick sliceOver => some (m.tick sliceOver)

def boot (semaValue : ℕ → ℕ) : Machine where
  sched := Scheduler.start (fun _ => 31) []
  allList := [0]
  nextTid := 1
  semaValue
  semaWaiters _ := []
  downing _ := none
  sleepTicks _ := 0

def system : System Machine Event := .ofStep (fun m => ∃ semaValue, m = boot semaValue) step

def Strict (s : Scheduler) : Prop := ∀ t ∈ s.readyList, s.priority t ≤ runningPriority s

def Backed (s : Scheduler) (t : ℕ) : Prop :=
  s.priority t ≤ s.priorityOld t ∨
    ∃ lock ∈ s.allLocks t, ∃ v ∈ s.waiters lock, v ≠ t ∧ s.priority t ≤ s.priority v

def Prompt (m : Machine) : Event → Prop
  | .call (.release _) => ∀ t ∈ m.caller, Backed m.sched t
  | .semaUp sema true => ∀ t ∈ m.semaWaiters sema, m.sched.priority t ≤ runningPriority m.sched
  | .tick false => ∀ t ∈ m.allList, m.wakes t → m.sched.priority t ≤ runningPriority m.sched
  | _ => True

instance (s : Scheduler) (t : ℕ) : Decidable (Backed s t) :=
  inferInstanceAs (Decidable (_ ∨ ∃ lock ∈ s.allLocks t, ∃ v ∈ s.waiters lock, _))

instance (m : Machine) : ∀ e, Decidable (m.Prompt e)
  | .call (.release _) => inferInstanceAs (Decidable (∀ t ∈ m.caller, Backed m.sched t))
  | .semaUp _ true => inferInstanceAs (Decidable (∀ _ ∈ _, _))
  | .tick false => inferInstanceAs (Decidable (∀ t ∈ m.allList, m.wakes t → _))
  | .call (.acquire _) | .call (.tryAcquire _) | .call (.setPriority _) | .call .yield
  | .call .block | .call (.unblock _) | .call .resume | .create _ | .semaDown _ | .again
  | .semaUp _ false | .sleep _ | .exit | .tick true => .isTrue trivial

end Machine

end Cs162.Threads
