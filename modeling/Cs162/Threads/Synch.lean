import Mathlib.Algebra.GroupWithZero.Nat
import Cs162.Lib.Settle

namespace Cs162.Threads
open Lib Function

def listMax {α : Type} (key : α → ℤ) : List α → Option α
  | [] => none
  | a :: l => some (l.foldl (fun m e => if key m < key e then e else m) a)

inductive Point where
  | running
  | acquiring (lock : ℕ)
  | releasing (lock : ℕ)
  | blocked
  deriving DecidableEq

structure Scheduler where
  priority : ℕ → ℤ
  priorityOld : ℕ → ℤ
  allLocks : ℕ → List ℕ
  point : ℕ → Point
  current : Option ℕ
  readyList : List ℕ
  holder : ℕ → Option ℕ
  value : ℕ → ℕ
  waiters : ℕ → List ℕ
  lockList : List ℕ

namespace Scheduler

def schedule (s : Scheduler) : Scheduler :=
  match listMax s.priority s.readyList with
  | some t => { s with current := some t, readyList := s.readyList.erase t }
  | none => { s with current := none }

def threadYield (s : Scheduler) (t : ℕ) : Scheduler := schedule { s with readyList := s.readyList ++ [t] }

def setPoint (s : Scheduler) (t : ℕ) (point : Point) : Scheduler := { s with point := update s.point t point }

def raise (s : Scheduler) (t : ℕ) (p : ℤ) : Scheduler := { s with priority := update s.priority t p }

/-- The largest priority of a waiter. Without waiters `list_max` gives the tail of the list, and
what stands where a thread would have its priority is the value of the semaphore. -/
def maxWaiter (s : Scheduler) (lock : ℕ) : ℤ :=
  match listMax s.priority (s.waiters lock) with
  | some t => s.priority t
  | none => s.value lock

def donate (lock : ℕ) (s : Scheduler) : Option (Option Scheduler) :=
  (s.holder lock).map fun h =>
    if s.priority h < s.maxWaiter lock then some (s.raise h (s.maxWaiter lock)) else none

def topDonation (s : Scheduler) : ℤ := (s.lockList.map s.maxWaiter).foldr max 0

def room (top : ℤ) (s : Scheduler) : ℕ :=
  (s.lockList.map fun lock => ((s.holder lock).map fun h => (top - s.priority h).toNat).getD 0).sum

def resetDonatePriority (s : Scheduler) : Option Scheduler := settle donate s.lockList (room s.topDonation s) s

def isInitial (s : Scheduler) (lock : ℕ) : Bool :=
  (s.holder lock).isNone && (s.waiters lock).isEmpty && s.value lock == 1

def appendLockList (s : Scheduler) (lock : ℕ) : Option Scheduler :=
  if lock ∈ s.lockList then none else some { s with lockList := s.lockList ++ [lock] }

def removeLockList (s : Scheduler) (lock : ℕ) : Option Scheduler :=
  if lock ∈ s.lockList then some { s with lockList := s.lockList.erase lock } else none

def semaDown (s : Scheduler) (t lock : ℕ) : Scheduler :=
  if s.value lock = 0 then
    schedule { s.setPoint t (.acquiring lock) with
      waiters := update s.waiters lock (s.waiters lock ++ [t]) }
  else
    { s.setPoint t .running with
      value := update s.value lock (s.value lock - 1)
      allLocks := update s.allLocks t (s.allLocks t ++ [lock])
      holder := update s.holder lock (some t) }

def donateTo (s : Scheduler) (t lock : ℕ) : Option Scheduler :=
  match s.holder lock with
  | some h => resetDonatePriority (if s.priority h < s.priority t then s.raise h (s.priority t) else s)
  | none => some s

def lockAcquire (s : Scheduler) (t lock : ℕ) : Option Scheduler :=
  if s.holder lock = some t then none
  else
    (if s.isInitial lock then s.appendLockList lock else some s).bind fun s =>
      (s.donateTo t lock).map (·.semaDown t lock)

def lockTryAcquire (s : Scheduler) (t lock : ℕ) : Option Scheduler :=
  if s.holder lock = some t then none
  else if s.value lock = 0 then some s
  else some { s with
    value := update s.value lock (s.value lock - 1)
    holder := update s.holder lock (some t) }

def maxDonatePriority (s : Scheduler) (t : ℕ) : ℤ :=
  (s.allLocks t).foldl (fun m lock => if m < s.maxWaiter lock then s.maxWaiter lock else m) 0

def dropLock (s : Scheduler) (t lock : ℕ) : Scheduler :=
  let s := { s with allLocks := update s.allLocks t ((s.allLocks t).erase lock) }
  let donated := s.maxDonatePriority t
  { s.raise t (if s.priorityOld t < donated then donated else s.priorityOld t) with
    holder := update s.holder lock none }

def wakeWaiter (s : Scheduler) (lock : ℕ) : ℤ × Scheduler :=
  let s' := { s with value := update s.value lock (s.value lock + 1) }
  match listMax s.priority (s.waiters lock) with
  | some w => (s.priority w, { s' with
      waiters := update s.waiters lock ((s.waiters lock).erase w)
      readyList := s.readyList ++ [w] })
  | none => (0, s')

def finishRelease (s : Scheduler) (lock : ℕ) : Option Scheduler :=
  if s.isInitial lock then s.removeLockList lock else some s

def lockRelease (s : Scheduler) (t lock : ℕ) : Option Scheduler :=
  if s.holder lock = some t then
    match (s.dropLock t lock).wakeWaiter lock with
    | (maxPriority, s) =>
      if s.priority t < maxPriority then some ((s.setPoint t (.releasing lock)).threadYield t) else s.finishRelease lock
  else none

def threadSetPriority (s : Scheduler) (t : ℕ) (p : ℤ) : Option Scheduler :=
  (resetDonatePriority { s.raise t p with priorityOld := update s.priorityOld t p }).map fun s =>
    match listMax s.priority s.readyList with
    | some m => if s.priority t < s.priority m then s.threadYield t else s
    | none => s

end Scheduler

inductive Action where
  | acquire (lock : ℕ)
  | tryAcquire (lock : ℕ)
  | release (lock : ℕ)
  | setPriority (p : ℤ)
  | yield
  | block
  | unblock (t : ℕ)
  | resume
  deriving DecidableEq

namespace Scheduler

def caller (s : Scheduler) : Option ℕ := s.current.filter fun t => s.point t = .running

def resume (s : Scheduler) (t : ℕ) : Option Scheduler :=
  match s.point t with
  | .acquiring lock => some (s.semaDown t lock)
  | .releasing lock => (s.setPoint t .running).finishRelease lock
  | _ => none

def step (s : Scheduler) : Action → Option Scheduler
  | .acquire lock => s.caller.bind fun t => s.lockAcquire t lock
  | .tryAcquire lock => s.caller.bind fun t => s.lockTryAcquire t lock
  | .release lock => s.caller.bind fun t => s.lockRelease t lock
  | .setPriority p => s.caller.bind fun t => s.threadSetPriority t p
  | .yield => if s.current = none then some s.schedule else s.caller.map s.threadYield
  | .block => s.caller.map fun t => (s.setPoint t .blocked).schedule
  | .unblock t => if s.point t = .blocked then some { s.setPoint t .running with readyList := s.readyList ++ [t] } else none
  | .resume => s.current.bind s.resume

end Scheduler
end Cs162.Threads
