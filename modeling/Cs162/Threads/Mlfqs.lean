import Mathlib.Algebra.Group.Int.Defs
import Mathlib.Data.Fintype.Basic
import Cs162.Lib.Buckets
import Cs162.Lib.System

namespace Cs162.Threads.Mlfqs
open Lib

def frac : ℤ := 2 ^ 14
def toFp (n : ℤ) : ℤ := n * frac
def toInt (x : ℤ) : ℤ := x.tdiv frac
def fmulF (x y : ℤ) : ℤ := (x * y).tdiv frac
def fdivF (x y : ℤ) : ℤ := (x * frac).tdiv y
def faddI (x n : ℤ) : ℤ := x + n * frac
def fdivI (x n : ℤ) : ℤ := x.tdiv n

inductive Status where
  | running
  | ready
  | blocked
  | dying
  deriving DecidableEq

structure Thread where
  status : Status
  priority : Fin 64
  nice : ℤ
  recentCpu : ℤ
  sleepTicks : ℕ
  waits : Bool
  deriving DecidableEq

structure State where
  allList : List ℕ
  thread : ℕ → Thread
  ready : Buckets ℕ (Fin 64)
  current : ℕ
  idleThread : Option ℕ
  loadAvg : ℤ
  ticks : ℕ
  nextTid : ℕ

def priMax : ℤ := 63
def timeSlice : ℕ := 4
def timerFreq : ℕ := 100

namespace State

def modify (s : State) (t : ℕ) (f : Thread → Thread) : State :=
  { s with thread := Function.update s.thread t (f (s.thread t)) }

def setStatus (s : State) (t : ℕ) (status : Status) : State := s.modify t ({ · with status })

def enqueue (s : State) (t : ℕ) : State :=
  { s with ready := s.ready.push (s.thread t).priority t }

def threadUnblock (s : State) (t : ℕ) : Option State :=
  if (s.thread t).status = .blocked then some ((s.enqueue t).setStatus t .ready) else none

def firstQueue (s : State) : Option (Fin 64) :=
  (List.finRange 64).find? fun i => !(s.ready.queue i.rev).isEmpty

def nextThreadToRun (s : State) : Option ℕ × State :=
  match s.firstQueue with
  | some i => ((s.ready.queue i.rev).head?, { s with ready := s.ready.popFront i.rev })
  | none => (s.idleThread, s)

def schedule (s : State) : Option State :=
  match s.nextThreadToRun with
  | (some t, s) => some { s.setStatus t .running with current := t }
  | (none, _) => none

abbrev Outcome := Bool × State

def switch (s : State) : Outcome := (true, s)
def stay (s : State) : Outcome := (false, s)

def threadYield (s : State) : Outcome :=
  switch ((if some s.current = s.idleThread then s else s.enqueue s.current).setStatus s.current .ready)

def isActive (s : State) (t : ℕ) : Bool :=
  some t ≠ s.idleThread ∧ ((s.thread t).status = .running ∨ (s.thread t).status = .ready)

def threadSetLoadAvg (s : State) : State :=
  { s with loadAvg := fmulF (fdivI (toFp 59) 60) s.loadAvg
      + fdivI (toFp 1) 60 * (s.allList.filter s.isActive).length }

def threadRefreshRecentCpu (s : State) (t : ℕ) : State :=
  s.modify t fun th => { th with
    recentCpu := faddI (fmulF (fdivF (s.loadAvg * 2) (faddI (s.loadAvg * 2) 1)) th.recentCpu) th.nice }

def recap (x : ℤ) : Fin 64 := ⟨(min (max x 0) priMax).toNat, by simp only [priMax]; omega⟩

def newPriority (th : Thread) : Fin 64 :=
  recap (priMax - th.nice * 2 - toInt (th.recentCpu.tdiv 4))

def threadRefreshPriority (s : State) (t : ℕ) : State :=
  let s' := s.modify t fun th => { th with priority := newPriority th }
  if (s.thread t).status = .ready ∧ (s'.thread t).priority ≠ (s.thread t).priority then
    { s' with ready := (s'.ready.remove t).push (s'.thread t).priority t }
  else s'

def forThreads (f : State → ℕ → State) (s : State) : State :=
  s.allList.foldl (fun s t => if some t = s.idleThread then s else f s t) s

def wakeThread (s : State) (t : ℕ) : State :=
  if (s.thread t).status = .blocked ∧ 0 < (s.thread t).sleepTicks then
    let s := s.modify t fun th => { th with sleepTicks := th.sleepTicks - 1 }
    if (s.thread t).sleepTicks = 0 then (s.enqueue t).setStatus t .ready else s
  else s

def threadTick (s : State) : Outcome :=
  let s := { s with ticks := s.ticks + 1 }
  let s := s.allList.foldl wakeThread s
  let s := s.modify s.current fun th => { th with recentCpu := faddI th.recentCpu 1 }
  let s := if s.ticks % timerFreq = 0 then forThreads threadRefreshRecentCpu s.threadSetLoadAvg else s
  let s := if s.ticks % timeSlice = 0 then forThreads threadRefreshPriority s else s
  s.threadYield

def initThread (priority : Fin 64) : Thread := ⟨.blocked, priority, 0, 0, 0, false⟩

def newThread (s : State) (priority : Fin 64) : State :=
  { s with
    allList := s.allList ++ [s.nextTid]
    thread := Function.update s.thread s.nextTid (initThread priority)
    nextTid := s.nextTid + 1 }

def threadCreate (s : State) (priority : Fin 64) : Option Outcome :=
  ((s.newThread priority).threadUnblock s.nextTid).map fun s' =>
    if (s'.thread s'.current).priority < (s'.thread s.nextTid).priority then s'.threadYield else s'.stay

def threadBlock (s : State) : Outcome :=
  switch (s.modify s.current fun th =>
    { th with status := .blocked, waits := some s.current ≠ s.idleThread })

def timerSleep (s : State) (ticks : ℕ) : Outcome :=
  if 0 < ticks then
    switch (s.modify s.current fun th => { th with status := .blocked, sleepTicks := ticks })
  else s.stay

/-- The highest queue that is not empty is looked for as in `next_thread_to_run`, but the number
compared with is the index of the loop. -/
def threadSetNice (s : State) (nice : ℤ) : Option Outcome :=
  if -20 ≤ nice ∧ nice ≤ 20 then
    let s := s.modify s.current ({ · with nice })
    let s := s.threadRefreshRecentCpu s.current
    let s := s.threadRefreshPriority s.current
    some (if (s.thread s.current).priority < s.firstQueue.getD 0 then s.threadYield else s.stay)
  else none

def threadSetPriority (s : State) (priority : Fin 64) : State :=
  s.modify s.current ({ · with priority })

def threadExit (s : State) : Outcome :=
  switch ({ s with allList := s.allList.erase s.current }.setStatus s.current .dying)

def wakeWaiter (s : State) (t : ℕ) : Option State :=
  if (s.thread t).waits then (s.modify t ({ · with waits := false })).threadUnblock t else none

end State

inductive Action where
  | create (priority : Fin 64)
  | block
  | sleep (ticks : ℕ)
  | unblock (t : ℕ)
  | yield
  | setNice (nice : ℤ)
  | setPriority (priority : Fin 64)
  | exit
  | becomeIdle
  | tick
  deriving DecidableEq

namespace State

def ordinary (s : State) : Bool := some s.current ≠ s.idleThread

def operate (s : State) : Action → Option Outcome
  | .create priority => if s.ordinary then s.threadCreate priority else none
  | .block => some s.threadBlock
  | .sleep ticks => if s.ordinary then some (s.timerSleep ticks) else none
  | .unblock t => (s.wakeWaiter t).map stay
  | .yield => some s.threadYield
  | .setNice nice => if s.ordinary then s.threadSetNice nice else none
  | .setPriority priority => if s.ordinary then some (s.threadSetPriority priority).stay else none
  | .exit => if s.ordinary then some s.threadExit else none
  | .becomeIdle =>
    if s.idleThread = none then some (stay { s with idleThread := some s.current }) else none
  | .tick => some s.threadTick

def step (s : State) (a : Action) : Option State :=
  (s.operate a).bind fun r => if r.1 then r.2.schedule else some r.2

def boot : State where
  allList := [1]
  thread t := { initThread 31 with status := if t = 1 then .running else .dying }
  ready := .empty
  current := 1
  idleThread := none
  loadAvg := 0
  ticks := 0
  nextTid := 2

def system : System State Action := .ofStep (· = boot) step

end State

end Cs162.Threads.Mlfqs
