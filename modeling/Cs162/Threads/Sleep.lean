import Cs162.Threads.Mlfqs

namespace Cs162.Threads.Sleep
open Lib
open Mlfqs (Status)

inductive Point where
  | running
  | sleeping (ticks : ℤ)
  | asleep
  | downing (sema : ℕ)
  | queued (waiter : ℕ)
  | creating (t : ℕ)
  | newborn (creator : ℕ)
  | idling
  deriving DecidableEq

structure Thread where
  status : Status
  sleepTicks : ℤ
  point : Point
  deriving DecidableEq

structure Sema where
  value : ℕ
  waiters : List ℕ

structure State where
  allList : List ℕ
  readyList : List ℕ
  thread : ℕ → Thread
  sema : ℕ → Sema
  waiter : ℕ → Option ℕ
  current : ℕ
  idleThread : Option ℕ
  nextTid : ℕ
  panic : Bool

namespace State

def put (s : State) (t : ℕ) (th : Thread) : State := { s with thread := Function.update s.thread t th }

def goto (s : State) (t : ℕ) (point : Point) : State := s.put t { s.thread t with point }

def setSema (s : State) (q : ℕ) (sema : Sema) : State := { s with sema := Function.update s.sema q sema }

def threadUnblock (s : State) (t : ℕ) : State :=
  if (s.thread t).status = .blocked then
    { s.put t { s.thread t with status := .ready } with readyList := s.readyList ++ [t] }
  else { s with panic := true }

def run (s : State) (t : ℕ) : State := { s.put t { s.thread t with status := .running } with current := t }

def schedule (s : State) (next : ℕ) : Option State :=
  if s.readyList = [] then
    if s.idleThread = some next then some (s.run next) else none
  else if next ∈ s.readyList then some ({ s with readyList := s.readyList.erase next }.run next)
  else none

def threadBlock (s : State) (point : Point) (next : ℕ) : Option State :=
  (s.put s.current { s.thread s.current with status := .blocked, point }).schedule next

def threadYield (s : State) (next : ℕ) : Option State :=
  let s := if s.idleThread = some s.current then s else { s with readyList := s.readyList ++ [s.current] }
  (s.put s.current { s.thread s.current with status := .ready }).schedule next

def threadExit (s : State) (next : ℕ) : Option State :=
  ({ s with allList := s.allList.erase s.current }.put s.current
    { s.thread s.current with status := .dying }).schedule next

def timerSleep (s : State) (ticks : ℤ) : State :=
  if 0 < ticks then
    s.put s.current { s.thread s.current with sleepTicks := ticks, point := .sleeping ticks }
  else s

def wakeThreads (s : State) (t : ℕ) : State :=
  if (s.thread t).status = .blocked then
    if 0 < (s.thread t).sleepTicks then
      let s := s.put t { s.thread t with sleepTicks := (s.thread t).sleepTicks - 1 }
      if (s.thread t).sleepTicks = 0 then s.threadUnblock t else s
    else s
  else s

def timerInterrupt (s : State) : State := s.allList.foldl wakeThreads s

def semaDown (s : State) (q next : ℕ) : Option State :=
  if (s.sema q).value = 0 then
    (s.setSema q { s.sema q with waiters := (s.sema q).waiters ++ [s.current] }).threadBlock (.downing q) next
  else some ((s.setSema q { s.sema q with value := (s.sema q).value - 1 }).goto s.current .running)

def semaTryDown (s : State) (q : ℕ) : State :=
  if 0 < (s.sema q).value then s.setSema q { s.sema q with value := (s.sema q).value - 1 } else s

def increment (s : State) (q : ℕ) : State := s.setSema q { s.sema q with value := (s.sema q).value + 1 }

def semaUp (s : State) (q t : ℕ) : Option State :=
  if (s.sema q).waiters = [] then some (s.increment q)
  else if t ∈ (s.sema q).waiters then
    some (((s.setSema q { s.sema q with waiters := (s.sema q).waiters.erase t }).threadUnblock t).increment q)
  else none

def wait (s : State) (w next : ℕ) : Option State :=
  { s with waiter := Function.update s.waiter w (some s.current) }.threadBlock (.queued w) next

def signal (s : State) (w : ℕ) : State :=
  match s.waiter w with
  | some t => { s.threadUnblock t with waiter := Function.update s.waiter w none }
  | none => s

def initThread (s : State) : State :=
  { (s.put s.nextTid ⟨.blocked, 0, .newborn s.current⟩).goto s.current (.creating s.nextTid) with
    allList := s.allList ++ [s.nextTid]
    nextTid := s.nextTid + 1 }

def startThread (s : State) (t : ℕ) : State := ((s.goto s.current .running).goto t .running).threadUnblock t

def proceed (s : State) (next : ℕ) : Option State :=
  match (s.thread s.current).point with
  | .sleeping _ => s.threadBlock .asleep next
  | .asleep | .queued _ => some (s.goto s.current .running)
  | .downing q => s.semaDown q next
  | .creating t => some (s.startThread t)
  | .idling => s.threadBlock .idling next
  | .running | .newborn _ => none

end State

inductive Op where
  | sleep (ticks : ℤ)
  | down (q next : ℕ)
  | wait (w next : ℕ)
  | create
  | exit (next : ℕ)
  | becomeIdle
  | proceed (next : ℕ)
  | yield (next : ℕ)
  | tryDown (q : ℕ)
  | up (q t : ℕ)
  | signal (w : ℕ)
  | tick
  deriving DecidableEq

namespace State

def call (s : State) : Op → Option State
  | .sleep ticks => some (s.timerSleep ticks)
  | .down q next => s.semaDown q next
  | .wait w next => s.wait w next
  | .create => some s.initThread
  | .exit next => s.threadExit next
  | .becomeIdle =>
    if s.idleThread = none then some { s.goto s.current .idling with idleThread := some s.current } else none
  | _ => none

def step (s : State) (op : Op) : Option State :=
  if s.panic then none
  else match op with
    | .proceed next => s.proceed next
    | .yield next => s.threadYield next
    | .tryDown q => some (s.semaTryDown q)
    | .up q t => s.semaUp q t
    | .signal w => some (s.signal w)
    | .tick => some s.timerInterrupt
    | op => if (s.thread s.current).point = .running then s.call op else none

def boot (value : ℕ → ℕ) : State where
  allList := [1]
  readyList := []
  thread t := ⟨if t = 1 then .running else .dying, 0, .running⟩
  sema q := ⟨value q, []⟩
  waiter _ := none
  current := 1
  idleThread := none
  nextTid := 2
  panic := false

def system : System State Op := .ofStep (fun s => ∃ value, s = boot value) step

end State
end Cs162.Threads.Sleep
