import Mathlib.Data.Int.Order.Basic
import Cs162.Lib.System

namespace Cs162.Userprog
open Lib Function

structure ProcessInfo where
  isExited : Bool
  exitCode : ℤ
  isWaited : Bool
  isLoaded : Bool
  semaWait : ℕ
  deriving DecidableEq

def initProcess : ProcessInfo := ⟨false, -1, false, false, 0⟩

inductive Point where
  | starting
  | started (success : Bool)
  | running
  | loading (child : Option ℕ)
  | loaded (child : ℕ)
  | looking (child : ℕ) (isAlived : Bool)
  | found (child : ℕ) (isAlived : Bool)
  | marking (child : ℕ)
  | downing (child : ℕ)
  | checking (child : ℕ)
  | reading (child : ℕ)
  | unlinking (child : ℕ) (success : ℤ)
  | freeing (child : ℕ) (success : ℤ)
  | flagging (isExited : Bool)
  | exiting
  | emptying (parent : Bool)
  | dropping (child : ℕ) (parent : Bool)
  | printing (parent : Bool)
  | testing (parent : Bool)
  | upping
  | leaving
  | dead
  deriving DecidableEq

structure Processes where
  nextTid : ℕ
  point : ℕ → Point
  parentId : ℕ → ℕ
  childList : ℕ → List ℕ
  semaLoad : ℕ → ℕ
  process : ℕ → ProcessInfo
  freed : ℕ → Bool
  fault : Bool
  status : ℕ → ℤ
  returned : ℕ → List ℤ

namespace Processes

def main : ℕ := 1

def getThread (s : Processes) (t : ℕ) : Bool := decide (s.point t ≠ .dead)

def goto (s : Processes) (t : ℕ) (point : Point) : Processes := { s with point := update s.point t point }

def setProcess (s : Processes) (t : ℕ) (p : ProcessInfo) : Processes :=
  { s with process := update s.process t p }

def setChildList (s : Processes) (t : ℕ) (l : List ℕ) : Processes :=
  { s with childList := update s.childList t l }

def access (s : Processes) (l : List ℕ) (s' : Processes) : Processes :=
  if l.all fun t => !s.freed t then s' else { s with fault := true }

def free (s : Processes) (t : ℕ) (s' : Processes) : Processes :=
  s.access [t] { s' with freed := update s'.freed t true }

def processChild (l : List ℕ) (child : ℕ) : List ℕ :=
  l.takeWhile (· ≠ child) ++ (if child ∈ l then [child] else [])

def listRemove (l : List ℕ) (child : ℕ) : List ℕ :=
  (l.takeWhile (· ≠ child)).getLast?.toList ++ child :: (l.dropWhile (· ≠ child)).tail.head?.toList

def finishWait (s : Processes) (t child : ℕ) (success : ℤ) : Processes :=
  if child < s.nextTid ∧ s.parentId child = t then
    { s.goto t .running with returned := update s.returned child (s.returned child ++ [success]) }
  else s.goto t .running

def threadCreate (s : Processes) (t : ℕ) : Processes :=
  { s with
    nextTid := s.nextTid + 1
    point := update (update s.point t (.loading (some s.nextTid))) s.nextTid .starting
    parentId := update s.parentId s.nextTid t
    process := update s.process s.nextTid initProcess }

def startProcess (s : Processes) (t : ℕ) (success : Bool) : Processes :=
  let parent := s.parentId t
  if s.getThread parent then
    s.access (t :: (s.childList parent).getLast?.toList)
      { (((s.setProcess t { s.process t with isLoaded := success }).setChildList parent (s.childList parent ++ [t])).goto t
          (.started success)) with
        semaLoad := update s.semaLoad parent (s.semaLoad parent + 1) }
  else s.goto t (.started success)

def setExitCode (s : Processes) (t : ℕ) (status : ℤ) : Processes :=
  { s.setProcess t { s.process t with exitCode := status } with status := update s.status t status }

end Processes

inductive Op where
  | execute (created : Bool)
  | wait (child : ℕ)
  | exit (status : ℤ)
  | kill
  | lockFilesys
  | load (success : Bool)
  | next
  deriving DecidableEq

namespace Processes

def stepRunning (s : Processes) (t : ℕ) : Op → Option Processes
  | .execute true => some (s.threadCreate t)
  | .execute false => some (s.goto t (.loading none))
  | .wait child => some (s.goto t (.looking child (s.getThread child)))
  | .exit status => some (s.access [t] ((s.setExitCode t status).goto t (.flagging true)))
  | .kill => some (s.access [t] ((s.setExitCode t (-1)).goto t (.flagging false)))
  | .lockFilesys => some (s.access [t] s)
  | _ => none

def stepNext (s : Processes) (t : ℕ) : Option Processes :=
  match s.point t with
  | .started true => some (s.goto t .running)
  | .started false => some (s.access [t] ((s.setExitCode t (-1)).goto t .exiting))
  | .loading (some child) =>
    if s.semaLoad t = 0 then none
    else some { s.goto t (.loaded child) with semaLoad := update s.semaLoad t (s.semaLoad t - 1) }
  | .loaded child =>
    if child ∈ s.childList t then some (s.access (processChild (s.childList t) child) (s.goto t .running)) else none
  | .looking child isAlived => some (s.access (processChild (s.childList t) child)
      (if child ∈ s.childList t then s.goto t (.found child isAlived) else s.finishWait t child (-1)))
  | .found child isAlived => some (s.access [child]
      (if (s.process child).isWaited then s.finishWait t child (-1)
      else s.goto t (if isAlived then .marking child else .checking child)))
  | .marking child =>
    some (s.access [child] ((s.setProcess child { s.process child with isWaited := true }).goto t (.downing child)))
  | .downing child =>
    if (s.process child).semaWait = 0 then none
    else some (s.access [child]
      ((s.setProcess child { s.process child with semaWait := (s.process child).semaWait - 1 }).goto t (.reading child)))
  | .checking child => some (s.access [child]
      (s.goto t (if (s.process child).isExited then .reading child else .unlinking child (-1))))
  | .reading child => some (s.access [child] (s.goto t (.unlinking child (s.process child).exitCode)))
  | .unlinking child success => some (s.access (listRemove (s.childList t) child)
      ((s.setChildList t ((s.childList t).erase child)).goto t (.freeing child success)))
  | .freeing child success => some (s.free child (s.finishWait t child success))
  | .flagging isExited =>
    some (s.access [t] ((s.setProcess t { s.process t with isExited := isExited }).goto t .exiting))
  | .exiting => some (s.goto t (.emptying (s.getThread (s.parentId t))))
  | .emptying parent =>
    match s.childList t with
    | [] => some (s.goto t (.printing parent))
    | child :: l => some (s.access (child :: l.head?.toList) ((s.setChildList t l).goto t (.dropping child parent)))
  | .dropping child parent => some (s.free child (s.goto t (.emptying parent)))
  | .printing parent => some (s.access [t] (s.goto t (.testing parent)))
  | .testing true => some (s.access [t] (s.goto t (if (s.process t).isWaited then .upping else .leaving)))
  | .testing false => some (s.free t (s.goto t .leaving))
  | .upping => some (s.access [t]
      ((s.setProcess t { s.process t with semaWait := (s.process t).semaWait + 1 }).goto t .leaving))
  | .leaving => some (s.goto t .dead)
  | _ => none

def step (s : Processes) (a : ℕ × Op) : Option Processes :=
  if s.fault then none
  else match a.2, s.point a.1 with
    | .next, _ => s.stepNext a.1
    | .load success, .starting => some (s.startProcess a.1 success)
    | op, .running => s.stepRunning a.1 op
    | _, _ => none

def boot : Processes where
  nextTid := main + 1
  point := update (fun _ => .dead) main .running
  parentId _ := main
  childList _ := []
  semaLoad _ := 0
  process _ := initProcess
  freed _ := false
  fault := false
  status _ := -1
  returned _ := []

def system : System Processes (ℕ × Op) := .ofStep (· = boot) step

end Processes
end Cs162.Userprog
