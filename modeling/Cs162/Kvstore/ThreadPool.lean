import Cs162.Lib.System

namespace Cs162.Kvstore.ThreadPool
open List Lib

inductive WorkerThread (J : Type)
  | idle
  | waiting
  | woken
  | running (task : J)
  deriving DecidableEq

/-- `added`, `handed` and `done` are the jobs of the run so far, which no method reads. -/
structure State (J : Type) where
  threads : List (WorkerThread J)
  queue : List J
  added : List J
  handed : List J
  done : List J

/-- `wake` is a return of `await` that nothing signalled. -/
inductive Event (J : Type)
  | addJob (r : J) (i : ℕ)
  | getJob (i : ℕ)
  | wake (i : ℕ)
  | interrupt (i : ℕ)
  | finish (i : ℕ) (task : J)

namespace State
variable {J : Type} [DecidableEq J] {s s' : State J} {i : ℕ}

def init (size : ℕ) : State J := ⟨replicate size .idle, [], [], [], []⟩

@[grind =] def set (s : State J) (i : ℕ) (w : WorkerThread J) : State J := { s with threads := s.threads.set i w }

/-- One test of the loop in `getJob`: on entry, and whenever `await` returns. -/
def getJob (s : State J) (i : ℕ) : State J :=
  match s.queue with
  | [] => s.set i .waiting
  | r :: queue => { s.set i (.running r) with queue, handed := s.handed ++ [r] }

def addJob (s : State J) (r : J) (i : ℕ) : State J :=
  { if .waiting ∈ s.threads then s.set i .woken else s with
    queue := s.queue ++ [r]
    added := s.added ++ [r] }

def step (s : State J) : Event J → Option (State J)
  | .addJob r i => if .waiting ∈ s.threads → s.threads[i]? = some .waiting then some (s.addJob r i) else none
  | .getJob i => if s.threads[i]? = some .idle ∨ s.threads[i]? = some .woken then some (s.getJob i) else none
  | .wake i => if s.threads[i]? = some .waiting then some (s.set i .woken) else none
  | .interrupt i => if s.threads[i]? = some .waiting then some (s.set i .idle) else none
  | .finish i task =>
    if s.threads[i]? = some (.running task) then some { s.set i .idle with done := s.done ++ [task] } else none

structure Inv (s : State J) : Prop where
  order : s.added = s.handed ++ s.queue
  once (r : J) : s.handed.count r = s.done.count r + s.threads.count (.running r)
  signalled : .waiting ∈ s.threads → s.queue.length ≤ s.threads.count .woken

theorem count_set_add {v : WorkerThread J} (h : s.threads[i]? = some v) (w x : WorkerThread J) :
    (s.set i w).threads.count x + (if v = x then 1 else 0) = s.threads.count x + if w = x then 1 else 0 := by
  obtain ⟨hi, rfl⟩ := List.getElem?_eq_some_iff.mp h
  grind [count_set hi, boole_getElem_le_count]

theorem Inv.step (h : s.Inv) {e : Event J} (hs : s.step e = some s') : s'.Inv := by
  obtain ⟨horder, honce, hsignalled⟩ := h
  cases e with
  | addJob r i =>
    obtain ⟨hi, ⟨⟩⟩ := Option.ite_none_right_eq_some.mp hs
    unfold addJob
    split_ifs with hw
    -- the job comes with a woken thread of its own
    · have hcount := count_set_add (hi hw)
      exact ⟨by grind, by grind, by grind⟩
    · exact ⟨by simp [horder], honce, fun hmem => absurd hmem hw⟩
  | getJob i =>
    obtain ⟨hi, ⟨⟩⟩ := Option.ite_none_right_eq_some.mp hs
    obtain ⟨v, hv, hcall⟩ : ∃ v, s.threads[i]? = some v ∧ (v = .idle ∨ v = .woken) := by grind
    have hcount := count_set_add hv
    unfold getJob
    split
    · exact ⟨horder, by grind, by grind⟩
    · exact ⟨by grind, by grind, by grind⟩
  | wake i | interrupt i | finish i =>
    obtain ⟨hi, ⟨⟩⟩ := Option.ite_none_right_eq_some.mp hs
    have hcount := count_set_add hi
    exact ⟨horder, by grind, by grind⟩

end State

def system (J : Type) [DecidableEq J] (size : ℕ) : System (State J) (Event J) := .ofStep (· = .init size) State.step

/-- Each job is handed out once and in order, and no wake-up is lost. -/
theorem jobs_once_in_order {J : Type} [DecidableEq J] {size : ℕ} {s : State J} (h : (system J size).Reach s) :
    s.Inv := by
  refine System.ReachVia.invariant ?_ (fun _ _ _ hi _ hs => hi.step hs) h
  rintro s rfl
  exact ⟨rfl, by simp [State.init, count_replicate], by simp [State.init]⟩

theorem jobs_once_in_order_two :
    ∃ s : State ℕ, (system ℕ 2).Reach s ∧ .waiting ∈ s.threads ∧ s.queue = [7] ∧ s.Inv := by
  have hrun : System.runVia State.step (fun _ _ => True) (.init 2) [.getJob 0, .getJob 1, .addJob 7 1] =
      some ⟨[.waiting, .woken], [7], [7], [], []⟩ := rfl
  have hreach : (system ℕ 2).Reach _ := System.ReachVia.run (.init rfl) hrun
  exact ⟨_, hreach, by decide, rfl, jobs_once_in_order hreach⟩

end Cs162.Kvstore.ThreadPool
