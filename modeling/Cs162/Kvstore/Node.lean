import Cs162.Lib.Drain
import Cs162.Kvstore.Recovery

namespace Cs162.Kvstore
open MasterHandler Option

structure Job where
  request : KVMessage
  awaited : Bool
  deriving DecidableEq, Repr

inductive Worker
  | idle
  | reading (job : Job)
  | logged (job : Job) (phase1 : Option KVMessage)
  | answering (job : Job) (response : KVMessage)
  deriving DecidableEq, Repr

def Job.abandon (job : Job) : Job := { job with awaited := false }

namespace Worker

def abandon : Worker → Worker
  | .idle => .idle
  | .reading job => .reading job.abandon
  | .logged job phase1 => .logged job.abandon phase1
  | .answering job response => .answering job.abandon response

def jobs : Worker → List Job
  | .idle => []
  | .reading job | .logged job _ | .answering job _ => [job]

def unfinished : Worker → List Job
  | .reading job | .logged job _ => [job]
  | _ => []

def executing : Worker → List KVMessage
  | .logged job _ => if Logged job.request then [job.request] else []
  | _ => []

end Worker

inductive NodeAction
  | getJob
  | readFails (error : String)
  | logJob
  | executeJob
  | crash
  | restart
  deriving DecidableEq, Repr

structure Node (c : CacheConfig) where
  up : Bool
  slave : Slave c
  worker : Worker
  queue : List Job

namespace Node
variable {c : CacheConfig}

def init (c : CacheConfig) : Node c := ⟨true, Slave.init c, .idle, []⟩

def store (n : Node c) : PlainMap := n.slave.kvServer.dataStore.store

def log (n : Node c) : List KVMessage := n.slave.tpcLog.file.getD []

def accept (n : Node c) (request : KVMessage) : Option (Node c) :=
  if n.up then some { n with queue := n.queue ++ [⟨request, true⟩] } else none

def getJob (n : Node c) : Option (Node c) :=
  match n.worker, n.queue with
  | .idle, job :: rest => some { n with worker := .reading job, queue := rest }
  | _, _ => none

def readFails (n : Node c) (error : String) : Option (Node c) :=
  match n.worker with
  | .reading job => some { n with worker := .answering job (.ofType .resp (some error)) }
  | _ => none

def logJob (n : Node c) : Option (Node c) :=
  match n.worker with
  | .reading job =>
    match logRequest job.request n.slave with
    | .ok phase1 s => some { n with slave := s, worker := .logged job phase1 }
    | .error _ s => some { n with slave := s, worker := .idle }
  | _ => none

def executeJob (n : Node c) : Option (Node c) :=
  match n.worker with
  | .logged job phase1 =>
    match respond job.request phase1 n.slave with
    | .ok response s => some { n with slave := s, worker := .answering job response }
    | .error _ s => some { n with slave := s, worker := .idle }
  | _ => none

def answer (n : Node c) : Option (Option KVMessage × Node c) :=
  match n.worker with
  | .answering job response =>
    some (if job.awaited then some response else none, { n with worker := .idle })
  | _ => none

def abandon (n : Node c) : Node c :=
  { n with worker := n.worker.abandon, queue := n.queue.map Job.abandon }

def crash (n : Node c) : Option (Node c) :=
  if n.up then some ⟨false, ⟨KVServer.init c, ⟨[], n.slave.tpcLog.file⟩⟩, .idle, []⟩ else none

def restart (n : Node c) : Option (Node c) :=
  if n.up then none
  else match TPCLog.rebuildServer n.slave.tpcLog.file (KVServer.init c) with
    | .ok log s => some ⟨true, ⟨s, log⟩, .idle, []⟩
    | .error _ _ => none

def act (n : Node c) : NodeAction → Option (Node c)
  | .getJob => n.getJob
  | .readFails error => n.readFails error
  | .logJob => n.logJob
  | .executeJob => n.executeJob
  | .crash => n.crash
  | .restart => n.restart

def inflight (n : Node c) : List KVMessage :=
  ((n.worker.unfinished ++ n.queue).map Job.request).filter fun m => decide (Logged m)

def jobs (n : Node c) : List Job := n.worker.jobs ++ n.queue

inductive Acts (n : Node c) : Node c → Prop
  | getJob {job : Job} {rest : List Job} (hw : n.worker = .idle) (hq : n.queue = job :: rest) :
      Acts n { n with worker := .reading job, queue := rest }
  | readFails {job : Job} (error : String) (hw : n.worker = .reading job) :
      Acts n { n with worker := .answering job (.ofType .resp (some error)) }
  | logged {job : Job} (hw : n.worker = .reading job) (hl : Logged job.request) :
      Acts n ⟨n.up, { n.slave with tpcLog := n.slave.tpcLog.appendAndFlush job.request },
        .logged job n.slave.tpcLog.getLastEntry, n.queue⟩
  | unlogged {job : Job} {w : Worker} (hw : n.worker = .reading job) (hl : ¬ Logged job.request)
      (hw' : w = .idle ∨ w = .logged job none) : Acts n { n with worker := w }
  | answered {job : Job} {phase1 : Option KVMessage} {response : KVMessage} {s : Slave c}
      (hw : n.worker = .logged job phase1)
      (hr : respond job.request phase1 n.slave = .ok response s) :
      Acts n { n with slave := s, worker := .answering job response }
  | dropped {job : Job} {phase1 : Option KVMessage} {e : Throwable} {s : Slave c}
      (hw : n.worker = .logged job phase1) (hr : respond job.request phase1 n.slave = .error e s) :
      Acts n { n with slave := s, worker := .idle }
  | crash (hup : n.up = true) :
      Acts n ⟨false, ⟨KVServer.init c, ⟨[], n.slave.tpcLog.file⟩⟩, .idle, []⟩
  | restart {log : TPCLog} {s : KVServer c} (hup : n.up = false)
      (hr : TPCLog.rebuildServer n.slave.tpcLog.file (KVServer.init c) = .ok log s) :
      Acts n ⟨true, ⟨s, log⟩, .idle, []⟩

theorem acts_of_logJob {n n' : Node c} (h : n.logJob = some n') : n.Acts n' := by
  unfold logJob at h
  cases hw : n.worker with
  | reading job =>
    simp only [hw] at h
    by_cases hl : Logged job.request
    · rw [logRequest_run _ hl, some.injEq] at h
      exact h ▸ .logged hw hl
    · rcases not_logged_iff.mp hl with ht | ht
      · have hrun : logRequest job.request n.slave = .error .nullPointerException n.slave := by
          simp only [logRequest, ht]
          rfl
        rw [hrun, some.injEq] at h
        exact h ▸ .unlogged hw hl (.inl rfl)
      · have hrun : logRequest job.request n.slave = .ok none n.slave := by
          simp only [logRequest, ht]
          rfl
        rw [hrun, some.injEq] at h
        exact h ▸ .unlogged hw hl (.inr rfl)
  | _ => simp [hw] at h

theorem acts_of_act {n n' : Node c} {a : NodeAction} (h : n.act a = some n') : n.Acts n' := by
  cases a with
  | getJob =>
    simp only [act, Node.getJob] at h
    split at h
    · next job rest hw hq => exact some.inj h ▸ .getJob hw hq
    · cases h
  | readFails error =>
    simp only [act, Node.readFails] at h
    split at h
    · next job hw => exact some.inj h ▸ .readFails error hw
    · cases h
  | logJob => exact acts_of_logJob h
  | executeJob =>
    simp only [act, Node.executeJob] at h
    split at h
    · next job phase1 hw =>
      split at h
      · next response s hr => exact some.inj h ▸ .answered hw hr
      · next e s hr => exact some.inj h ▸ .dropped hw hr
    · cases h
  | crash =>
    simp only [act, Node.crash] at h
    split_ifs at h with hup
    exact some.inj h ▸ .crash hup
  | restart =>
    simp only [act, Node.restart] at h
    split_ifs at h with hup
    split at h
    · next log s hr => exact some.inj h ▸ .restart (by simpa using hup) hr
    · cases h

end Node
end Cs162.Kvstore
