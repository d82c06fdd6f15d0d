import Cs162.Lib.System
import Cs162.Kvstore.TPCMaster
import Cs162.Kvstore.NodeInvariant

namespace Cs162.Kvstore
open Lib

structure Cluster (g : ClusterConfig) where
  master : Master g
  nodes : ℤ → Node g.slaveCache

inductive Action
  | request (msg : KVMessage)
  | lookup
  | connect
  | fail (error : Option String)
  | receive
  | node (id : ℤ) (a : NodeAction)
  | answer (id : ℤ) (delivered : Bool)
  | remove (id : ℤ)
  | putBack
  deriving DecidableEq, Repr

def Action.entering : Action → Option KVMessage
  | .request msg => some msg
  | _ => none

namespace Cluster
variable {g : ClusterConfig}

def init (g : ClusterConfig) : Cluster g := ⟨Master.init g, fun _ => Node.init g.slaveCache⟩

def setNode (s : Cluster g) (id : ℤ) (n : Node g.slaveCache) : Cluster g :=
  { s with nodes := Function.update s.nodes id n }

def Serves (msg : KVMessage) : Prop :=
  msg.msgType = some .getReq ∨ msg.msgType = some .putReq ∨ msg.msgType = some .delReq

instance (msg : KVMessage) : Decidable (Serves msg) := inferInstanceAs (Decidable (_ ∨ _))

def request (s : Cluster g) (msg : KVMessage) : Option (Cluster g) :=
  if s.master.call = none ∧ g.ids.length ≤ s.master.slaves.length ∧ Serves msg then
    some { s with master := { s.master with call := some (.lookup msg) } }
  else none

def lookup (s : Cluster g) : Option (Cluster g) :=
  match s.master.call with
  | some (.lookup msg) =>
    match msg.msgType with
    | some .getReq => some { s with master := s.master.startGet msg }
    | some .putReq | some .delReq => some { s with master := s.master.startTPC msg }
    | _ => none
  | _ => none

def connect (s : Cluster g) : Option (Cluster g) := do
  let call ← s.master.call
  let id ← call.target
  guard (s.master.line = .closed)
  let n ← (s.nodes id).accept call.outgoing
  return { s.setNode id n with master := { s.master with line := .sent } }

def fail (s : Cluster g) (error : Option String) : Option (Cluster g) := do
  let call ← s.master.call
  let id ← call.target
  let m ← s.master.exchangeFails call error
  return { s.setNode id (s.nodes id).abandon with master := m }

def receive (s : Cluster g) : Option (Cluster g) :=
  match s.master.call, s.master.line with
  | some call, .arrived response => some { s with master := s.master.receive call response }
  | _, _ => none

def node (s : Cluster g) (id : ℤ) (a : NodeAction) : Option (Cluster g) :=
  ((s.nodes id).act a).map (s.setNode id)

def answer (s : Cluster g) (id : ℤ) (delivered : Bool) : Option (Cluster g) :=
  (s.nodes id).answer.map fun (reply, n) =>
    match reply, delivered with
    | some response, true =>
      { s.setNode id n with master := { s.master with line := .arrived response } }
    | _, _ => s.setNode id n

def step (s : Cluster g) : Action → Option (Cluster g)
  | .request msg => s.request msg
  | .lookup => s.lookup
  | .connect => s.connect
  | .fail error => s.fail error
  | .receive => s.receive
  | .node id a => s.node id a
  | .answer id delivered => s.answer id delivered
  | .remove id => (s.master.remove id).map fun m => { s with master := m }
  | .putBack => s.master.putBack.map fun m => { s with master := m }

def system (g : ClusterConfig) : System (Cluster g) Action := .ofStep (· = init g) step

def looksUp (s : Cluster g) : Action → Bool
  | .lookup => true
  | .fail _ =>
    match s.master.call with
    | some (.tpc t) => t.stage.isPhase2
    | _ => false
  | _ => false

def NoRace (s : Cluster g) (a : Action) : Prop := s.looksUp a → s.master.registering = none

instance (s : Cluster g) (a : Action) : Decidable (s.NoRace a) := inferInstanceAs (Decidable (_ → _))

end Cluster
end Cs162.Kvstore
