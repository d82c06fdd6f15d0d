import Cs162.Kvstore.Replicas
import Cs162.Kvstore.KVCache

namespace Cs162.Kvstore

structure ClusterConfig where
  slaveCache : CacheConfig
  masterCache : CacheConfig
  ids : List ℤ
  sorted : ids.Pairwise (· < ·)
  two : 2 ≤ ids.length

inductive Stage
  | vote1
  | vote2 (response1 : KVMessage)
  | decide1 (decision response1 response2 : KVMessage)
  | decide2 (decision response2 : KVMessage)
  deriving DecidableEq, Repr

def Stage.isPhase2 : Stage → Bool
  | .vote1 | .vote2 _ => false
  | .decide1 .. | .decide2 .. => true

structure Txn where
  msg : KVMessage
  key : JString
  slave1 : ℤ
  slave2 : ℤ
  stage : Stage
  deriving DecidableEq, Repr

inductive Call
  | lookup (msg : KVMessage)
  | tpc (t : Txn)
  | get (msg : KVMessage) (key : JString) (slave1 : ℤ)
  deriving DecidableEq, Repr

inductive Line
  | closed
  | sent
  | arrived (response : KVMessage)
  deriving DecidableEq, Repr

abbrev Outcome := Except Throwable (Option JString)

structure Master (g : ClusterConfig) where
  slaves : List ℤ
  registering : Option ℤ
  masterCache : KVCache g.masterCache
  call : Option Call
  line : Line
  result : Option (KVMessage × Outcome)

namespace Txn

def isPutReq (t : Txn) : Bool := decide (t.msg.msgType = some .putReq)

def target (t : Txn) : ℤ :=
  match t.stage with
  | .vote1 | .decide1 .. => t.slave1
  | .vote2 _ | .decide2 .. => t.slave2

def outgoing (t : Txn) : KVMessage :=
  match t.stage with
  | .vote1 | .vote2 _ => t.msg
  | .decide1 decision .. | .decide2 decision _ => decision

end Txn

namespace Call

def target : Call → Option ℤ
  | .lookup _ => none
  | .tpc t => some t.target
  | .get _ _ slave1 => some slave1

def outgoing : Call → KVMessage
  | .lookup msg | .get msg .. => msg
  | .tpc t => t.outgoing

def request : Call → KVMessage
  | .lookup msg | .get msg .. => msg
  | .tpc t => t.msg

end Call

namespace Master
variable {g : ClusterConfig}

def init (g : ClusterConfig) : Master g :=
  ⟨g.ids, none, KVCache.init g.masterCache, none, .closed, none⟩

def finish (m : Master g) (msg : KVMessage) (outcome : Outcome) : Master g :=
  { m with call := none, line := .closed, result := some (msg, outcome) }

def firstReplica (m : Master g) (key : JString) : Option ℤ :=
  findFirstReplica m.slaves (longToString (hashTo64bit key))

def startTPC (m : Master g) (msg : KVMessage) : Master g :=
  match msg.key with
  | none => m.finish msg (.error .nullPointerException)
  | some key =>
    match m.firstReplica key with
    | none => m.finish msg (.error .nullPointerException)
    | some slave1 =>
      match findSuccessor m.slaves slave1, g.masterCache.setIndex? key with
      | none, _ => m.finish msg (.error .nullPointerException)
      | some _, none => m.finish msg (.error .indexOutOfBoundsException)
      | some slave2, some _ => { m with call := some (.tpc ⟨msg, key, slave1, slave2, .vote1⟩) }

def startGet (m : Master g) (msg : KVMessage) : Master g :=
  match msg.key with
  | none => m.finish msg (.error .nullPointerException)
  | some key =>
    match KVCache.get key m.masterCache with
    | .error e cache => { m with masterCache := cache }.finish msg (.error e)
    | .ok (some value) cache => { m with masterCache := cache }.finish msg (.ok (some value))
    | .ok none cache =>
      match m.firstReplica key with
      | none => { m with masterCache := cache }.finish msg (.error .nullPointerException)
      | some slave1 => { m with masterCache := cache, call := some (.get msg key slave1) }

def goTo (m : Master g) (t : Txn) (stage : Stage) : Master g :=
  { m with call := some (.tpc { t with stage := stage }), line := .closed }

def decision (response1 response2 : KVMessage) : Option KVMessage :=
  match response1.msgType with
  | none => none
  | some .ready =>
    match response2.msgType with
    | none => none
    | some .ready => some (.ofType .commit)
    | some _ => some response2
  | some _ => some response1

def afterVotes (m : Master g) (t : Txn) (response1 response2 : KVMessage) : Master g :=
  match decision response1 response2 with
  | none => m.finish t.msg (.error .nullPointerException)
  | some d => m.goTo t (.decide1 d response1 response2)

def conclude (m : Master g) (t : Txn) (d : KVMessage) : Master g :=
  match d.msgType with
  | none => m.finish t.msg (.error .nullPointerException)
  | some .commit =>
    match (if t.isPutReq then KVCache.put t.key t.msg.value else KVCache.del t.key) m.masterCache with
    | .ok _ cache => { m with masterCache := cache }.finish t.msg (.ok none)
    | .error e cache => { m with masterCache := cache }.finish t.msg (.error e)
  | some _ => m.finish t.msg (.error (.kvException d))

def loop1 (m : Master g) (t : Txn) (d response1 response2 : KVMessage) : Master g :=
  match response1.msgType with
  | none => m.finish t.msg (.error .nullPointerException)
  | some .ack => m.goTo t (.decide2 d response2)
  | some _ => m.goTo t (.decide1 d response1 response2)

def loop2 (m : Master g) (t : Txn) (d response2 : KVMessage) : Master g :=
  match response2.msgType with
  | none => m.finish t.msg (.error .nullPointerException)
  | some .ack => m.conclude t d
  | some _ => m.goTo t (.decide2 d response2)

def endGet (m : Master g) (msg : KVMessage) (key : JString) (response : KVMessage) : Master g :=
  match response.msgType, response.value with
  | none, _ => m.finish msg (.error .nullPointerException)
  | some .resp, some value =>
    match KVCache.put key (some value) m.masterCache with
    | .ok _ cache => { m with masterCache := cache }.finish msg (.ok (some value))
    | .error e cache => { m with masterCache := cache }.finish msg (.error e)
  | some _, _ => m.finish msg (.error (.ofError errorNoSuchKey))

def receive (m : Master g) (call : Call) (response : KVMessage) : Master g :=
  match call with
  | .lookup _ => m
  | .get msg key _ => m.endGet msg key response
  | .tpc t =>
    match t.stage with
    | .vote1 => m.goTo t (.vote2 response)
    | .vote2 response1 => m.afterVotes t response1 response
    | .decide1 d _ response2 => m.loop1 t d response response2
    | .decide2 d _ => m.loop2 t d response

def exchangeFails (m : Master g) (call : Call) (error : Option String) : Option (Master g) :=
  match call with
  | .lookup _ => none
  | .get msg .. => some (m.finish msg (.error (.kvException (.ofType .resp error))))
  | .tpc t =>
    match t.stage with
    | .vote1 => some (m.goTo t (.vote2 (.ofType .abort error)))
    | .vote2 response1 => some (m.afterVotes t response1 (.ofType .abort error))
    | .decide1 d response1 response2 =>
      (m.firstReplica t.key).map fun id => m.loop1 { t with slave1 := id } d response1 response2
    | .decide2 d response2 =>
      (findSuccessor m.slaves t.slave1).map fun id => m.loop2 { t with slave2 := id } d response2

def remove (m : Master g) (id : ℤ) : Option (Master g) :=
  if m.registering = none ∧ id ∈ m.slaves then
    some { m with slaves := m.slaves.erase id, registering := some id }
  else none

def putBack (m : Master g) : Option (Master g) :=
  m.registering.map fun id => { m with slaves := m.slaves.orderedInsert (· ≤ ·) id, registering := none }

end Master
end Cs162.Kvstore
