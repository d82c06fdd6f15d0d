import Cs162.Kvstore.TPCLog

namespace Cs162.Kvstore

structure Slave (c : CacheConfig) where
  kvServer : KVServer c
  tpcLog : TPCLog

namespace Slave
variable {c : CacheConfig}

def init (c : CacheConfig) : Slave c := ⟨KVServer.init c, ⟨[], none⟩⟩

def onServer {α : Type} (m : JavaM (KVServer c) α) : JavaM (Slave c) α := fun s =>
  match m s.kvServer with
  | .ok a d => .ok a { s with kvServer := d }
  | .error e d => .error e { s with kvServer := d }

theorem finalState_onServer {α : Type} (m : JavaM (KVServer c) α) (s : Slave c) :
    finalState (onServer m s) = { s with kvServer := finalState (m s.kvServer) } := by
  unfold onServer
  cases m s.kvServer <;> rfl

end Slave

namespace MasterHandler
variable {c : CacheConfig}

def logRequest (request : KVMessage) : JavaM (Slave c) (Option KVMessage) :=
  match request.msgType with
  | none => throw .nullPointerException
  | some .getReq => return none
  | some _ => fun s =>
    .ok s.tpcLog.getLastEntry { s with tpcLog := s.tpcLog.appendAndFlush request }

/-- The key test of the first phase. It lets the empty key through. -/
def rejectsKey : Option JString → Bool
  | none => true
  | some k => decide (256 < k.length)

def execute (request : KVMessage) (phase1 : Option KVMessage) : JavaM (Slave c) KVMessage :=
  match request.msgType with
  | none => throw .nullPointerException
  | some .getReq => do
    let value ← Slave.onServer (KVServer.get request.key)
    return { msgType := some .resp, key := request.key, value := some value }
  | some .putReq => return if rejectsKey request.key then .ofType .abort else .ofType .ready
  | some .delReq => do
    if rejectsKey request.key then return .ofType .abort
    else if ← Slave.onServer (KVServer.hasKey request.key) then return .ofType .ready
    else return .ofType .abort (some errorNoSuchKey)
  | some .commit =>
    match phase1 with
    | none => throw .nullPointerException
    | some p => do
      Slave.onServer (applyEntry p)
      return .ofType .ack
  | some .abort => return .ofType .ack
  | some _ => return .ofType .resp (some errorInvalidMessageType)

def failure (request kvm : KVMessage) : KVMessage :=
  .ofType (if request.msgType = some .getReq then .resp else .abort) kvm.message

def respond (request : KVMessage) (phase1 : Option KVMessage) : JavaM (Slave c) KVMessage := fun s =>
  match execute request phase1 s with
  | .error (.kvException kvm) s' => .ok (failure request kvm) s'
  | r => r

def run (request : KVMessage) : JavaM (Slave c) KVMessage := do
  let phase1 ← logRequest request
  respond request phase1

def Logged (request : KVMessage) : Prop := request.msgType ≠ none ∧ request.msgType ≠ some .getReq

instance (request : KVMessage) : Decidable (Logged request) := inferInstanceAs (Decidable (_ ∧ _))

variable (s : Slave c) {request : KVMessage}

theorem not_logged_iff :
    ¬ Logged request ↔ request.msgType = none ∨ request.msgType = some .getReq := by
  unfold Logged
  tauto

theorem logRequest_run (h : Logged request) :
    logRequest request s =
      .ok s.tpcLog.getLastEntry { s with tpcLog := s.tpcLog.appendAndFlush request } := by
  cases ht : request.msgType with
  | none => exact absurd ht h.1
  | some t =>
    cases t with
    | getReq => exact absurd ht h.2
    | _ => simp only [logRequest, ht]

theorem finalState_respond (request : KVMessage) (phase1 : Option KVMessage) :
    finalState (respond request phase1 s) = finalState (execute request phase1 s) := by
  unfold respond
  split <;> simp_all

theorem finalState_bind_pure {σ α β : Type} (m : JavaM σ α) (f : α → β) (s : σ) :
    finalState ((do let a ← m; pure (f a) : JavaM σ β) s) = finalState (m s) := by
  simp only [bind, EStateM.bind]
  cases m s <;> rfl

def contentsAfter (c : CacheConfig) (request : KVMessage) (phase1 : Option KVMessage)
    (m : PlainMap) : PlainMap :=
  if request.msgType = some .commit then (phase1.bind (c.perform m)).getD m else m

theorem contentsAfter_of_ne (h : request.msgType ≠ some .commit) (phase1 : Option KVMessage)
    (m : PlainMap) : contentsAfter c request phase1 m = m := if_neg h

theorem contentsAfter_commit (h : request.msgType = some .commit) (phase1 : Option KVMessage)
    (m : PlainMap) : contentsAfter c request phase1 m = (phase1.bind (c.perform m)).getD m := if_pos h

theorem execute_delReq (ht : request.msgType = some .delReq) (phase1 : Option KVMessage) :
    execute request phase1 s =
      .ok (if rejectsKey request.key then .ofType .abort
        else if (request.key.bind s.kvServer.dataStore.store).isSome then .ofType .ready
        else .ofType .abort (some errorNoSuchKey)) s := by
  simp only [execute, ht]
  cases hkey : request.key with
  | none => rfl
  | some k =>
    cases hr : rejectsKey (some k) with
    | true => rfl
    | false =>
      simp only [Bool.false_eq_true, if_false, bind, EStateM.bind, Slave.onServer,
        KVServer.hasKey_run, Option.bind_some]
      split_ifs <;> rfl

theorem execute_finalState (request : KVMessage) (phase1 : Option KVMessage) :
    (finalState (execute request phase1 s)).tpcLog = s.tpcLog ∧
      (finalState (execute request phase1 s)).kvServer.dataStore.store =
        contentsAfter c request phase1 s.kvServer.dataStore.store := by
  cases ht : request.msgType with
  | none => simp only [execute, contentsAfter, ht]; exact ⟨rfl, rfl⟩
  | some t =>
    cases t with
    | getReq =>
      simp only [execute, contentsAfter, ht, finalState_bind_pure, Slave.finalState_onServer,
        KVServer.get_dataStore]
      exact ⟨trivial, rfl⟩
    | delReq =>
      simp only [execute_delReq s ht, contentsAfter, ht]
      exact ⟨rfl, rfl⟩
    | commit =>
      cases phase1 with
      | none => simp only [execute, contentsAfter, ht]; exact ⟨rfl, rfl⟩
      | some p =>
        simp only [execute, contentsAfter, ht, finalState_bind_pure, Slave.finalState_onServer,
          if_true, Option.bind_some]
        exact ⟨trivial, (applyEntry_effect s.kvServer p).2⟩
    | _ => simp only [execute, contentsAfter, ht]; exact ⟨rfl, rfl⟩

end MasterHandler
end Cs162.Kvstore
