import Cs162.Kvstore.CacheRuns
import Cs162.Kvstore.SlaveTable

namespace Cs162.Kvstore.TPCMaster
open KVCache (keys getSet)

inductive ExchangeFailure
  | connectTimeout | connectSocket | connectIo | connectPort
  | sendMarshal | sendIo
  | receiveSocket | receiveTimeout | receiveParse | receiveIo | receiveOtherRoot | receiveNil
  deriving DecidableEq, Repr

def ExchangeFailure.thrown : ExchangeFailure → Throwable
  | .connectTimeout => .ofError errorSocketTimeout
  | .connectSocket => .ofError errorCouldNotCreateSocket
  | .connectIo => .ofError errorCouldNotConnect
  | .connectPort => .illegalArgumentException -- the port of the slave is not one of 0 to 65535
  | .sendMarshal => .ofError errorParser
  | .sendIo => .ofError errorCouldNotSendData
  | .receiveSocket => .ofError errorCouldNotCreateSocket
  | .receiveTimeout => .ofError errorSocketTimeout
  | .receiveParse => .ofError errorParser
  | .receiveIo => .ofError errorCouldNotReceiveData
  | .receiveOtherRoot => .classCastException -- the document is of another type
  | .receiveNil => .nullPointerException -- the element is nil

inductive Exchange
  | failed (failure : ExchangeFailure)
  | answered (response : KVMessage)
  deriving DecidableEq, Repr

def Exchange.value? : Exchange → Option JString
  | .failed _ => none
  | .answered response =>
    match response.msgType with
    | none => none
    | some t => if t.isResp then response.value else none

def Exchange.Typed (e : Exchange) : Prop := ∃ response t, e = .answered response ∧ response.msgType = some t

variable {c : CacheConfig}

/-- `connectHost`, `sendMessage` and `new KVMessage`, whose value is never null. -/
def exchange (e : Exchange) : JavaM (KVCache c) (Option KVMessage) :=
  match e with
  | .failed failure => throw failure.thrown
  | .answered response => return some response

def takeValue (key : JString) (response : KVMessage) : JavaM (KVCache c) JString :=
  match response.msgType with
  | none => throw .nullPointerException
  | some t =>
    match t.isResp, response.value with
    | true, some value => do
      KVCache.put key (some value)
      return value
    | _, _ => throw (.ofError errorNoSuchKey)

def handleGet (slaves : SlaveTable) (first second : TPCSlaveInfo → Exchange) (msg : KVMessage) :
    JavaM (KVCache c) JString :=
  match msg.key with
  | none => throw .nullPointerException
  | some key => do
    let _ ← getSet key -- the lock of the set
    match ← KVCache.get key with
    | some value => return value
    | none =>
      match slaves.findFirstReplica (longToString (hashTo64bit key)) with
      | none => throw .nullPointerException
      | some slave1 =>
        match ← exchange (first slave1) with
        | some response => takeValue key response
        | none =>
          match slaves.findSuccessor slave1 with
          | none => throw .noSuchElementException
          | some slave2 =>
            match ← exchange (second slave2) with
            | none => throw (.ofError errorNoSuchKey)
            | some response =>
              -- The response is tested and cached here and once more after the branch.
              let _ ← takeValue key response
              takeValue key response

structure Replicas (slaves : SlaveTable) (key : JString) (slave1 slave2 : TPCSlaveInfo) : Prop where
  first : slaves.findFirstReplica (longToString (hashTo64bit key)) = some slave1
  successor : slaves.findSuccessor slave1 = some slave2

def FailsOver (slaves : SlaveTable) (first second : TPCSlaveInfo → Exchange) (msg : KVMessage)
    (key : JString) (slave2 : TPCSlaveInfo) (cache : KVCache c) : Prop :=
  (∀ v, (second slave2).value? = some v → ∃ cache', handleGet slaves first second msg cache = .ok v cache' ∧
    ∃ cache'', KVCache.get key cache' = .ok (some v) cache'') ∧
  ((second slave2).value? = none →
    handleGet slaves first second msg cache = .error (.ofError errorNoSuchKey) cache)

variable {slaves : SlaveTable} {first second : TPCSlaveInfo → Exchange} {msg : KVMessage} {key : JString}
  {slave1 slave2 : TPCSlaveInfo} {cache : KVCache c}

theorem ExchangeFailure.thrown_ne (failure : ExchangeFailure) : failure.thrown ≠ .ofError errorNoSuchKey := by
  cases failure <;> decide

theorem handleGet_missing (hkey : msg.key = some key) {i : Fin c.numSets} (hi : c.setIndex? key = some i)
    (hmiss : key ∉ keys (cache.sets i))
    (hslave1 : slaves.findFirstReplica (longToString (hashTo64bit key)) = some slave1) :
    handleGet slaves first second msg cache =
      match first slave1 with
      | .failed failure => .error failure.thrown cache
      | .answered response => takeValue key response cache := by
  have hget : KVCache.get key cache = .ok none cache := by
    have hmarked : cache.marked i key = cache := by
      rw [KVCache.marked, KVCache.getScan_snd_of_notMem hmiss]
      simp only [KVCache.setSet, Function.update_eq_self]
    rw [KVCache.get_run hi, KVCache.getScan_of_notMem hmiss, hmarked]
  simp only [handleGet, hkey, bind, EStateM.bind, KVCache.getSet_run hi, hget, hslave1]
  cases first slave1 with
  | failed failure => rfl
  | answered response => rfl

theorem handleGet_outOfRange (hkey : msg.key = some key) (hi : c.setIndex? key = none) :
    handleGet slaves first second msg cache = .error .indexOutOfBoundsException cache := by
  simp only [handleGet, hkey, bind, EStateM.bind, KVCache.getSet_run_none hi]

theorem takeValue_of_none (key : JString) (cache : KVCache c) {response : KVMessage}
    (h : (Exchange.answered response).value? = none) :
    ∃ e, takeValue key response cache = .error e cache ∧
      (e = .ofError errorNoSuchKey ↔ ∃ t, response.msgType = some t) := by
  unfold takeValue
  match ht : response.msgType with
  | none => exact ⟨.nullPointerException, rfl, by simp [Throwable.ofError]⟩
  | some t =>
    refine ⟨.ofError errorNoSuchKey, ?_, by simp⟩
    simp only [Exchange.value?, ht, ite_eq_right_iff] at h
    match hresp : t.isResp, hvalue : response.value with
    | true, some value => cases (h hresp).symm.trans hvalue
    | true, none =>
      simp only [hresp]
      rfl
    | false, _ =>
      simp only [hresp]
      rfl

theorem handleGet_of_none (second : TPCSlaveInfo → Exchange) (hkey : msg.key = some key)
    (hmiss : ∀ i, key ∉ keys (cache.sets i))
    (hslave1 : slaves.findFirstReplica (longToString (hashTo64bit key)) = some slave1)
    (hfirst : (first slave1).value? = none) :
    ∃ e, handleGet slaves first second msg cache = .error e cache ∧
      (e = .ofError errorNoSuchKey ↔ c.InRange key ∧ (first slave1).Typed) := by
  cases hi : c.setIndex? key with
  | none => exact ⟨_, handleGet_outOfRange hkey hi, by simp [CacheConfig.InRange, hi, Throwable.ofError]⟩
  | some i =>
    have hrange : c.InRange key := by simp [CacheConfig.InRange, hi]
    rw [handleGet_missing hkey hi (hmiss i) hslave1]
    cases hf : first slave1 with
    | failed failure =>
      have huntyped : ¬ (Exchange.failed failure).Typed := nofun
      exact ⟨_, rfl, iff_of_false failure.thrown_ne fun h => huntyped h.2⟩
    | answered response =>
      obtain ⟨e, he, hiff⟩ := takeValue_of_none key cache (hf ▸ hfirst)
      refine ⟨e, he, hiff.trans ⟨fun ⟨t, ht⟩ => ⟨hrange, response, t, rfl, ht⟩, ?_⟩⟩
      rintro ⟨-, _, t, ⟨⟩, ht⟩
      exact ⟨t, ht⟩

theorem failsOver_iff (hkey : msg.key = some key) (hmiss : ∀ i, key ∉ keys (cache.sets i))
    (hreplicas : Replicas slaves key slave1 slave2) (hfirst : (first slave1).value? = none) :
    FailsOver slaves first second msg key slave2 cache ↔
      c.InRange key ∧ (first slave1).Typed ∧ (second slave2).value? = none := by
  obtain ⟨e, he, hiff⟩ := handleGet_of_none second hkey hmiss hreplicas.first hfirst
  constructor
  · rintro ⟨hsome, hnone⟩
    match hsecond : (second slave2).value? with
    | some v =>
      obtain ⟨cache', hok, -⟩ := hsome v hsecond
      cases he.symm.trans hok
    | none =>
      have hthrown := he.symm.trans (hnone hsecond)
      obtain ⟨rfl, -⟩ := EStateM.Result.error.inj hthrown
      obtain ⟨hrange, htyped⟩ := hiff.mp rfl
      exact ⟨hrange, htyped, rfl⟩
  · rintro ⟨hrange, htyped, hsecond⟩
    refine ⟨fun v hv => ?_, fun _ => ?_⟩
    · cases hsecond.symm.trans hv
    · rw [he, hiff.mpr ⟨hrange, htyped⟩]

section Example
open SlaveTable (slaveA slaveB twoSlaves)

def single : CacheConfig := ⟨1, 1, Nat.one_pos, Nat.one_pos⟩

def getMsg : KVMessage := { msgType := some .getReq, key := some [107] }

theorem replicas_twoSlaves : Replicas twoSlaves [107] slaveA slaveB := ⟨by decide +kernel, by decide +kernel⟩

theorem failsOver_noSuchKey : Replicas twoSlaves [107] slaveA slaveB ∧
    FailsOver twoSlaves (fun _ => .answered (.ofType .resp (some errorNoSuchKey)))
      (fun _ => .failed .receiveTimeout) getMsg [107] slaveB (KVCache.init single) := by
  refine ⟨replicas_twoSlaves, ?_⟩
  refine (failsOver_iff rfl (fun _ => List.not_mem_nil) replicas_twoSlaves rfl).mpr ⟨by decide, ?_, rfl⟩
  exact ⟨_, _, rfl, rfl⟩

theorem not_failsOver_refused : Replicas twoSlaves [107] slaveA slaveB ∧
    handleGet twoSlaves (fun _ => .failed .connectSocket)
      (fun _ => .answered { msgType := some .resp, key := some [107], value := some [118] }) getMsg
      (KVCache.init single) = .error (.ofError errorCouldNotCreateSocket) (KVCache.init single) := by
  have hi : single.setIndex? [107] = some ⟨0, by decide⟩ := by decide
  exact ⟨replicas_twoSlaves, handleGet_missing rfl hi List.not_mem_nil replicas_twoSlaves.first⟩

end Example

end Cs162.Kvstore.TPCMaster
