import Cs162.Kvstore.MasterHandler

namespace Cs162.Kvstore.MasterHandler
open KVServer (KeyOk ValueOk admitKey admitValue)

variable {c : CacheConfig}

def afterAll (s : Slave c) (requests : List KVMessage) : Slave c :=
  requests.foldl (fun s request => finalState (run request s)) s

def applied (m : PlainMap) (request : KVMessage) : Option PlainMap :=
  match request.msgType, request.key, request.value with
  | some .putReq, some k, some v => some (Function.update m k (some v))
  | some .delReq, some k, _ => some (Function.update m k none)
  | _, _, _ => none

def VotesReady (s : Slave c) (request : KVMessage) : Prop :=
  ∃ response s', run request s = .ok response s' ∧ response.msgType = some .ready

def Keeps (s : Slave c) (request : KVMessage) (gets : List KVMessage) (commit : KVMessage) : Prop :=
  ∃ response s', run commit (afterAll s (request :: gets)) = .ok response s' ∧
    response.msgType = some .ack ∧
    applied s.kvServer.dataStore.store request = some s'.kvServer.dataStore.store

def Honourable (c : CacheConfig) (request : KVMessage) : Prop :=
  (∃ k, request.key = some k ∧ KeyOk k ∧ c.InRange k) ∧
    (request.msgType = some .putReq → ∃ v, request.value = some v ∧ ValueOk v)

variable {s : Slave c} {request commit : KVMessage}

theorem finalState_run_logged (h : Logged request) :
    (finalState (run request s)).tpcLog = s.tpcLog.appendAndFlush request ∧
      (finalState (run request s)).kvServer.dataStore.store =
        contentsAfter c request s.tpcLog.getLastEntry s.kvServer.dataStore.store := by
  simp only [run, bind, EStateM.bind, logRequest_run s h, finalState_respond]
  exact execute_finalState _ request _

theorem finalState_run_get (h : request.msgType = some .getReq) :
    (finalState (run request s)).tpcLog = s.tpcLog ∧
      (finalState (run request s)).kvServer.dataStore.store = s.kvServer.dataStore.store := by
  have hlog : logRequest request s = .ok none s := by simp only [logRequest, h]; rfl
  simp only [run, bind, EStateM.bind, hlog, finalState_respond]
  obtain ⟨hl, hs⟩ := execute_finalState s request none
  exact ⟨hl, hs.trans (contentsAfter_of_ne (by simp [h]) none _)⟩

theorem afterAll_gets {gets : List KVMessage} (h : ∀ g ∈ gets, g.msgType = some .getReq) :
    (afterAll s gets).tpcLog = s.tpcLog ∧
      (afterAll s gets).kvServer.dataStore.store = s.kvServer.dataStore.store := by
  induction gets generalizing s with
  | nil => exact ⟨rfl, rfl⟩
  | cons g gets ih =>
    obtain ⟨hl, hs⟩ := ih (s := finalState (run g s)) fun g' hg' => h g' (List.mem_cons_of_mem _ hg')
    obtain ⟨hl', hs'⟩ := finalState_run_get (s := s) (h g List.mem_cons_self)
    exact ⟨hl.trans hl', hs.trans hs'⟩

theorem run_commit_ok (hc : commit.msgType = some .commit) (hlast : s.tpcLog.getLastEntry = some request)
    {m : PlainMap} (hm : c.perform s.kvServer.dataStore.store request = some m) :
    ∃ s', run commit s = .ok (.ofType .ack) s' ∧ s'.kvServer.dataStore.store = m := by
  obtain ⟨d, hd, hstore⟩ := applyEntry_ok s.kvServer hm
  have hlogged : Logged commit := by simp [Logged, hc]
  refine ⟨⟨d, s.tpcLog.appendAndFlush commit⟩, ?_, hstore⟩
  simp only [run, bind, EStateM.bind, logRequest_run s hlogged, respond, execute, hc, hlast, Slave.onServer, hd]
  rfl

theorem run_commit_error (hc : commit.msgType = some .commit) (hlast : s.tpcLog.getLastEntry = some request)
    (hm : c.perform s.kvServer.dataStore.store request = none) {response : KVMessage} {s' : Slave c}
    (hrun : run commit s = .ok response s') : response.msgType ≠ some .ack := by
  obtain ⟨e, d, hd, -⟩ := applyEntry_error s.kvServer hm
  have hlogged : Logged commit := by simp [Logged, hc]
  simp only [run, bind, EStateM.bind, logRequest_run s hlogged, respond, execute, hc, hlast, Slave.onServer,
    hd] at hrun
  split at hrun
  · cases hrun
    simp [failure, hc, KVMessage.ofType]
  · cases hrun

theorem perform_eq_applied {m : PlainMap} (h : Honourable c request)
    (ht : request.msgType = some .putReq ∨ request.msgType = some .delReq)
    (hstored : request.msgType = some .delReq → (request.key.bind m).isSome) :
    ∃ m', c.perform m request = some m' ∧ applied m request = some m' := by
  obtain ⟨⟨k, hk, hok, hi⟩, hvalue⟩ := h
  have hkey : admitKey request.key = .ok k := KVServer.admitKey_ok_iff.mpr ⟨hk, hok⟩
  rcases ht with ht | ht
  · obtain ⟨v, hv, hvok⟩ := hvalue ht
    have hval : admitValue request.value = .ok v := KVServer.admitValue_ok_iff.mpr ⟨hv, hvok⟩
    refine ⟨Function.update m k (some v), ?_, ?_⟩
    · simp only [CacheConfig.perform, ht, hkey, hval, if_pos hi]
    · simp only [applied, ht, hk, hv]
  · have hmk : (m k).isSome := by simpa [hk] using hstored ht
    refine ⟨Function.update m k none, ?_, ?_⟩
    · simp only [CacheConfig.perform, ht, hkey, if_pos (And.intro hi hmk)]
    · simp only [applied, ht, hk]

theorem honourable_of_perform {m m' : PlainMap} (hm : c.perform m request = some m')
    (ht : request.msgType = some .putReq ∨ request.msgType = some .delReq) : Honourable c request := by
  unfold CacheConfig.perform at hm
  rcases ht with ht | ht
  · simp only [ht] at hm
    split at hm
    · rename_i k v hkey hval
      obtain ⟨hk, hok⟩ := KVServer.admitKey_ok_iff.mp hkey
      obtain ⟨hv, hvok⟩ := KVServer.admitValue_ok_iff.mp hval
      split at hm
      · rename_i hi
        exact ⟨⟨k, hk, hok, hi⟩, fun _ => ⟨v, hv, hvok⟩⟩
      · cases hm
    · cases hm
  · simp only [ht] at hm
    split at hm
    · rename_i k hkey
      obtain ⟨hk, hok⟩ := KVServer.admitKey_ok_iff.mp hkey
      split at hm
      · rename_i hi
        exact ⟨⟨k, hk, hok, hi.1⟩, fun hput => by simp [ht] at hput⟩
      · cases hm
    · cases hm

theorem VotesReady.stored (h : VotesReady s request) (ht : request.msgType = some .delReq) :
    (request.key.bind s.kvServer.dataStore.store).isSome := by
  obtain ⟨response, s', hrun, hready⟩ := h
  have hlogged : Logged request := by simp [Logged, ht]
  simp only [run, bind, EStateM.bind, logRequest_run s hlogged, respond, execute_delReq _ ht] at hrun
  cases hrun
  by_contra hno
  rw [if_neg hno] at hready
  split at hready <;> cases hready

theorem keeps_iff (ht : request.msgType = some .putReq ∨ request.msgType = some .delReq)
    (hready : VotesReady s request) {gets : List KVMessage} (hgets : ∀ g ∈ gets, g.msgType = some .getReq)
    (hc : commit.msgType = some .commit) :
    Keeps s request gets commit ↔ Honourable c request := by
  have hlogged : Logged request := by rcases ht with ht | ht <;> simp [Logged, ht]
  have hcommit : request.msgType ≠ some .commit := by rcases ht with ht | ht <;> simp [ht]
  obtain ⟨hlog, hstore⟩ := finalState_run_logged (s := s) hlogged
  obtain ⟨hlog', hstore'⟩ := afterAll_gets (s := finalState (run request s)) hgets
  rw [contentsAfter_of_ne hcommit] at hstore
  -- When the commit comes the request is the last entry and the contents are the old ones.
  have hlast : (afterAll s (request :: gets)).tpcLog.getLastEntry = some request := by
    change (afterAll (finalState (run request s)) gets).tpcLog.getLastEntry = _
    rw [hlog', hlog]
    simp [TPCLog.getLastEntry, TPCLog.appendAndFlush]
  have hcontents : (afterAll s (request :: gets)).kvServer.dataStore.store = s.kvServer.dataStore.store :=
    hstore'.trans hstore
  constructor
  · rintro ⟨response, s', hrun, hack, -⟩
    cases hm : c.perform s.kvServer.dataStore.store request with
    | none => exact absurd hack (run_commit_error hc hlast (hcontents ▸ hm) hrun)
    | some m => exact honourable_of_perform hm ht
  · intro h
    obtain ⟨m, hm, happlied⟩ := perform_eq_applied h ht hready.stored
    obtain ⟨s', hrun, hs'⟩ := run_commit_ok hc hlast (hcontents ▸ hm)
    exact ⟨_, s', hrun, rfl, happlied.trans (congrArg some hs'.symm)⟩

def freshSlave : Slave ⟨1, 1, Nat.one_pos, Nat.one_pos⟩ := .init _

def putRequest (key value : JString) : KVMessage := { msgType := some .putReq, key := some key, value := some value }

def getRequest (key : JString) : KVMessage := { msgType := some .getReq, key := some key }

theorem keeps_putRequest : VotesReady freshSlave (putRequest [107] [118]) ∧
    Keeps freshSlave (putRequest [107] [118]) [getRequest [107]] (.ofType .commit) := by
  have hready : VotesReady freshSlave (putRequest [107] [118]) := ⟨_, _, rfl, rfl⟩
  have hgets : ∀ g ∈ [getRequest [107]], g.msgType = some .getReq := by simp [getRequest]
  refine ⟨hready, (keeps_iff (.inl rfl) hready hgets rfl).mpr ⟨⟨[107], rfl, by decide, by decide⟩, fun _ => ?_⟩⟩
  exact ⟨[118], rfl, by decide⟩

theorem not_keeps_emptyKey : VotesReady freshSlave (putRequest [] [118]) ∧
    ∃ s', run (.ofType .commit) (afterAll freshSlave [putRequest [] [118]]) =
      .ok (.ofType .abort (some errorInvalidKey)) s' :=
  ⟨⟨_, _, rfl, rfl⟩, _, rfl⟩

end Cs162.Kvstore.MasterHandler
