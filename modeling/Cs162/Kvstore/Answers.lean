import Cs162.Kvstore.TxnLog
import Cs162.Kvstore.Exchange

namespace Cs162.Kvstore
open MasterHandler Lib

variable {c : CacheConfig} {s s' : Slave c} {request r req d : KVMessage} {phase1 : Option KVMessage}

theorem logged_of_isRequest (h : IsRequest request) : Logged request := by
  rcases h with ht | ht <;> simp [Logged, ht]

theorem execute_msgType (h : execute request phase1 s = .ok r s') :
    (IsRequest request ∧
        ((r.msgType = some .ready ∧ rejectsKey request.key = false) ∨ r.msgType = some .abort)) ∨
      (Decides request ∧ r.msgType = some .ack) ∨ r.msgType = some .resp := by
  cases ht : request.msgType with
  | none => simp [execute, ht, JavaM.throw_apply] at h
  | some t =>
    cases t with
    | getReq =>
      simp only [execute, ht, bind, EStateM.bind] at h
      split at h <;> cases h
      exact .inr (.inr rfl)
    | putReq =>
      simp only [execute, ht, pure, EStateM.pure, EStateM.Result.ok.injEq] at h
      refine .inl ⟨.inl ht, ?_⟩
      rw [← h.1]
      split_ifs with hkey
      · exact .inr rfl
      · exact .inl ⟨rfl, by simpa using hkey⟩
    | delReq =>
      rw [execute_delReq s ht, EStateM.Result.ok.injEq] at h
      refine .inl ⟨.inr ht, ?_⟩
      rw [← h.1]
      split_ifs with hkey
      · exact .inr rfl
      · exact .inl ⟨rfl, by simpa using hkey⟩
      · exact .inr rfl
    | commit =>
      cases phase1 with
      | none => simp [execute, ht, JavaM.throw_apply] at h
      | some p =>
        simp only [execute, ht, bind, EStateM.bind] at h
        split at h <;> cases h
        exact .inr (.inl ⟨.inl ht, rfl⟩)
    | abort =>
      simp only [execute, ht, pure, EStateM.pure, EStateM.Result.ok.injEq] at h
      rw [← h.1]
      exact .inr (.inl ⟨.inr ht, rfl⟩)
    | _ =>
      simp only [execute, ht, pure, EStateM.pure, EStateM.Result.ok.injEq] at h
      rw [← h.1]
      exact .inr (.inr rfl)

theorem respond_msgType (h : respond request phase1 s = .ok r s') :
    (IsRequest request ∧ r.msgType = some .ready ∧ rejectsKey request.key = false) ∨
      (Decides request ∧ r.msgType = some .ack) ∨ r.msgType = some .abort ∨ r.msgType = some .resp := by
  unfold respond at h
  split at h
  · next kvm s'' hexec =>
    cases h
    unfold MasterHandler.failure
    split_ifs
    · exact .inr (.inr (.inr rfl))
    · exact .inr (.inr (.inl rfl))
  · rcases execute_msgType h with ⟨hreq, ht | ht⟩ | hack | ht
    · exact .inl ⟨hreq, ht⟩
    · exact .inr (.inr (.inl ht))
    · exact .inr (.inl hack)
    · exact .inr (.inr (.inr ht))

def IsVote (req r : KVMessage) : Prop :=
  (r.msgType = some .ready ∧ rejectsKey req.key = false) ∨ r.msgType = some .abort ∨ r.msgType = some .resp

def afterVote (req r : KVMessage) : List KVMessage → List KVMessage → Prop :=
  if r.msgType = some .ready then voted req else voting req

def IsReply (d r : KVMessage) : Prop := r.msgType ≠ none ∧ (r.msgType = some .ack → Decides d)

def afterDecision (req d r : KVMessage) : List KVMessage → List KVMessage → Prop :=
  if r.msgType = some .ack then decided req d else deciding req d

theorem drains_afterVote : Drains (afterVote req r) := by
  unfold afterVote
  split_ifs
  · exact drains_voted
  · exact drains_voting

theorem afterDecision_of_ack (h : r.msgType = some .ack) : afterDecision req d r = decided req d := if_pos h

theorem drains_afterDecision : Drains (afterDecision req d r) := by
  unfold afterDecision
  split_ifs
  · exact drains_decided
  · exact drains_deciding

theorem answers_vote (hreq : IsRequest req) (base : List KVMessage) :
    Node.Answers c (IsVote req) (voting req) (afterVote req) base req where
  unread error := ⟨.inr (.inr rfl), fun h => h⟩
  executed := by
    intro n job p r s _ _ hw _ hjob hr
    have hexec : n.worker.executing = [req] := by
      simp [Worker.executing, hw, hjob, logged_of_isRequest hreq]
    have hno : ¬ Decides req := by
      rcases hreq with ht | ht <;> simp [Decides, ht]
    have hvote : IsVote req r := by
      rcases respond_msgType hr with ⟨-, ht⟩ | ⟨hd, -⟩ | ht | ht
      · exact .inl ht
      · exact absurd hd hno
      · exact .inr (.inl ht)
      · exact .inr (.inr ht)
    refine ⟨hvote, fun {done} hvoting => ?_⟩
    rw [hexec] at hvoting ⊢
    unfold afterVote
    split_ifs
    · -- The request is carried out once, so nothing was logged before it.
      have hsub : (done ++ [req]).Sublist [req] := hvoting
      have hlen := hsub.length_le
      obtain rfl : done = [] := by
        rw [List.length_append, List.length_singleton] at hlen
        exact List.length_eq_zero_iff.mp (by omega)
      exact ⟨rfl, rfl⟩
    · exact drains_voting.append hvoting

theorem answers_decision (hl : Logged d) (base : List KVMessage) :
    Node.Answers c (IsReply d) (deciding req d) (afterDecision req d) base d where
  unread error := ⟨⟨by simp [KVMessage.ofType], by simp [KVMessage.ofType]⟩, fun h => h⟩
  executed := by
    intro n job p r s _ _ hw _ hjob hr
    have hexec : n.worker.executing = [d] := by simp [Worker.executing, hw, hjob, hl]
    have hreply : IsReply d r := by
      rcases respond_msgType hr with ⟨-, ht, -⟩ | ⟨hd, ht⟩ | ht | ht
      · simp [IsReply, ht]
      · exact ⟨by simp [ht], fun _ => hd⟩
      · simp [IsReply, ht]
      · simp [IsReply, ht]
    refine ⟨hreply, fun {done} hdeciding => ?_⟩
    rw [hexec] at hdeciding ⊢
    have hdone := drains_deciding.append hdeciding
    unfold afterDecision
    split_ifs
    · exact ⟨⟨hdone, done, rfl⟩, rfl⟩
    · exact hdone

theorem KVServer.CacheOk.get_value {s s' : KVServer c} (h : s.CacheOk) {k v : JString}
    (hr : KVServer.get (some k) s = .ok v s') : s.dataStore.store k = some v := by
  cases hk : admitKey (some k) with
  | error e => simp [get_key_error s hk] at hr
  | ok k' =>
    obtain rfl : k = k' := Option.some.inj (admitKey_ok_iff.mp hk).1
    cases hi : c.setIndex? k with
    | none => simp [get_index_error s hk hi] at hr
    | some i =>
      cases hc : (KVCache.getScan k (s.dataCache.sets i)).1 with
      | some v' =>
        rw [get_hit s hk hi hc, EStateM.Result.ok.injEq] at hr
        rw [← hr.1]
        exact h.getScan_value hc
      | none =>
        cases hv : s.dataStore.store k with
        | some v' =>
          rw [get_miss s hk hi hc hv, EStateM.Result.ok.injEq] at hr
          rw [hr.1]
        | none => simp [get_absent s hk hi hc hv] at hr

def IsValue (c : CacheConfig) (base : List KVMessage) (key : JString) (r : KVMessage) : Prop :=
  ∀ v, r.value = some v → c.applied base key = some v

theorem respond_get {key : JString} (hs : s.kvServer.CacheOk) (ht : request.msgType = some .getReq)
    (hkey : request.key = some key) (hr : respond request phase1 s = .ok r s') {v : JString}
    (hv : r.value = some v) : s.kvServer.dataStore.store key = some v := by
  unfold respond at hr
  split at hr
  · cases hr
    simp [MasterHandler.failure, KVMessage.ofType] at hv
  · simp only [execute, ht, hkey, bind, EStateM.bind, Slave.onServer] at hr
    cases hget : KVServer.get (some key) s.kvServer with
    | ok v' d =>
      rw [hget] at hr
      cases hr
      cases hv
      exact hs.get_value hget
    | error e d =>
      rw [hget] at hr
      cases hr

theorem answers_get {key : JString} (ht : req.msgType = some .getReq) (hkey : req.key = some key)
    (base : List KVMessage) :
    Node.Answers c (IsValue c base key) fresh (fun _ => fresh) base req where
  unread error := ⟨by simp [IsValue, KVMessage.ofType], fun h => h⟩
  executed := by
    rintro n job p r s hs ⟨done, hlog, ⟨rfl, -⟩⟩ hw - rfl hr
    have hnl : ¬ Logged job.request := not_logged_iff.mpr (.inr ht)
    have hexec : n.worker.executing = [] := by simp [Worker.executing, hw, hnl]
    rw [hexec, List.append_nil, List.append_nil] at hlog
    refine ⟨fun v hv => ?_, fun {done} h => by simpa [hexec] using h⟩
    have hup := hs.up_of_worker (by simp [hw])
    have hstore : n.store = c.applied n.log := by
      refine hs.store hup fun job' p' hw' => ?_
      rw [hw] at hw'
      cases hw'
      exact hnl
    rw [← hlog, ← hstore]
    exact respond_get hs.cache ht hkey hr hv

end Cs162.Kvstore
