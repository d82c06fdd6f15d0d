import Cs162.Kvstore.Answers
import Cs162.Kvstore.Talk

namespace Cs162.Kvstore
open MasterHandler Lib

def ClusterConfig.Replicas (g : ClusterConfig) (key : JString) (slave1 slave2 : ℤ) : Prop :=
  findFirstReplica g.ids (longToString (hashTo64bit key)) = some slave1 ∧
    findSuccessor g.ids slave1 = some slave2

instance (g : ClusterConfig) (key : JString) (slave1 slave2 : ℤ) : Decidable (g.Replicas key slave1 slave2) :=
  inferInstanceAs (Decidable (_ ∧ _))

theorem ClusterConfig.Replicas.ne {g : ClusterConfig} {key : JString} {slave1 slave2 : ℤ}
    (h : g.Replicas key slave1 slave2) : slave1 ≠ slave2 :=
  (findSuccessor_ne g.sorted g.two h.2).symm

def Retries (r : KVMessage) : Prop := r.msgType ≠ none ∧ r.msgType ≠ some .ack

theorem IsVote.retries {req r : KVMessage} (h : IsVote req r) : Retries r := by
  rcases h with ⟨ht, -⟩ | ht | ht <;> simp [Retries, ht]

theorem IsReply.ack_or_retries {d r : KVMessage} (h : IsReply d r) : r.msgType = some .ack ∨ Retries r := by
  by_cases hr : r.msgType = some .ack
  · exact .inl hr
  · exact .inr ⟨h.1, hr⟩

theorem IsVote.logged {req r : KVMessage} (h : IsVote req r) : Logged r := by
  rcases h with ⟨ht, -⟩ | ht | ht <;> simp [Logged, ht]

theorem IsVote.ne_commit {req r : KVMessage} (h : IsVote req r) : r.msgType ≠ some .commit := by
  rcases h with ⟨ht, -⟩ | ht | ht <;> simp [ht]

theorem isVote_abort (req : KVMessage) (error : Option String) : IsVote req (.ofType .abort error) :=
  .inr (.inl rfl)

def CommitOk (req d : KVMessage) : Prop := d.msgType = some .commit → rejectsKey req.key = false

def asked (req : KVMessage) (line : Line) : List KVMessage → List KVMessage → Prop :=
  if line = .closed then fresh else voting req

theorem asked_voting {req : KVMessage} {line : Line} {log queue : List KVMessage}
    (h : asked req line log queue) : voting req log queue := by
  unfold asked at h
  split_ifs at h
  · exact fresh.voting h
  · exact h

theorem drains_asked {req : KVMessage} {line : Line} : Drains (asked req line) := by
  unfold asked
  split_ifs
  · exact drains_fresh
  · exact drains_voting

theorem afterVote_voting {req r : KVMessage} {log queue : List KVMessage} (h : afterVote req r log queue) :
    voting req log queue := by
  unfold afterVote at h
  split_ifs at h
  · exact voted.voting h
  · exact h

namespace Txn
variable {g : ClusterConfig} {t : Txn} {line : Line} {r d : KVMessage} {log queue : List KVMessage}

def stage1 (t : Txn) (line : Line) : List KVMessage → List KVMessage → Prop :=
  match t.stage with
  | .vote1 => asked t.msg line
  | .vote2 response1 => afterVote t.msg response1
  | .decide1 decision .. => deciding t.msg decision
  | .decide2 decision _ => decided t.msg decision

def stage2 (t : Txn) (line : Line) : List KVMessage → List KVMessage → Prop :=
  match t.stage with
  | .vote1 => fresh
  | .vote2 _ => asked t.msg line
  | .decide1 decision .. | .decide2 decision _ => deciding t.msg decision

def stages (t : Txn) (line : Line) : Stages := fun i =>
  if i = t.slave1 then t.stage1 line else if i = t.slave2 then t.stage2 line else fresh

def Valid (t : Txn) (r : KVMessage) : Prop :=
  match t.stage with
  | .vote1 | .vote2 _ => IsVote t.msg r
  | .decide1 decision .. | .decide2 decision _ => IsReply decision r

def after (t : Txn) (r : KVMessage) : List KVMessage → List KVMessage → Prop :=
  match t.stage with
  | .vote1 | .vote2 _ => afterVote t.msg r
  | .decide1 decision .. | .decide2 decision _ => afterDecision t.msg decision r

def StageOk (msg : KVMessage) : Stage → Prop
  | .vote1 => True
  | .vote2 response1 => IsVote msg response1
  | .decide1 decision response1 response2 =>
    (Logged decision ∧ CommitOk msg decision) ∧ Retries response1 ∧ Retries response2
  | .decide2 decision response2 => (Decides decision ∧ CommitOk msg decision) ∧ Retries response2

structure Ok (g : ClusterConfig) (t : Txn) : Prop where
  request : IsRequest t.msg
  key : t.msg.key = some t.key
  replicas : g.Replicas t.key t.slave1 t.slave2
  cached : g.masterCache.InRange t.key
  stage : StageOk t.msg t.stage

theorem Ok.goTo (h : t.Ok g) {stage : Stage} (hs : StageOk t.msg stage) : Ok g { t with stage := stage } :=
  ⟨h.request, h.key, h.replicas, h.cached, hs⟩

theorem forall_stages (hne : t.slave1 ≠ t.slave2) {Q : ℤ → (List KVMessage → List KVMessage → Prop) → Prop} :
    (∀ i, Q i (t.stages line i)) ↔ Q t.slave1 (t.stage1 line) ∧ Q t.slave2 (t.stage2 line) ∧
      ∀ i, i ≠ t.slave1 → i ≠ t.slave2 → Q i fresh := by
  have h1 : t.stages line t.slave1 = t.stage1 line := by simp [stages]
  have h2 : t.stages line t.slave2 = t.stage2 line := by simp [stages, hne.symm]
  have h3 : ∀ i, i ≠ t.slave1 → i ≠ t.slave2 → t.stages line i = fresh := by
    intro i hi1 hi2
    simp [stages, hi1, hi2]
  refine ⟨fun h => ⟨h1 ▸ h t.slave1, h2 ▸ h t.slave2, fun i hi1 hi2 => h3 i hi1 hi2 ▸ h i⟩, ?_⟩
  rintro ⟨hq1, hq2, hq3⟩ i
  by_cases hi1 : i = t.slave1
  · rw [hi1, h1]
    exact hq1
  · by_cases hi2 : i = t.slave2
    · rw [hi2, h2]
      exact hq2
    · rw [h3 i hi1 hi2]
      exact hq3 i hi1 hi2

theorem drains_stage1 : Drains (t.stage1 line) := by
  unfold stage1
  split
  · exact drains_asked
  · exact drains_afterVote
  · exact drains_deciding
  · exact drains_decided

theorem drains_stage2 : Drains (t.stage2 line) := by
  unfold stage2
  split
  · exact drains_fresh
  · exact drains_asked
  · exact drains_deciding
  · exact drains_deciding

theorem drains_stages (i : ℤ) : Drains (t.stages line i) := by
  unfold stages
  split_ifs
  · exact drains_stage1
  · exact drains_stage2
  · exact drains_fresh

theorem drains_after (r : KVMessage) : Drains (t.after r) := by
  unfold after
  split
  · exact drains_afterVote
  · exact drains_afterVote
  · exact drains_afterDecision
  · exact drains_afterDecision

section Replay
variable {c : CacheConfig} {base : List KVMessage}

theorem replays_fresh (hb : c.Settled base) (h : fresh log queue) : c.Replays (base ++ log) := by
  rw [h.1, List.append_nil]
  exact hb.replays

theorem replays_stage1 (hb : c.Settled base) (hreq : IsRequest t.msg) (h : t.stage1 line log queue) :
    c.Replays (base ++ log) := by
  unfold stage1 at h
  cases hs : t.stage <;> rw [hs] at h
  · exact (hb.voting hreq (asked_voting h)).1
  · exact (hb.voting hreq (afterVote_voting h)).1
  · exact (hb.deciding hreq h).1
  · exact (hb.deciding hreq (decided.deciding h)).1

theorem replays_stage2 (hb : c.Settled base) (hreq : IsRequest t.msg) (h : t.stage2 line log queue) :
    c.Replays (base ++ log) := by
  unfold stage2 at h
  cases hs : t.stage <;> rw [hs] at h
  · exact replays_fresh hb h
  · exact (hb.voting hreq (asked_voting h)).1
  · exact (hb.deciding hreq h).1
  · exact (hb.deciding hreq h).1

theorem replays_stages (hb : c.Settled base) (hreq : IsRequest t.msg) {i : ℤ}
    (h : t.stages line i log queue) : c.Replays (base ++ log) := by
  unfold stages at h
  split_ifs at h
  · exact replays_stage1 hb hreq h
  · exact replays_stage2 hb hreq h
  · exact replays_fresh hb h

end Replay

theorem Ok.answers (h : t.Ok g) (base : List KVMessage) :
    Node.Answers g.slaveCache t.Valid (t.stages .sent t.target) t.after base t.outgoing := by
  have hne := h.replicas.ne
  have hok := h.stage
  unfold Valid after stages target outgoing stage1 stage2
  cases hs : t.stage with
  | vote1 => simpa [asked] using answers_vote h.request base
  | vote2 r1 => simpa [asked, hne.symm] using answers_vote h.request base
  | decide1 d r1 r2 =>
    rw [hs] at hok
    simpa using answers_decision hok.1.1 base
  | decide2 d r2 =>
    rw [hs] at hok
    have hl : Logged d := by rcases hok.1.1 with ht | ht <;> simp [Logged, ht]
    simpa [hne.symm] using answers_decision hl base

theorem Ok.logged_outgoing (h : t.Ok g) : Logged t.outgoing := by
  have hok := h.stage
  unfold outgoing
  cases hs : t.stage with
  | vote1 => exact logged_of_isRequest h.request
  | vote2 r1 => exact logged_of_isRequest h.request
  | decide1 d r1 r2 =>
    rw [hs] at hok
    exact hok.1.1
  | decide2 d r2 =>
    rw [hs] at hok
    rcases hok.1.1 with ht | ht <;> simp [Logged, ht]

theorem Ok.stages_send (h : t.Ok g) (hst : t.stages .closed t.target log queue) :
    t.stages .sent t.target log (queue ++ [t.outgoing]) := by
  have hne := h.replicas.ne
  unfold stages target stage1 stage2 at hst ⊢
  unfold outgoing
  cases hs : t.stage with
  | vote1 =>
    simp only [hs, if_true, asked] at hst ⊢
    exact fresh.send hst
  | vote2 r1 =>
    simp only [hs, if_true, if_neg hne.symm, asked] at hst ⊢
    exact fresh.send hst
  | decide1 d r1 r2 =>
    simp only [hs, if_true] at hst ⊢
    exact deciding.send hst
  | decide2 d r2 =>
    simp only [hs, if_true, if_neg hne.symm] at hst ⊢
    exact deciding.send hst

theorem stages_of_ne {i : ℤ} (hi : i ≠ t.target) : t.stages .sent i = t.stages .closed i := by
  unfold target at hi
  unfold stages stage1 stage2
  cases hs : t.stage with
  | vote1 => simp_all
  | vote2 r1 => simp_all
  | decide1 d r1 r2 => rfl
  | decide2 d r2 => rfl

end Txn
end Cs162.Kvstore
