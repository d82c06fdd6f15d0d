import Mathlib.Data.List.Basic
import Cs162.Kvstore.NodeInvariant

namespace Cs162.Kvstore
open MasterHandler Lib

namespace CacheConfig
variable {c : CacheConfig} {log : List KVMessage} {req d : KVMessage}

def Settled (c : CacheConfig) (log : List KVMessage) : Prop :=
  ∀ q m, c.replay log = some (q, m) → q = none ∧ m = c.applied log

theorem settled_nil : c.Settled [] := by
  rintro q m ⟨⟩
  exact ⟨rfl, rfl⟩

theorem Settled.replays (h : c.Settled log) : c.Replays log := fun q m hr => (h q m hr).2

theorem replay_snoc_eq_some {q : Option KVMessage} {m : PlainMap} {entry : KVMessage}
    (h : c.replay (log ++ [entry]) = some (q, m)) :
    ∃ p m', c.replay log = some (p, m') ∧ c.replayStep (p, m') entry = some (q, m) := by
  rw [c.replay_snoc, Option.bind_eq_some_iff] at h
  obtain ⟨⟨p, m'⟩, hlog, hstep⟩ := h
  exact ⟨p, m', hlog, hstep⟩

theorem applied_snoc_of_ne (h : d.msgType ≠ some .commit) : c.applied (log ++ [d]) = c.applied log := by
  rw [c.applied_snoc, contentsAfter_of_ne h]

theorem Replays.snoc_of_ne (h : c.Replays log) (hd : d.msgType ≠ some .commit) :
    c.Replays (log ++ [d]) := by
  intro q m hr
  obtain ⟨p, m', hlog, hstep⟩ := replay_snoc_eq_some hr
  have hnull : d.msgType ≠ none := by
    intro hn
    simp [replayStep, hn] at hstep
  rw [c.replayStep_of_ne hnull hd, Option.some.injEq, Prod.mk.injEq] at hstep
  rw [← hstep.2, h p m' hlog, applied_snoc_of_ne hd]

theorem Replays.snoc_abort (h : c.Replays log) (hd : d.msgType = some .abort) :
    c.Settled (log ++ [d]) := by
  intro q m hr
  have hq := c.replay_fst hr
  rw [pending_snoc, pendingStep, hd] at hq
  exact ⟨hq, h.snoc_of_ne (by simp [hd]) q m hr⟩

theorem Settled.commit (h : c.Settled log) (hreq : IsRequest req) (hd : d.msgType = some .commit) :
    c.Settled (log ++ [req] ++ [d]) ∧
      c.applied (log ++ [req] ++ [d]) = (c.perform (c.applied log) req).getD (c.applied log) := by
  have hne : req.msgType ≠ some .commit := by rcases hreq with ht | ht <;> simp [ht]
  have happ : c.applied (log ++ [req] ++ [d]) = (c.perform (c.applied log) req).getD (c.applied log) := by
    rw [c.applied_snoc, contentsAfter_commit hd, applied_snoc_of_ne hne, List.getLast?_concat]
    rfl
  refine ⟨?_, happ⟩
  intro q m hr
  obtain ⟨p, m', hreplay, hstep⟩ := replay_snoc_eq_some hr
  have hp : p = some req := by
    rw [c.replay_fst hreplay, pending_snoc, pendingStep]
    rcases hreq with ht | ht <;> rw [ht]
  have hm' : m' = c.applied log := by
    rw [h.replays.snoc_of_ne hne p m' hreplay, applied_snoc_of_ne hne]
  subst hp hm'
  simp only [replayStep, hd, Option.map_eq_some_iff, Prod.mk.injEq] at hstep
  obtain ⟨m'', hperf, rfl, rfl⟩ := hstep
  rw [happ, hperf]
  exact ⟨rfl, rfl⟩

theorem Settled.commit_again (h : c.Settled (log ++ [d])) (hd : d.msgType = some .commit) :
    c.Settled (log ++ [d] ++ [d]) ∧ c.applied (log ++ [d] ++ [d]) = c.applied (log ++ [d]) := by
  have hperf : c.perform (c.applied (log ++ [d])) d = some (c.applied (log ++ [d])) :=
    c.perform_of_not_isRequest _ (by simp [hd]) (by simp [IsRequest, hd])
  have happ : c.applied (log ++ [d] ++ [d]) = c.applied (log ++ [d]) := by
    rw [c.applied_snoc, contentsAfter_commit hd, List.getLast?_concat, Option.bind_some, hperf]
    rfl
  refine ⟨?_, happ⟩
  intro q m hr
  obtain ⟨p, m', hreplay, hstep⟩ := replay_snoc_eq_some hr
  obtain ⟨rfl, rfl⟩ := h p m' hreplay
  simp only [replayStep, hd, Option.some.injEq, Prod.mk.injEq] at hstep
  exact ⟨hstep.1.symm, by rw [← hstep.2, happ]⟩

theorem Settled.commits (h : c.Settled log) (hreq : IsRequest req) (hd : d.msgType = some .commit)
    (a : ℕ) : c.Settled (log ++ [req] ++ List.replicate (a + 1) d) ∧
      c.applied (log ++ [req] ++ List.replicate (a + 1) d) =
        (c.perform (c.applied log) req).getD (c.applied log) := by
  induction a with
  | zero => exact h.commit hreq hd
  | succ a ih =>
    rw [List.replicate_succ', ← List.append_assoc] at ih
    rw [List.replicate_succ', List.replicate_succ', ← List.append_assoc, ← List.append_assoc]
    obtain ⟨hset, happ⟩ := ih.1.commit_again hd
    exact ⟨hset, happ.trans ih.2⟩

theorem Replays.repeat_of_ne (h : c.Replays log) (hne : d.msgType ≠ some .commit) (a : ℕ) :
    c.Replays (log ++ List.replicate a d) ∧ c.applied (log ++ List.replicate a d) = c.applied log := by
  induction a with
  | zero => simpa using h
  | succ a ih =>
    rw [List.replicate_succ', ← List.append_assoc]
    exact ⟨ih.1.snoc_of_ne hne, (applied_snoc_of_ne hne).trans ih.2⟩

end CacheConfig

def fresh (log queue : List KVMessage) : Prop := log = [] ∧ queue = []

def voting (req : KVMessage) (log queue : List KVMessage) : Prop := (log ++ queue).Sublist [req]

def voted (req : KVMessage) (log queue : List KVMessage) : Prop := log = [req] ∧ queue = []

def committing (req d : KVMessage) (log queue : List KVMessage) : Prop :=
  ∃ a b, log = [req] ++ List.replicate a d ∧ queue = List.replicate b d

def aborting (req d : KVMessage) (log queue : List KVMessage) : Prop :=
  ∃ k, (log ++ queue).Sublist (req :: List.replicate k d)

def deciding (req d : KVMessage) : List KVMessage → List KVMessage → Prop :=
  if d.msgType = some .commit then committing req d else aborting req d

def decided (req d : KVMessage) (log queue : List KVMessage) : Prop :=
  (deciding req d log [] ∧ ∃ before, log = before ++ [d]) ∧ queue = []

section Stages
variable {req d : KVMessage} {log queue : List KVMessage}

theorem drains_fresh : Drains fresh := drains_done _
theorem drains_voting : Drains (voting req) := drains_sublist _
theorem drains_voted : Drains (voted req) := drains_done _
theorem drains_decided : Drains (decided req d) := drains_done _

theorem drains_deciding : Drains (deciding req d) := by
  unfold deciding
  split_ifs
  · exact drains_repeat [req] d
  · exact drains_exists fun k => drains_sublist _

theorem fresh.send (h : fresh log queue) : voting req log (queue ++ [req]) := by
  obtain ⟨rfl, rfl⟩ := h
  exact List.Sublist.refl _

theorem fresh.voting (h : fresh log queue) : voting req log queue := by
  obtain ⟨rfl, rfl⟩ := h
  exact List.nil_sublist _

theorem voted.voting (h : voted req log queue) : Kvstore.voting req log queue := by
  obtain ⟨rfl, rfl⟩ := h
  exact List.Sublist.refl _

theorem voted.deciding (h : voted req log queue) (hd : d.msgType = some .commit) :
    Kvstore.deciding req d log queue := by
  obtain ⟨rfl, rfl⟩ := h
  rw [Kvstore.deciding, if_pos hd]
  exact ⟨0, 0, rfl, rfl⟩

theorem voting.deciding (h : voting req log queue) (hd : d.msgType ≠ some .commit) :
    Kvstore.deciding req d log queue := by
  rw [Kvstore.deciding, if_neg hd]
  exact ⟨0, h⟩

theorem deciding.send (h : deciding req d log queue) : deciding req d log (queue ++ [d]) := by
  unfold deciding at h ⊢
  split_ifs at h ⊢
  · obtain ⟨a, b, rfl, rfl⟩ := h
    exact ⟨a, b + 1, rfl, List.replicate_succ'.symm⟩
  · obtain ⟨k, hk⟩ := h
    refine ⟨k + 1, ?_⟩
    rw [← List.append_assoc, List.replicate_succ', ← List.cons_append]
    exact hk.append (List.Sublist.refl [d])

theorem decided.deciding (h : decided req d log queue) : Kvstore.deciding req d log queue := by
  obtain ⟨⟨h, -⟩, rfl⟩ := h
  exact h

end Stages

def Decides (d : KVMessage) : Prop := d.msgType = some .commit ∨ d.msgType = some .abort

namespace CacheConfig
variable {c : CacheConfig} {base log queue : List KVMessage} {req d : KVMessage} {k key : JString}

def outcome (c : CacheConfig) (base : List KVMessage) (req d : KVMessage) : PlainMap :=
  if d.msgType = some .commit then (c.perform (c.applied base) req).getD (c.applied base)
  else c.applied base

theorem perform_other {m : PlainMap} (hkey : req.key = some key) (hk : k ≠ key) :
    ((c.perform m req).getD m) k = m k := by
  unfold perform
  split
  · rfl
  · split
    · next k' v hadmit _ =>
      obtain rfl : key = k' := by simpa [hkey] using (KVServer.admitKey_ok_iff.mp hadmit).1
      split_ifs <;> simp [hk]
    · rfl
  · split
    · next k' hadmit =>
      obtain rfl : key = k' := by simpa [hkey] using (KVServer.admitKey_ok_iff.mp hadmit).1
      split_ifs <;> simp [hk]
    · rfl
  · rfl

theorem perform_congr {m m' : PlainMap} (hkey : req.key = some key) (h : m key = m' key) :
    ((c.perform m req).getD m) key = ((c.perform m' req).getD m') key := by
  unfold perform
  split
  · exact h
  · split
    · next k' v hadmit _ =>
      obtain rfl : key = k' := by simpa [hkey] using (KVServer.admitKey_ok_iff.mp hadmit).1
      split_ifs <;> simp [h]
    · exact h
  · split
    · next k' hadmit =>
      obtain rfl : key = k' := by simpa [hkey] using (KVServer.admitKey_ok_iff.mp hadmit).1
      rw [h]
      split_ifs <;> simp [h]
    · exact h
  · exact h

theorem outcome_other (hkey : req.key = some key) (hk : k ≠ key) :
    c.outcome base req d k = c.applied base k := by
  unfold outcome
  split_ifs
  · exact perform_other hkey hk
  · rfl

theorem outcome_congr {base' : List KVMessage} (hkey : req.key = some key)
    (h : c.applied base key = c.applied base' key) :
    c.outcome base req d key = c.outcome base' req d key := by
  unfold outcome
  split_ifs
  · exact perform_congr hkey h
  · exact h

theorem Settled.voting (h : c.Settled base) (hreq : IsRequest req) (hs : voting req log queue) :
    c.Replays (base ++ log) ∧ c.applied (base ++ log) = c.applied base := by
  have hne : req.msgType ≠ some .commit := by rcases hreq with ht | ht <;> simp [ht]
  have hlog : log.Sublist [req] := (List.sublist_append_left log queue).trans hs
  rcases List.sublist_singleton.mp hlog with rfl | rfl
  · simpa using h.replays
  · exact ⟨h.replays.snoc_of_ne hne, applied_snoc_of_ne hne⟩

theorem Settled.aborting (h : c.Settled base) (hreq : IsRequest req) (hd : d.msgType ≠ some .commit)
    {n : ℕ} (hs : log.Sublist (req :: List.replicate n d)) :
    c.Replays (base ++ log) ∧ c.applied (base ++ log) = c.applied base := by
  have hne : req.msgType ≠ some .commit := by rcases hreq with ht | ht <;> simp [ht]
  rcases List.sublist_cons_iff.mp hs with hrest | ⟨rest, rfl, hrest⟩
  · obtain ⟨j, -, rfl⟩ := List.sublist_replicate_iff.mp hrest
    exact h.replays.repeat_of_ne hd j
  · obtain ⟨j, -, rfl⟩ := List.sublist_replicate_iff.mp hrest
    rw [List.append_cons]
    obtain ⟨hrep, happ⟩ := (h.replays.snoc_of_ne hne).repeat_of_ne hd j
    exact ⟨hrep, happ.trans (applied_snoc_of_ne hne)⟩

theorem Settled.deciding (h : c.Settled base) (hreq : IsRequest req)
    (hs : deciding req d log queue) : c.Replays (base ++ log) ∧
      (c.applied (base ++ log) = c.applied base ∨ c.applied (base ++ log) = c.outcome base req d) := by
  by_cases hd : d.msgType = some .commit
  · rw [Kvstore.deciding, if_pos hd] at hs
    obtain ⟨a, b, rfl, -⟩ := hs
    rw [← List.append_assoc]
    cases a with
    | zero =>
      have hvoted : voted req [req] [] := ⟨rfl, rfl⟩
      obtain ⟨hrep, happ⟩ := h.voting hreq hvoted.voting
      rw [List.replicate_zero, List.append_nil]
      exact ⟨hrep, .inl happ⟩
    | succ a =>
      obtain ⟨hset, happ⟩ := h.commits hreq hd a
      exact ⟨hset.replays, .inr (by rw [happ, outcome, if_pos hd])⟩
  · rw [Kvstore.deciding, if_neg hd] at hs
    obtain ⟨n, hn⟩ := hs
    obtain ⟨hrep, happ⟩ := h.aborting hreq hd ((List.sublist_append_left log queue).trans hn)
    exact ⟨hrep, .inl happ⟩

theorem Settled.decided (h : c.Settled base) (hreq : IsRequest req) (hd : Decides d)
    (hs : decided req d log queue) :
    c.Settled (base ++ log) ∧ c.applied (base ++ log) = c.outcome base req d := by
  obtain ⟨⟨hs, before, rfl⟩, -⟩ := hs
  rcases hd with hd | hd
  · rw [Kvstore.deciding, if_pos hd] at hs
    obtain ⟨a, b, hlog, -⟩ := hs
    cases a with
    | zero =>
      -- The last entry is the decision, so it is not the request alone.
      obtain ⟨rfl, rfl⟩ : before = [] ∧ d = req := by simpa [List.append_eq_cons_iff] using hlog
      rcases hreq with ht | ht <;> simp [ht] at hd
    | succ a =>
      obtain ⟨hset, happ⟩ := h.commits hreq hd a
      rw [hlog, ← List.append_assoc, outcome, if_pos hd]
      exact ⟨hset, happ⟩
  · have hne : d.msgType ≠ some .commit := by simp [hd]
    rw [Kvstore.deciding, if_neg hne] at hs
    obtain ⟨n, hn⟩ := hs
    rw [List.append_nil] at hn
    obtain ⟨hrep, -⟩ := h.aborting hreq hne ((List.sublist_append_left before [d]).trans hn)
    obtain ⟨-, happ⟩ := h.aborting hreq hne hn
    rw [happ, outcome, if_neg hne, ← List.append_assoc]
    exact ⟨hrep.snoc_abort hd, rfl⟩

end CacheConfig
end Cs162.Kvstore
