import Mathlib.Data.List.Induction
import Cs162.Kvstore.MasterHandler

namespace Cs162.Kvstore

namespace CacheConfig
variable (c : CacheConfig)

def liveStep (st : Option KVMessage × PlainMap) (entry : KVMessage) : Option KVMessage × PlainMap :=
  (some entry, MasterHandler.contentsAfter c entry st.1 st.2)

def applied (entries : List KVMessage) : PlainMap :=
  (entries.foldl c.liveStep (none, PlainMap.empty)).2

theorem liveStep_foldl_fst (entries : List KVMessage) :
    (entries.foldl c.liveStep (none, PlainMap.empty)).1 = entries.getLast? := by
  induction entries using List.reverseRecOn with
  | nil => rfl
  | append_singleton entries entry _ => simp [liveStep]

theorem applied_snoc (entries : List KVMessage) (entry : KVMessage) :
    c.applied (entries ++ [entry]) =
      MasterHandler.contentsAfter c entry entries.getLast? (c.applied entries) := by
  rw [applied, List.foldl_append, List.foldl_cons, List.foldl_nil, liveStep, liveStep_foldl_fst]
  rfl

end CacheConfig

def pendingStep (phase1Entry : Option KVMessage) (entry : KVMessage) : Option KVMessage :=
  match entry.msgType with
  | some .putReq | some .delReq => some entry
  | some .commit | some .abort => none
  | _ => phase1Entry

def pending (entries : List KVMessage) : Option KVMessage := entries.foldl pendingStep none

theorem pending_snoc (entries : List KVMessage) (entry : KVMessage) :
    pending (entries ++ [entry]) = pendingStep (pending entries) entry := by
  simp [pending]

def IsRequest (entry : KVMessage) : Prop :=
  entry.msgType = some .putReq ∨ entry.msgType = some .delReq

theorem CacheConfig.perform_of_not_isRequest (c : CacheConfig) (m : PlainMap) {entry : KVMessage}
    (hnull : entry.msgType ≠ none) (h : ¬ IsRequest entry) : c.perform m entry = some m := by
  unfold IsRequest at h
  unfold CacheConfig.perform
  split <;> simp_all

theorem pending_of_getLast? {entries : List KVMessage} {entry : KVMessage}
    (h : entries.getLast? = some entry) (hr : IsRequest entry) : pending entries = some entry := by
  obtain ⟨init, rfl⟩ := List.getLast?_eq_some_iff.mp h
  rw [pending_snoc, pendingStep]
  rcases hr with hr | hr <;> rw [hr]

theorem CacheConfig.replayStep_fst (c : CacheConfig) {p q : Option KVMessage} {m m' : PlainMap}
    {entry : KVMessage} (h : c.replayStep (p, m) entry = some (q, m')) : q = pendingStep p entry := by
  unfold CacheConfig.replayStep at h
  unfold pendingStep
  split at h <;> simp_all
  -- A commit clears the pending request whether or not there was one.
  cases p <;> simp_all

theorem CacheConfig.replayStep_of_ne (c : CacheConfig) {p : Option KVMessage} {m : PlainMap}
    {entry : KVMessage} (hnull : entry.msgType ≠ none) (h : entry.msgType ≠ some .commit) :
    c.replayStep (p, m) entry = some (pendingStep p entry, m) := by
  unfold CacheConfig.replayStep pendingStep
  split <;> simp_all

theorem CacheConfig.replay_fst (c : CacheConfig) {entries : List KVMessage} {q : Option KVMessage}
    {m : PlainMap} (h : c.replay entries = some (q, m)) : q = pending entries := by
  induction entries using List.reverseRecOn generalizing q m with
  | nil => cases h; rfl
  | append_singleton entries entry ih =>
    rw [c.replay_snoc, Option.bind_eq_some_iff] at h
    obtain ⟨⟨p, m'⟩, hrep, hstep⟩ := h
    rw [pending_snoc, ← ih hrep]
    exact c.replayStep_fst hstep

namespace Slave
open MasterHandler
variable {c : CacheConfig}

def handle (s : Slave c) (request : KVMessage) : Slave c := finalState (run request s)

def handleAll (s : Slave c) (requests : List KVMessage) : Slave c := requests.foldl handle s

structure Consistent (s : Slave c) : Prop where
  file : s.tpcLog.file.getD [] = s.tpcLog.entries
  store : s.kvServer.dataStore.store = c.applied s.tpcLog.entries
  typed : ∀ entry ∈ s.tpcLog.entries, entry.msgType ≠ none

theorem consistent_init : (init c).Consistent := ⟨rfl, rfl, by simp [init]⟩

variable {s : Slave c} {request : KVMessage}

theorem handle_logged (h : Logged request) :
    (s.handle request).tpcLog = s.tpcLog.appendAndFlush request ∧
      (s.handle request).kvServer.dataStore.store =
        contentsAfter c request s.tpcLog.getLastEntry s.kvServer.dataStore.store := by
  simp only [handle, run, bind, EStateM.bind, logRequest_run s h, finalState_respond]
  exact execute_finalState _ request _

theorem handle_unlogged (h : ¬ Logged request) :
    (s.handle request).tpcLog = s.tpcLog ∧
      (s.handle request).kvServer.dataStore.store = s.kvServer.dataStore.store := by
  rcases not_logged_iff.mp h with ht | ht
  · simp only [handle, run, bind, EStateM.bind, logRequest, ht]
    exact ⟨rfl, rfl⟩
  · have hlog : logRequest request s = .ok none s := by simp only [logRequest, ht]; rfl
    have hexec := execute_finalState s request none
    rw [contentsAfter_of_ne (by simp [ht])] at hexec
    simpa only [handle, run, bind, EStateM.bind, hlog, finalState_respond] using hexec

theorem Consistent.handle (h : s.Consistent) (request : KVMessage) : (s.handle request).Consistent := by
  by_cases hl : Logged request
  · obtain ⟨hlog, hstore⟩ := handle_logged (s := s) hl
    refine ⟨by rw [hlog]; rfl, ?_, ?_⟩
    · rw [hstore, hlog, h.store, TPCLog.appendAndFlush, c.applied_snoc]
      rfl
    · rw [hlog]
      intro entry hmem
      rcases List.mem_append.mp hmem with hmem | hmem
      · exact h.typed entry hmem
      · rw [List.mem_singleton.mp hmem]
        exact hl.1
  · obtain ⟨hlog, hstore⟩ := handle_unlogged (s := s) hl
    exact ⟨by rw [hlog, h.file], by rw [hstore, hlog, h.store], by rw [hlog]; exact h.typed⟩

theorem Consistent.handleAll (h : s.Consistent) (requests : List KVMessage) :
    (s.handleAll requests).Consistent := by
  induction requests generalizing s with
  | nil => exact h
  | cons request rest ih => exact ih (h.handle request)

def Recovers (s : Slave c) : Prop :=
  ∃ log s', TPCLog.rebuildServer s.tpcLog.file (KVServer.init c) = .ok log s' ∧
    s'.dataStore.store = s.kvServer.dataStore.store

def CommitSound (s : Slave c) (request : KVMessage) : Prop :=
  request.msgType = some .commit → ∀ p, pending s.tpcLog.entries = some p →
    if s.tpcLog.getLastEntry = some p then (c.perform s.kvServer.dataStore.store p).isSome
    else c.perform s.kvServer.dataStore.store p = some s.kvServer.dataStore.store

theorem Consistent.recovers_iff (h : s.Consistent) :
    s.Recovers ↔ c.replay s.tpcLog.entries =
      some (pending s.tpcLog.entries, s.kvServer.dataStore.store) := by
  rw [Recovers, TPCLog.rebuildServer_iff, h.file]
  constructor
  · rintro ⟨q, hq⟩
    rw [hq, c.replay_fst hq]
  · exact fun hq => ⟨_, hq⟩

theorem Consistent.live_unchanged (h : s.Consistent)
    (hp : ∀ p, pending s.tpcLog.entries = some p → s.tpcLog.getLastEntry ≠ some p) :
    (s.tpcLog.getLastEntry.bind (c.perform s.kvServer.dataStore.store)).getD
      s.kvServer.dataStore.store = s.kvServer.dataStore.store := by
  cases hlast : s.tpcLog.getLastEntry with
  | none => rfl
  | some entry =>
    have hreq : ¬ IsRequest entry := fun hr => hp entry (pending_of_getLast? hlast hr) hlast
    have htyped : entry.msgType ≠ none := h.typed entry (List.mem_of_getLast? hlast)
    rw [Option.bind_some, c.perform_of_not_isRequest _ htyped hreq, Option.getD_some]

theorem Consistent.recovers_commit_iff (h : s.Consistent) (hr : s.Recovers)
    (ht : request.msgType = some .commit) : (s.handle request).Recovers ↔ s.CommitSound request := by
  have hl : Logged request := ⟨by simp [ht], by simp [ht]⟩
  obtain ⟨hlog, hstore⟩ := handle_logged (s := s) hl
  rw [contentsAfter_commit ht] at hstore
  rw [(h.handle request).recovers_iff, hlog, hstore, TPCLog.appendAndFlush, c.replay_snoc,
    h.recovers_iff.mp hr, Option.bind_some, pending_snoc]
  simp only [CacheConfig.replayStep, pendingStep, CommitSound, ht, true_implies]
  cases hp : pending s.tpcLog.entries with
  | none => simp [h.live_unchanged (by simp [hp])]
  | some p =>
    simp only [Option.some.injEq, forall_eq']
    by_cases hlast : s.tpcLog.getLastEntry = some p
    · -- Both carry out the same request; the replay needs it to succeed.
      rw [if_pos hlast, hlast, Option.bind_some]
      cases c.perform s.kvServer.dataStore.store p <;> simp
    · have hne : ∀ q, pending s.tpcLog.entries = some q → s.tpcLog.getLastEntry ≠ some q := by
        intro q hq
        rw [hp] at hq
        cases hq
        exact hlast
      rw [if_neg hlast, h.live_unchanged hne]
      cases c.perform s.kvServer.dataStore.store p <;> simp

theorem Consistent.recovers_handle_iff (h : s.Consistent) (hr : s.Recovers) (request : KVMessage) :
    (s.handle request).Recovers ↔ s.CommitSound request := by
  by_cases ht : request.msgType = some .commit
  · exact h.recovers_commit_iff hr ht
  refine iff_of_true ?_ (fun hc => absurd hc ht)
  rw [(h.handle request).recovers_iff]
  by_cases hl : Logged request
  · obtain ⟨hlog, hstore⟩ := handle_logged (s := s) hl
    rw [hlog, hstore, contentsAfter_of_ne ht, TPCLog.appendAndFlush, c.replay_snoc,
      h.recovers_iff.mp hr, Option.bind_some, pending_snoc, c.replayStep_of_ne hl.1 ht]
  · obtain ⟨hlog, hstore⟩ := handle_unlogged (s := s) hl
    rw [hlog, hstore, h.recovers_iff.mp hr]

theorem handleAll_snoc (s : Slave c) (requests : List KVMessage) (request : KVMessage) :
    s.handleAll (requests ++ [request]) = (s.handleAll requests).handle request := by
  simp [Slave.handleAll]

theorem recovers_iff_commitSound (c : CacheConfig) (requests : List KVMessage) :
    (∀ before, before <+: requests → ((init c).handleAll before).Recovers) ↔
      ∀ before request, before ++ [request] <+: requests →
        ((init c).handleAll before).CommitSound request := by
  have hcons : ∀ before, ((init c).handleAll before).Consistent := consistent_init.handleAll
  constructor
  · intro h before request hpre
    have hbefore := h before ((List.prefix_append before [request]).trans hpre)
    have hafter := h _ hpre
    rw [handleAll_snoc] at hafter
    exact ((hcons before).recovers_handle_iff hbefore request).mp hafter
  · intro h before
    induction before using List.reverseRecOn with
    | nil => exact fun _ => consistent_init.recovers_iff.mpr rfl
    | append_singleton before request ih =>
      intro hpre
      have hbefore := ih ((List.prefix_append before [request]).trans hpre)
      rw [handleAll_snoc]
      exact ((hcons before).recovers_handle_iff hbefore request).mpr (h before request hpre)

theorem not_recovers_emptyValue_or_detached :
    let c : CacheConfig := ⟨100, 10, by decide, by decide⟩
    let put (v : JString) : KVMessage := { msgType := some .putReq, key := some [107], value := some v }
    ¬ ((init c).handleAll [put [], .ofType .commit]).Recovers ∧
      ¬ ((init c).handleAll [put [118], .ofType .ack, .ofType .commit]).Recovers := by
  intro c put
  refine ⟨fun h => ?_, fun h => ?_⟩
  · have hrep := (consistent_init.handleAll _).recovers_iff.mp h
    exact absurd (congrArg Option.isSome hrep) (by decide)
  · have hrep := (consistent_init.handleAll _).recovers_iff.mp h
    exact absurd (congrArg (fun r => r.bind fun st => st.2 [107]) hrep) (by decide)

end Slave
end Cs162.Kvstore
