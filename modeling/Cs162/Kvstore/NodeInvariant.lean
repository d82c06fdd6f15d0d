import Cs162.Kvstore.Node

namespace Cs162.Kvstore
open MasterHandler Lib

section CacheOk
variable {c : CacheConfig}

theorem applyEntry_cacheOk {s : KVServer c} (h : s.CacheOk) (entry : KVMessage) :
    (finalState (applyEntry entry s)).CacheOk := by
  unfold applyEntry
  cases entry.msgType with
  | none => exact h
  | some t =>
    cases t with
    | putReq => exact h.put
    | delReq => exact h.del
    | _ => exact h

theorem execute_cacheOk {s : Slave c} (h : s.kvServer.CacheOk) (request : KVMessage)
    (phase1 : Option KVMessage) : (finalState (execute request phase1 s)).kvServer.CacheOk := by
  cases ht : request.msgType with
  | none => simpa only [execute, ht, finalState_pure, finalState_throw] using h
  | some t =>
    cases t with
    | getReq =>
      simp only [execute, ht, finalState_bind_pure, Slave.finalState_onServer]
      exact h.get
    | delReq =>
      rw [execute_delReq s ht]
      exact h
    | commit =>
      cases phase1 with
      | none => simpa only [execute, ht, finalState_pure, finalState_throw] using h
      | some p =>
        simp only [execute, ht, finalState_bind_pure, Slave.finalState_onServer]
        exact applyEntry_cacheOk h p
    | _ => simpa only [execute, ht, finalState_pure, finalState_throw] using h

theorem rebuildStep_cacheOk {s : KVServer c} (h : s.CacheOk) (p : Option KVMessage)
    (entry : KVMessage) : (finalState (TPCLog.rebuildStep p entry s)).CacheOk := by
  unfold TPCLog.rebuildStep
  cases entry.msgType with
  | none => exact h
  | some t =>
    cases t with
    | commit =>
      cases p with
      | none => exact h
      | some p =>
        rw [finalState_bind_pure]
        exact applyEntry_cacheOk h p
    | _ => exact h

theorem rebuildLoop_cacheOk {s : KVServer c} (h : s.CacheOk) (p : Option KVMessage)
    (entries : List KVMessage) : (finalState (TPCLog.rebuildLoop p entries s)).CacheOk := by
  induction entries generalizing p s with
  | nil => exact h
  | cons entry rest ih =>
    have hstep := rebuildStep_cacheOk h p entry
    simp only [TPCLog.rebuildLoop, bind, EStateM.bind]
    cases hr : TPCLog.rebuildStep p entry s with
    | ok q s' =>
      rw [hr] at hstep
      exact ih hstep q
    | error e s' =>
      rw [hr] at hstep
      exact hstep

theorem rebuildServer_spec {file : Option (List KVMessage)} {log : TPCLog} {s : KVServer c}
    (h : TPCLog.rebuildServer file (KVServer.init c) = .ok log s) :
    log = ⟨file.getD [], file⟩ ∧ s.CacheOk ∧
      ∃ q, c.replay (file.getD []) = some (q, s.dataStore.store) := by
  have hrep := (TPCLog.rebuildServer_iff file s.dataStore.store).mp ⟨log, s, h, rfl⟩
  have hcache := rebuildLoop_cacheOk (KVServer.cacheOk_init (c := c)) none (file.getD [])
  simp only [TPCLog.rebuildServer, TPCLog.loadFromDisk, bind, EStateM.bind] at h
  cases hr : TPCLog.rebuildLoop none (file.getD []) (KVServer.init c) with
  | ok a s' =>
    rw [hr] at h hcache
    cases h
    exact ⟨rfl, hcache, hrep⟩
  | error e s' =>
    rw [hr] at h
    cases h

theorem respond_spec {s s' : Slave c} {request : KVMessage} {phase1 : Option KVMessage}
    (h : finalState (respond request phase1 s) = s') :
    s'.tpcLog = s.tpcLog ∧ (s.kvServer.CacheOk → s'.kvServer.CacheOk) ∧
      s'.kvServer.dataStore.store = contentsAfter c request phase1 s.kvServer.dataStore.store := by
  rw [finalState_respond] at h
  subst h
  obtain ⟨hlog, hstore⟩ := execute_finalState s request phase1
  exact ⟨hlog, fun hc => execute_cacheOk hc request phase1, hstore⟩

end CacheOk

def CacheConfig.Replays (c : CacheConfig) (log : List KVMessage) : Prop :=
  ∀ q m, c.replay log = some (q, m) → m = c.applied log

namespace Node
variable {c : CacheConfig}

structure Sound (n : Node c) : Prop where
  down : n.up = false → n.worker = .idle ∧ n.queue = []
  entries : n.up = true → n.slave.tpcLog.entries = n.log
  cache : n.slave.kvServer.CacheOk
  executing : ∀ job phase1, n.worker = .logged job phase1 → Logged job.request →
    ∃ before, n.log = before ++ [job.request] ∧ phase1 = before.getLast? ∧ n.store = c.applied before
  store : n.up = true → (∀ job phase1, n.worker = .logged job phase1 → ¬ Logged job.request) →
    n.store = c.applied n.log

theorem sound_init : (init c).Sound where
  down h := by cases h
  entries _ := rfl
  cache := KVServer.cacheOk_init
  executing _ _ h := by cases h
  store _ _ := rfl

variable {n n' : Node c}

theorem Sound.up_of_worker (h : n.Sound) (hw : n.worker ≠ .idle) : n.up = true := by
  by_contra hup
  exact hw (h.down (by simpa using hup)).1

theorem Sound.contentsAfter_eq (h : n.Sound) {job : Job} {phase1 : Option KVMessage}
    (hw : n.worker = .logged job phase1) :
    contentsAfter c job.request phase1 n.store = c.applied n.log := by
  by_cases hl : Logged job.request
  · obtain ⟨before, hlog, rfl, hstore⟩ := h.executing job phase1 hw hl
    rw [hlog, hstore, c.applied_snoc]
  · have hne : job.request.msgType ≠ some .commit := by
      rcases not_logged_iff.mp hl with ht | ht <;> simp [ht]
    have hup := h.up_of_worker (by simp [hw])
    rw [contentsAfter_of_ne hne, h.store hup]
    intro job' phase1' hw'
    rw [hw] at hw'
    cases hw'
    exact hl

theorem Sound.respond (h : n.Sound) {job : Job} {phase1 : Option KVMessage} {s : Slave c} {w : Worker}
    (hw : n.worker = .logged job phase1)
    (hr : finalState (MasterHandler.respond job.request phase1 n.slave) = s)
    (hw' : ∀ job' p, w ≠ .logged job' p) : Sound { n with slave := s, worker := w } := by
  obtain ⟨hlog, hcache, hstore⟩ := respond_spec hr
  have hup := h.up_of_worker (by simp [hw])
  have hlog' : Node.log { n with slave := s, worker := w } = n.log := by simp only [Node.log, hlog]
  refine ⟨fun hd => ?_, fun _ => ?_, hcache h.cache, fun job' p hp => absurd hp (hw' job' p), fun _ _ => ?_⟩
  · simp [hup] at hd
  · rw [hlog', ← h.entries hup, hlog]
  · rw [hlog', ← h.contentsAfter_eq hw]
    exact hstore

theorem Sound.move (h : n.Sound) {w : Worker} {queue : List Job} (hup : n.up = true)
    (hold : ∀ job p, n.worker = .logged job p → ¬ Logged job.request)
    (hnew : ∀ job p, w = .logged job p → ¬ Logged job.request) :
    Sound { n with worker := w, queue := queue } where
  down hd := by simp [hup] at hd
  entries := h.entries
  cache := h.cache
  executing job p hw hl := absurd hl (hnew job p hw)
  store hup _ := h.store hup hold

theorem Sound.acts (h : n.Sound) (ha : n.Acts n') (hrep : c.Replays n.log) : n'.Sound := by
  cases ha with
  | getJob hw hq =>
    refine h.move ?_ (by simp [hw]) (by simp)
    by_contra hup
    simp [(h.down (by simpa using hup)).2] at hq
  | readFails error hw => exact h.move (h.up_of_worker (by simp [hw])) (by simp [hw]) (by simp)
  | logged hw hl =>
    have hup := h.up_of_worker (by simp [hw])
    have hstore := h.store hup (by simp [hw])
    refine ⟨fun hd => ?_, fun _ => rfl, h.cache, ?_, fun _ hno => ?_⟩
    · simp [hup] at hd
    · rintro job' phase1' ⟨⟩ -
      refine ⟨n.slave.tpcLog.entries, rfl, rfl, ?_⟩
      rw [h.entries hup]
      exact hstore
    · exact absurd hl (hno _ _ rfl)
  | unlogged hw hl hw' =>
    refine h.move (h.up_of_worker (by simp [hw])) (by simp [hw]) ?_
    rcases hw' with rfl | rfl
    · simp
    · rintro job' p ⟨⟩
      exact hl
  | answered hw hr => exact h.respond hw (by rw [hr]; rfl) (by simp)
  | dropped hw hr => exact h.respond hw (by rw [hr]; rfl) (by simp)
  | crash hup => exact ⟨fun _ => ⟨rfl, rfl⟩, by simp, KVServer.cacheOk_init, by simp, by simp⟩
  | restart hup hr =>
    obtain ⟨rfl, hcache, q, hq⟩ := rebuildServer_spec hr
    exact ⟨by simp, fun _ => rfl, hcache, by simp, fun _ _ => hrep q _ hq⟩

def Tracks (P : List KVMessage → List KVMessage → Prop) (base : List KVMessage) (n : Node c) : Prop :=
  ∃ done, n.log = base ++ done ++ n.worker.executing ∧ P done n.inflight

variable {P : List KVMessage → List KVMessage → Prop} {base : List KVMessage}

theorem Tracks.mono {Q : List KVMessage → List KVMessage → Prop}
    (h : n.Tracks P base) (hPQ : ∀ {log queue}, P log queue → Q log queue) : n.Tracks Q base := by
  obtain ⟨done, hlog, hp⟩ := h
  exact ⟨done, hlog, hPQ hp⟩

theorem executing_of_inflight (h : n.inflight = []) : n.worker.executing = [] := by
  cases hw : n.worker with
  | logged job phase1 =>
    by_cases hl : Logged job.request
    · simp [inflight, Worker.unfinished, hw, hl] at h
    · simp [Worker.executing, hl]
  | _ => rfl

theorem Tracks.respond (hP : Drains P) (h : n.Tracks P base) {job : Job} {phase1 : Option KVMessage}
    {s : Slave c} {w : Worker} (hw : n.worker = .logged job phase1) (hs : s.tpcLog = n.slave.tpcLog)
    (hfin : w.unfinished = []) (hexec : w.executing = []) :
    Tracks P base { n with slave := s, worker := w } := by
  obtain ⟨done, hlog, hp⟩ := h
  have hlog' : Node.log { n with slave := s, worker := w } = n.log := by simp only [Node.log, hs]
  have hinfl : inflight { n with slave := s, worker := w } =
      (n.queue.map Job.request).filter fun m => decide (Logged m) := by simp [inflight, hfin]
  by_cases hl : Logged job.request
  · refine ⟨done ++ [job.request], ?_, ?_⟩
    · rw [hlog', hlog, hexec]
      simp [Worker.executing, hw, hl]
    · rw [hinfl]
      exact hP.append (by simpa [inflight, Worker.unfinished, hw, hl] using hp)
  · refine ⟨done, ?_, ?_⟩
    · rw [hlog', hlog, hexec]
      simp [Worker.executing, hw, hl]
    · rw [hinfl]
      simpa [inflight, Worker.unfinished, hw, hl] using hp

theorem Tracks.cleared (hP : Drains P) (h : n.Tracks P base) : ∃ done, n.log = base ++ done ∧ P done [] := by
  cases hw : n.worker with
  | logged job phase1 =>
    obtain ⟨done, hlog, hp⟩ := h.respond hP hw rfl (w := .idle) rfl rfl
    exact ⟨done, by simpa [Node.log, Worker.executing] using hlog, hP.clear hp⟩
  | _ =>
    obtain ⟨done, hlog, hp⟩ := h
    exact ⟨done, by simpa [hw, Worker.executing] using hlog, hP.clear hp⟩

theorem Tracks.acts (hP : Drains P) (hs : n.Sound) (h : n.Tracks P base) (ha : n.Acts n') :
    n'.Tracks P base := by
  cases ha with
  | getJob hw hq =>
    obtain ⟨done, hlog, hp⟩ := h
    exact ⟨done, by simpa [Node.log, hw, Worker.executing] using hlog,
      by simpa [inflight, Worker.unfinished, hw, hq] using hp⟩
  | @readFails job error hw =>
    obtain ⟨done, hlog, hp⟩ := h
    refine ⟨done, by simpa [Node.log, hw, Worker.executing] using hlog, ?_⟩
    by_cases hl : Logged job.request
    · exact hP.lose (x := job.request) (by simpa [inflight, Worker.unfinished, hw, hl] using hp)
    · simpa [inflight, Worker.unfinished, hw, hl] using hp
  | @logged job hw hl =>
    obtain ⟨done, hlog, hp⟩ := h
    have hup := hs.up_of_worker (by simp [hw])
    refine ⟨done, ?_, by simpa [inflight, Worker.unfinished, hw] using hp⟩
    have hold : n.log = base ++ done := by simpa [hw, Worker.executing] using hlog
    simp only [Worker.executing, if_pos hl, ← hold, ← hs.entries hup]
    rfl
  | @unlogged job w hw hl hw' =>
    obtain ⟨done, hlog, hp⟩ := h
    refine ⟨done, ?_, ?_⟩
    · rcases hw' with rfl | rfl <;> simpa [Node.log, hw, Worker.executing, hl] using hlog
    · rcases hw' with rfl | rfl <;> simpa [inflight, Worker.unfinished, hw, hl] using hp
  | answered hw hr => exact h.respond hP hw (respond_spec (by rw [hr, finalState_ok])).1 rfl rfl
  | dropped hw hr => exact h.respond hP hw (respond_spec (by rw [hr, finalState_error])).1 rfl rfl
  | crash hup =>
    obtain ⟨done, hlog, hp⟩ := h.cleared hP
    exact ⟨done, by simpa [Node.log, Worker.executing] using hlog, hp⟩
  | restart hup hr =>
    obtain ⟨rfl, -, -⟩ := rebuildServer_spec hr
    obtain ⟨done, hlog, hp⟩ := h.cleared hP
    exact ⟨done, by simpa [Node.log, Worker.executing] using hlog, hp⟩

end Node
end Cs162.Kvstore
