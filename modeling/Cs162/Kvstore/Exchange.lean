import Cs162.Kvstore.NodeInvariant

namespace Cs162.Kvstore
open MasterHandler Lib

namespace Node
variable {c : CacheConfig} {n n' : Node c} {m : KVMessage}

def Unawaited (n : Node c) : Prop := ∀ job ∈ n.jobs, job.awaited = false

def AwaitsLast (n : Node c) (m : KVMessage) : Prop :=
  ∀ before job after, n.jobs = before ++ job :: after → job.awaited = true → after = [] ∧ job.request = m

theorem unawaited_of_jobs_nil (h : n.jobs = []) : n.Unawaited := by simp [Unawaited, h]

theorem Acts.jobs_suffix (ha : n.Acts n') : n'.jobs <:+ n.jobs := by
  cases ha with
  | getJob hw hq => simp [jobs, Worker.jobs, hw, hq]
  | readFails error hw => simp [jobs, Worker.jobs, hw]
  | logged hw hl => simp [jobs, Worker.jobs, hw]
  | unlogged hw hl hw' => rcases hw' with rfl | rfl <;> simp [jobs, Worker.jobs, hw, List.suffix_cons]
  | answered hw hr => simp [jobs, Worker.jobs, hw]
  | dropped hw hr => simp [jobs, Worker.jobs, hw, List.suffix_cons]
  | crash hup => exact List.nil_suffix
  | restart hup hr => exact List.nil_suffix

theorem Unawaited.acts (h : n.Unawaited) (ha : n.Acts n') : n'.Unawaited :=
  fun job hmem => h job (ha.jobs_suffix.subset hmem)

theorem AwaitsLast.of_suffix (h : n.AwaitsLast m) (hs : n'.jobs <:+ n.jobs) : n'.AwaitsLast m := by
  obtain ⟨front, hfront⟩ := hs
  intro before job after heq haw
  refine h (front ++ before) job after ?_ haw
  rw [← hfront, heq, List.append_assoc]

theorem AwaitsLast.queue_nil (h : n.AwaitsLast m) {job : Job} (hw : n.worker.jobs = [job])
    (haw : job.awaited = true) : n.queue = [] ∧ job.request = m :=
  h [] job n.queue (by rw [jobs, hw]; rfl) haw

structure Expects (V : KVMessage → Prop) (R : KVMessage → List KVMessage → List KVMessage → Prop)
    (base : List KVMessage) (m : KVMessage) (n : Node c) : Prop where
  last : n.AwaitsLast m
  answering : ∀ job r, n.worker = .answering job r → job.awaited = true → V r ∧ n.Tracks (R r) base

variable {V : KVMessage → Prop} {P : List KVMessage → List KVMessage → Prop}
  {R : KVMessage → List KVMessage → List KVMessage → Prop} {base : List KVMessage}

structure Answers (c : CacheConfig) (V : KVMessage → Prop) (P : List KVMessage → List KVMessage → Prop)
    (R : KVMessage → List KVMessage → List KVMessage → Prop) (base : List KVMessage) (m : KVMessage) :
    Prop where
  unread : ∀ error, V (.ofType .resp (some error)) ∧
    ∀ {log queue}, P log queue → R (.ofType .resp (some error)) log queue
  executed : ∀ {n : Node c} {job : Job} {phase1 : Option KVMessage} {r : KVMessage} {s : Slave c},
    n.Sound → n.Tracks P base → n.worker = .logged job phase1 → n.queue = [] → job.request = m →
    respond m phase1 n.slave = .ok r s → V r ∧
      ∀ {done}, P done n.worker.executing → R r (done ++ n.worker.executing) []

theorem inflight_of_logged {job : Job} {phase1 : Option KVMessage} (hw : n.worker = .logged job phase1)
    (hq : n.queue = []) : n.inflight = n.worker.executing := by
  by_cases hl : Logged job.request <;> simp [inflight, Worker.unfinished, Worker.executing, hw, hq, hl]

theorem Expects.acts (hA : Answers c V P R base m) (hP : Drains P) (hs : n.Sound) (ht : n.Tracks P base)
    (h : n.Expects V R base m) (ha : n.Acts n') : n'.Expects V R base m := by
  refine ⟨h.last.of_suffix ha.jobs_suffix, ?_⟩
  have ht' := ht.acts hP hs ha
  cases ha with
  | readFails error hw =>
    rintro job r ⟨⟩ -
    exact ⟨(hA.unread error).1, ht'.mono (hA.unread error).2⟩
  | unlogged hw hl hw' => rcases hw' with rfl | rfl <;> simp
  | @answered job phase1 response s hw hr =>
    rintro job' r ⟨⟩ haw
    obtain ⟨hq, rfl⟩ := h.last.queue_nil (by rw [hw]; rfl) haw
    obtain ⟨hV, hR⟩ := hA.executed hs ht hw hq rfl hr
    obtain ⟨done, hlog, hp⟩ := ht
    have hfinal : finalState (respond job.request phase1 n.slave) = s := by rw [hr, finalState_ok]
    rw [inflight_of_logged hw hq] at hp
    refine ⟨hV, done ++ n.worker.executing, ?_, ?_⟩
    · rw [← List.append_assoc, ← hlog]
      simp only [Node.log, (respond_spec hfinal).1, Worker.executing, List.append_nil]
    · simpa [inflight, Worker.unfinished, hq] using hR hp
  | _ => simp

theorem accept_eq_some (h : n.accept m = some n') :
    n.up = true ∧ n' = { n with queue := n.queue ++ [⟨m, true⟩] } := by
  unfold accept at h
  split_ifs at h with hup
  exact ⟨hup, (Option.some.inj h).symm⟩

theorem Sound.accept (h : n.Sound) (ha : n.accept m = some n') : n'.Sound := by
  obtain ⟨hup, rfl⟩ := accept_eq_some ha
  exact ⟨fun hd => by simp [hup] at hd, h.entries, h.cache, h.executing, h.store⟩

theorem Unawaited.accept (h : n.Unawaited) (ha : n.accept m = some n') : n'.Expects V R base m := by
  obtain ⟨hup, rfl⟩ := accept_eq_some ha
  refine ⟨?_, ?_⟩
  · intro before job after heq haw
    rw [jobs, ← List.append_assoc] at heq
    -- All jobs before the new one are unawaited, so the awaited one is the new one.
    rcases List.eq_nil_or_concat after with rfl | ⟨after', last, rfl⟩
    · obtain ⟨-, hjob⟩ := List.append_inj' heq rfl
      obtain rfl : job = ⟨m, true⟩ := by simpa using hjob.symm
      exact ⟨rfl, rfl⟩
    · have hcut : n.worker.jobs ++ n.queue = before ++ job :: after' := by
        rw [List.concat_eq_append, ← List.cons_append, ← List.append_assoc] at heq
        exact (List.append_inj' heq rfl).1
      have hmem : job ∈ n.jobs := by rw [jobs, hcut]; simp
      simp [h job hmem] at haw
  · intro job r hw haw
    have hmem : job ∈ n.jobs := by
      change n.worker = .answering job r at hw
      simp [jobs, Worker.jobs, hw]
    simp [h job hmem] at haw

theorem inflight_accept (hl : Logged m) (ha : n.accept m = some n') :
    n'.inflight = n.inflight ++ [m] := by
  obtain ⟨-, rfl⟩ := accept_eq_some ha
  simp [inflight, hl]

theorem inflight_accept_of_not (hl : ¬ Logged m) (ha : n.accept m = some n') :
    n'.inflight = n.inflight := by
  obtain ⟨-, rfl⟩ := accept_eq_some ha
  simp [inflight, hl]

theorem Tracks.accept {Q : List KVMessage → List KVMessage → Prop} (h : n.Tracks P base)
    (ha : n.accept m = some n') (hl : Logged m) (hPQ : ∀ {log queue}, P log queue → Q log (queue ++ [m])) :
    n'.Tracks Q base := by
  obtain ⟨done, hlog, hp⟩ := h
  have hinfl := inflight_accept hl ha
  obtain ⟨-, rfl⟩ := accept_eq_some ha
  exact ⟨done, hlog, hinfl ▸ hPQ hp⟩

theorem Tracks.accept_of_not (h : n.Tracks P base) (ha : n.accept m = some n') (hl : ¬ Logged m) :
    n'.Tracks P base := by
  obtain ⟨done, hlog, hp⟩ := h
  have hinfl := inflight_accept_of_not hl ha
  obtain ⟨-, rfl⟩ := accept_eq_some ha
  exact ⟨done, hlog, hinfl.symm ▸ hp⟩

theorem logged_of_abandon {job : Job} {p : Option KVMessage} (h : n.abandon.worker = .logged job p) :
    ∃ job', n.worker = .logged job' p ∧ job'.request = job.request := by
  change n.worker.abandon = .logged job p at h
  cases hw : n.worker with
  | logged job' p' =>
    rw [hw, Worker.abandon, Worker.logged.injEq] at h
    obtain ⟨rfl, rfl⟩ := h
    exact ⟨job', rfl, rfl⟩
  | _ => simp [hw, Worker.abandon] at h

theorem inflight_abandon (n : Node c) : n.abandon.inflight = n.inflight := by
  have hqueue : (n.queue.map Job.abandon).map Job.request = n.queue.map Job.request := by
    rw [List.map_map]
    rfl
  simp only [inflight, abandon, List.map_append, hqueue]
  cases n.worker <;> rfl

theorem unawaited_abandon (n : Node c) : n.abandon.Unawaited := by
  intro job hmem
  rcases List.mem_append.mp hmem with hmem | hmem
  · change job ∈ n.worker.abandon.jobs at hmem
    cases hw : n.worker <;> rw [hw] at hmem
    case idle => cases hmem
    all_goals
      rw [List.mem_singleton.mp hmem]
      rfl
  · obtain ⟨job', -, rfl⟩ := List.mem_map.mp hmem
    rfl

theorem Sound.abandon (h : n.Sound) : n.abandon.Sound where
  down hd := by
    obtain ⟨hw, hq⟩ := h.down hd
    simp [Node.abandon, hw, hq, Worker.abandon]
  entries := h.entries
  cache := h.cache
  executing job p hw hl := by
    obtain ⟨job', hw', hreq⟩ := logged_of_abandon hw
    rw [← hreq] at hl ⊢
    exact h.executing job' p hw' hl
  store hup hno := h.store hup fun job p hw => hno job.abandon p (by simp [Node.abandon, Worker.abandon, hw])

theorem Tracks.abandon (h : n.Tracks P base) : n.abandon.Tracks P base := by
  obtain ⟨done, hlog, hp⟩ := h
  have hexec : n.abandon.worker.executing = n.worker.executing := by
    change n.worker.abandon.executing = _
    cases n.worker <;> rfl
  exact ⟨done, by rwa [hexec], by rwa [inflight_abandon]⟩

theorem answer_eq_some {reply : Option KVMessage} (h : n.answer = some (reply, n')) :
    ∃ job r, n.worker = .answering job r ∧ reply = (if job.awaited then some r else none) ∧
      n' = { n with worker := .idle } := by
  unfold Node.answer at h
  cases hw : n.worker with
  | answering job r =>
    rw [hw, Option.some.injEq, Prod.mk.injEq] at h
    exact ⟨job, r, rfl, h.1.symm, h.2.symm⟩
  | _ => simp [hw] at h

section Answer
variable {reply : Option KVMessage} (ha : n.answer = some (reply, n'))
include ha

theorem Sound.answer (h : n.Sound) : n'.Sound := by
  obtain ⟨job, r, hw, -, rfl⟩ := answer_eq_some ha
  exact h.move (h.up_of_worker (by simp [hw])) (by simp [hw]) (by simp)

theorem Tracks.answer (h : n.Tracks P base) : n'.Tracks P base := by
  obtain ⟨job, r, hw, -, rfl⟩ := answer_eq_some ha
  obtain ⟨done, hlog, hp⟩ := h
  exact ⟨done, by simpa [Node.log, Worker.executing, hw] using hlog,
    by simpa [inflight, Worker.unfinished, hw] using hp⟩

theorem jobs_suffix_answer : n'.jobs <:+ n.jobs := by
  obtain ⟨job, r, hw, -, rfl⟩ := answer_eq_some ha
  simp [jobs, Worker.jobs, hw, List.suffix_cons]

theorem Unawaited.answer (h : n.Unawaited) : reply = none ∧ n'.Unawaited := by
  refine ⟨?_, fun job hmem => h job ((jobs_suffix_answer ha).subset hmem)⟩
  obtain ⟨job, r, hw, rfl, rfl⟩ := answer_eq_some ha
  have hjob : job.awaited = false := h job (by simp [jobs, Worker.jobs, hw])
  simp [hjob]

theorem Expects.answer (h : n.Expects V R base m) : n'.Expects V R base m := by
  refine ⟨h.last.of_suffix (jobs_suffix_answer ha), ?_⟩
  obtain ⟨job, r, hw, -, rfl⟩ := answer_eq_some ha
  simp

theorem Expects.answered (h : n.Expects V R base m) {r : KVMessage} (hr : reply = some r) :
    V r ∧ n'.Tracks (R r) base ∧ n'.Unawaited := by
  obtain ⟨job, r', hw, rfl, hn'⟩ := answer_eq_some ha
  obtain ⟨haw, rfl⟩ : job.awaited = true ∧ r' = r := by simpa using hr
  obtain ⟨hV, hR⟩ := h.answering job r' hw haw
  obtain ⟨hq, -⟩ := h.last.queue_nil (by rw [hw]; rfl) haw
  refine ⟨hV, hR.answer ha, unawaited_of_jobs_nil ?_⟩
  simp [hn', jobs, Worker.jobs, hq]

end Answer
end Node
end Cs162.Kvstore
