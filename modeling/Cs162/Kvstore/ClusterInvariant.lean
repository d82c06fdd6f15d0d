import Cs162.Kvstore.Transaction

namespace Cs162.Kvstore
open MasterHandler Lib Option

namespace Master
variable {g : ClusterConfig} {m m' : Master g} {t : Txn} {msg d r r1 r2 : KVMessage}

def TableOk (m : Master g) : Prop :=
  match m.registering with
  | none => m.slaves = g.ids
  | some id => id ∈ g.ids ∧ m.slaves = g.ids.erase id

def SameTable (m m' : Master g) : Prop := m'.slaves = m.slaves ∧ m'.registering = m.registering

theorem TableOk.same (h : m.TableOk) (hs : m.SameTable m') : m'.TableOk := by
  unfold TableOk at h ⊢
  rw [hs.1, hs.2]
  exact h

theorem TableOk.slaves_eq (h : m.TableOk) (hr : m.registering = none) : m.slaves = g.ids := by
  unfold TableOk at h
  rwa [hr] at h

theorem TableOk.remove (h : m.TableOk) {id : ℤ} (hm : m.remove id = some m') :
    m'.TableOk ∧ m'.call = m.call ∧ m'.line = m.line := by
  unfold Master.remove at hm
  split_ifs at hm with hg
  obtain rfl := some.inj hm
  have hs := h.slaves_eq hg.1
  refine ⟨⟨hs ▸ hg.2, ?_⟩, rfl, rfl⟩
  change m.slaves.erase id = _
  rw [hs]

theorem TableOk.putBack (h : m.TableOk) (hm : m.putBack = some m') :
    m'.TableOk ∧ m'.call = m.call ∧ m'.line = m.line := by
  obtain ⟨id, hid, rfl⟩ := map_eq_some_iff.mp hm
  unfold TableOk at h
  rw [hid] at h
  refine ⟨?_, rfl, rfl⟩
  change m.slaves.orderedInsert (· ≤ ·) id = g.ids
  rw [h.2]
  exact List.orderedInsert_erase id g.ids h.1 (g.sorted.imp le_of_lt)

structure Finishes (m m' : Master g) : Prop where
  call : m'.call = none
  line : m'.line = .closed
  table : m.SameTable m'

theorem finishes_finish (msg : KVMessage) (outcome : Outcome) : m.Finishes (m.finish msg outcome) :=
  ⟨rfl, rfl, rfl, rfl⟩

structure Continues (m m' : Master g) : Prop where
  cache : m'.masterCache = m.masterCache
  call : (m'.call = none ∧ ∃ msg e, m'.result = some (msg, .error e)) ∨
    ∃ call call', m.call = some call ∧ m'.call = some call' ∧ call'.request = call.request

theorem continues_finish (msg : KVMessage) (e : Throwable) : m.Continues (m.finish msg (.error e)) :=
  ⟨rfl, .inl ⟨rfl, msg, e, rfl⟩⟩

theorem continues_goTo (h : m.call = some (.tpc t)) (stage : Stage) : m.Continues (m.goTo t stage) :=
  ⟨rfl, .inr ⟨_, _, h, rfl, rfl⟩⟩

theorem finishes_conclude : m.Finishes (m.conclude t d) := by
  unfold conclude
  split
  · exact finishes_finish ..
  · split <;> exact ⟨rfl, rfl, rfl, rfl⟩
  · exact finishes_finish ..

theorem finishes_endGet {key : JString} : m.Finishes (m.endGet msg key r) := by
  unfold endGet
  split
  · exact finishes_finish ..
  · split <;> exact ⟨rfl, rfl, rfl, rfl⟩
  · exact finishes_finish ..

theorem startTPC_spec (hs : m.slaves = g.ids) (hreq : IsRequest msg) :
    m.Finishes (m.startTPC msg) ∨
      ∃ t : Txn, t.Ok g ∧ t.stage = .vote1 ∧ t.msg = msg ∧
        m.startTPC msg = { m with call := some (.tpc t) } := by
  unfold startTPC firstReplica
  rw [hs]
  split
  · exact .inl (finishes_finish ..)
  · next key hkey =>
    split
    · exact .inl (finishes_finish ..)
    · next slave1 h1 =>
      split
      · exact .inl (finishes_finish ..)
      · exact .inl (finishes_finish ..)
      · next slave2 _ h2 hi =>
        refine .inr ⟨⟨msg, key, slave1, slave2, .vote1⟩, ⟨hreq, hkey, ⟨h1, h2⟩, ?_, trivial⟩, rfl, rfl, rfl⟩
        simp [CacheConfig.InRange, hi]

theorem startGet_spec (hs : m.slaves = g.ids) (msg : KVMessage) :
    m.Finishes (m.startGet msg) ∨ ∃ key slave1 cache, msg.key = some key ∧
      (∃ slave2, g.Replicas key slave1 slave2) ∧
      m.startGet msg = { m with masterCache := cache, call := some (.get msg key slave1) } := by
  unfold startGet
  split
  · exact .inl (finishes_finish ..)
  · next key hkey =>
    split
    · exact .inl ⟨rfl, rfl, rfl, rfl⟩
    · exact .inl ⟨rfl, rfl, rfl, rfl⟩
    · next cache _ =>
      split
      · exact .inl ⟨rfl, rfl, rfl, rfl⟩
      · next slave1 h1 =>
        rw [firstReplica, hs] at h1
        have hne : g.ids ≠ [] := List.ne_nil_of_mem (mem_of_findFirstReplica h1)
        obtain ⟨slave2, h2⟩ := isSome_iff_exists.mp (findSuccessor_isSome hne slave1)
        exact .inr ⟨key, slave1, cache, hkey, ⟨slave2, h1, h2⟩, rfl⟩

theorem decision_spec {req : KVMessage} (h1 : IsVote req r1) (h2 : IsVote req r2) :
    ∃ d, decision r1 r2 = some d ∧ (Logged d ∧ CommitOk req d) ∧
      (∀ {log queue}, afterVote req r1 log queue → deciding req d log queue) ∧
      ∀ {log queue}, afterVote req r2 log queue → deciding req d log queue := by
  have hno {r d : KVMessage} (hd : d.msgType ≠ some .commit) {log queue : List KVMessage}
      (h : afterVote req r log queue) : deciding req d log queue :=
    (afterVote_voting h).deciding hd
  unfold decision
  by_cases hr1 : r1.msgType = some .ready
  · by_cases hr2 : r2.msgType = some .ready
    · have hkey : rejectsKey req.key = false := by simpa [IsVote, hr1] using h1
      refine ⟨.ofType .commit, by simp [hr1, hr2], ⟨by decide, fun _ => hkey⟩, fun h => ?_, fun h => ?_⟩
      · rw [afterVote, if_pos hr1] at h
        exact h.deciding rfl
      · rw [afterVote, if_pos hr2] at h
        exact h.deciding rfl
    · refine ⟨r2, ?_, ⟨h2.logged, fun hd => absurd hd h2.ne_commit⟩, hno h2.ne_commit, hno h2.ne_commit⟩
      rcases h2 with ⟨ht, -⟩ | ht | ht <;> simp_all
  · refine ⟨r1, ?_, ⟨h1.logged, fun hd => absurd hd h1.ne_commit⟩, hno h1.ne_commit, hno h1.ne_commit⟩
    rcases h1 with ⟨ht, -⟩ | ht | ht <;> simp_all

theorem loop1_of_retries (hr : Retries r1) : m.loop1 t d r1 r2 = m.goTo t (.decide1 d r1 r2) := by
  unfold loop1
  split
  · next h => exact absurd h hr.1
  · next h => exact absurd h hr.2
  · rfl

theorem loop2_of_retries (hr : Retries r2) : m.loop2 t d r2 = m.goTo t (.decide2 d r2) := by
  unfold loop2
  split
  · next h => exact absurd h hr.1
  · next h => exact absurd h hr.2
  · rfl

end Master

def ClusterConfig.Agrees (g : ClusterConfig) (O : ℤ → List KVMessage) : Prop :=
  ∀ key slave1 slave2, g.Replicas key slave1 slave2 →
    g.slaveCache.applied (O slave1) key = g.slaveCache.applied (O slave2) key

namespace Cluster
variable {g : ClusterConfig} {s s' : Cluster g} {O : ℤ → List KVMessage} {t : Txn} {call : Option Call}
  {line : Line} {nodes : ℤ → Node g.slaveCache} {d r : KVMessage}

def CallOk (O : ℤ → List KVMessage) (call : Option Call) (line : Line) (nodes : ℤ → Node g.slaveCache) :
    Prop :=
  match call with
  | none | some (.lookup _) => line = .closed ∧ Quiet O (fun _ => fresh) nodes
  | some (.tpc t) => t.Ok g ∧ Talks O (t.stages line) t.target t.outgoing t.Valid t.after line nodes
  | some (.get msg key slave1) =>
    (msg.msgType = some .getReq ∧ msg.key = some key ∧ ∃ slave2, g.Replicas key slave1 slave2) ∧
      Talks O (fun _ => fresh) slave1 msg (IsValue g.slaveCache (O slave1) key) (fun _ => fresh) line nodes

structure Inv (O : ℤ → List KVMessage) (s : Cluster g) : Prop where
  table : s.master.TableOk
  settled : ∀ i, g.slaveCache.Settled (O i)
  agrees : g.Agrees O
  call : CallOk O s.master.call s.master.line s.nodes

theorem Inv.moved (h : Inv O s) {m : Master g} (hm : s.master.SameTable m)
    (hc : CallOk O m.call m.line nodes) : Inv O ⟨m, nodes⟩ :=
  ⟨h.table.same hm, h.settled, h.agrees, hc⟩

theorem Inv.finished (h : Inv O s) {m : Master g} (hm : s.master.Finishes m)
    (hq : Quiet O (fun _ => fresh) nodes) : Inv O ⟨m, nodes⟩ := by
  refine h.moved hm.table ?_
  rw [hm.call]
  exact ⟨hm.line, hq⟩

theorem inv_init : Inv (fun _ => []) (init g) where
  table := rfl
  settled _ := CacheConfig.settled_nil
  agrees _ _ _ _ := rfl
  call := by
    refine ⟨rfl, ⟨fun _ => drains_fresh, ?_, fun _ => Node.sound_init, fun _ => ⟨[], rfl, rfl, rfl⟩⟩, ?_⟩
    · intro i log queue hf
      exact Txn.replays_fresh CacheConfig.settled_nil hf
    · exact fun i => Node.unawaited_of_jobs_nil rfl

section Slaves
variable {i : ℤ} {n : Node g.slaveCache}

theorem CallOk.acts (h : CallOk O call line nodes) (ha : (nodes i).Acts n) :
    CallOk O call line (Function.update nodes i n) := by
  rcases call with _ | _ | _ | _
  · exact ⟨h.1, h.2.acts ha⟩
  · exact ⟨h.1, h.2.acts ha⟩
  · exact ⟨h.1, h.2.acts ha⟩
  · exact ⟨h.1, h.2.acts ha⟩

variable {reply : Option KVMessage}

theorem CallOk.answer (h : CallOk O call line nodes) (ha : (nodes i).answer = some (reply, n)) :
    CallOk O call line (Function.update nodes i n) := by
  rcases call with _ | _ | _ | _
  · exact ⟨h.1, (h.2.answer ha).2⟩
  · exact ⟨h.1, (h.2.answer ha).2⟩
  · exact ⟨h.1, h.2.answer ha⟩
  · exact ⟨h.1, h.2.answer ha⟩

theorem CallOk.delivered (h : CallOk O call line nodes) (ha : (nodes i).answer = some (some r, n)) :
    CallOk O call (.arrived r) (Function.update nodes i n) := by
  rcases call with _ | _ | _ | _
  · simpa using (h.2.answer ha).1
  · simpa using (h.2.answer ha).1
  · obtain ⟨rfl, ht⟩ := h.2.delivered ha
    exact ⟨h.1, ht⟩
  · exact ⟨h.1, (h.2.delivered ha).2⟩

theorem Inv.node (h : Inv O s) {a : NodeAction} (hs : s.node i a = some s') : Inv O s' := by
  obtain ⟨n, hn, rfl⟩ := map_eq_some_iff.mp hs
  exact h.moved ⟨rfl, rfl⟩ (h.call.acts (Node.acts_of_act hn))

theorem Inv.answer (h : Inv O s) {delivered : Bool} (hs : s.answer i delivered = some s') : Inv O s' := by
  obtain ⟨⟨reply, n⟩, hn, rfl⟩ := map_eq_some_iff.mp hs
  rcases reply with _ | r
  · exact h.moved ⟨rfl, rfl⟩ (h.call.answer hn)
  · cases delivered with
    | false => exact h.moved ⟨rfl, rfl⟩ (h.call.answer hn)
    | true => exact h.moved ⟨rfl, rfl⟩ (h.call.delivered hn)

end Slaves

theorem Inv.remove (h : Inv O s) {id : ℤ} {m : Master g} (hm : s.master.remove id = some m) :
    Inv O { s with master := m } := by
  obtain ⟨htable, hcall, hline⟩ := h.table.remove hm
  exact ⟨htable, h.settled, h.agrees, hcall ▸ hline ▸ h.call⟩

theorem Inv.putBack (h : Inv O s) {m : Master g} (hm : s.master.putBack = some m) :
    Inv O { s with master := m } := by
  obtain ⟨htable, hcall, hline⟩ := h.table.putBack hm
  exact ⟨htable, h.settled, h.agrees, hcall ▸ hline ▸ h.call⟩

theorem Inv.request (h : Inv O s) {msg : KVMessage} (hs : s.request msg = some s') : Inv O s' := by
  unfold Cluster.request at hs
  split_ifs at hs with hg
  obtain rfl := some.inj hs
  have hc := h.call
  rw [hg.1] at hc
  exact h.moved ⟨rfl, rfl⟩ hc

theorem callOk_tpc (hok : t.Ok g) (hset : ∀ i, g.slaveCache.Settled (O i)) {P : Stages} (hq : Quiet O P nodes)
    (h1 : (nodes t.slave1).Tracks (t.stage1 .closed) (O t.slave1))
    (h2 : (nodes t.slave2).Tracks (t.stage2 .closed) (O t.slave2))
    (h3 : ∀ i, i ≠ t.slave1 → i ≠ t.slave2 → (nodes i).Tracks fresh (O i)) :
    CallOk O (some (.tpc t)) .closed nodes := by
  refine ⟨hok, Quiet.talks ⟨⟨Txn.drains_stages, ?_, hq.holds.sound, ?_⟩, hq.unawaited⟩ Txn.drains_after⟩
  · exact fun i _ _ hst => Txn.replays_stages (hset i) hok.request hst
  · exact (Txn.forall_stages hok.replicas.ne (Q := fun i P => (nodes i).Tracks P (O i))).mpr ⟨h1, h2, h3⟩

theorem Quiet.tracks_txn (hq : Quiet O (t.stages line) nodes) (hok : t.Ok g) :
    (nodes t.slave1).Tracks (t.stage1 line) (O t.slave1) ∧
      (nodes t.slave2).Tracks (t.stage2 line) (O t.slave2) ∧
      ∀ i, i ≠ t.slave1 → i ≠ t.slave2 → (nodes i).Tracks fresh (O i) :=
  (Txn.forall_stages hok.replicas.ne (Q := fun i P => (nodes i).Tracks P (O i))).mp hq.holds.tracks

theorem Inv.lookup (h : Inv O s) (hr : s.master.registering = none) (hs : s.lookup = some s') :
    Inv O s' := by
  unfold Cluster.lookup at hs
  have hc := h.call
  have htable := h.table.slaves_eq hr
  split at hs
  · next msg hcall =>
    rw [hcall] at hc
    obtain ⟨hline, hq⟩ := hc
    have htpc (hreq : IsRequest msg) : Inv O { s with master := s.master.startTPC msg } := by
      rcases Master.startTPC_spec htable hreq with hfin | ⟨t, hok, hst, -, heq⟩
      · exact h.finished hfin hq
      · rw [heq]
        refine h.moved ⟨rfl, rfl⟩ ?_
        change CallOk O (some (.tpc t)) s.master.line s.nodes
        rw [hline]
        refine callOk_tpc hok h.settled hq ?_ ?_ fun i _ _ => hq.holds.tracks i
        · simpa [Txn.stage1, hst, asked] using hq.holds.tracks t.slave1
        · simpa [Txn.stage2, hst] using hq.holds.tracks t.slave2
    split at hs
    · next ht =>
      obtain rfl := some.inj hs
      rcases Master.startGet_spec htable msg with hfin | ⟨key, slave1, cache, hkey, hrep, heq⟩
      · exact h.finished hfin hq
      · rw [heq]
        refine h.moved ⟨rfl, rfl⟩ ⟨⟨ht, hkey, hrep⟩, ?_⟩
        change Talks _ _ _ _ _ _ s.master.line _
        rw [hline]
        exact hq.talks fun _ => drains_fresh
    · next ht => exact some.inj hs ▸ htpc (.inl ht)
    · next ht => exact some.inj hs ▸ htpc (.inr ht)
    · cases hs
  · cases hs

theorem Inv.connect (h : Inv O s) (hs : s.connect = some s') : Inv O s' := by
  simp only [Cluster.connect, bind_eq_bind, bind_eq_some_iff, guard_eq_some',
    pure_def, some.injEq] at hs
  obtain ⟨call, hcall, id, hid, -, hline, n, hn, rfl⟩ := hs
  have hc := h.call
  rw [hcall, hline] at hc
  refine h.moved ⟨rfl, rfl⟩ ?_
  change CallOk O s.master.call .sent (Function.update s.nodes id n)
  rw [hcall]
  cases call with
  | lookup msg => cases hid
  | tpc t =>
    obtain rfl : t.target = id := some.inj hid
    obtain ⟨hok, ht⟩ := hc
    refine ⟨hok, ht.connect hn Txn.drains_stages ?_ (hok.answers _) ?_ ?_⟩
    · exact fun i _ _ hst => Txn.replays_stages (h.settled i) hok.request hst
    · intro i hi
      rw [Txn.stages_of_ne hi]
      exact ht.holds.tracks i
    · exact (ht.holds.tracks t.target).accept hn hok.logged_outgoing hok.stages_send
  | get msg key slave1 =>
    obtain rfl : slave1 = id := some.inj hid
    obtain ⟨⟨ht, hkey, hrep⟩, htalk⟩ := hc
    refine ⟨⟨ht, hkey, hrep⟩, htalk.connect hn (fun _ => drains_fresh) ?_ (answers_get ht hkey _) ?_ ?_⟩
    · exact fun i _ _ hf => Txn.replays_fresh (h.settled i) hf
    · exact fun i _ => htalk.holds.tracks i
    · exact (htalk.holds.tracks slave1).accept_of_not hn (not_logged_iff.mpr (.inr ht))

section Txn
variable (hset : ∀ i, g.slaveCache.Settled (O i)) (hok : t.Ok g) (hq : Quiet O (t.stages line) nodes)
include hset hok hq

theorem callOk_vote2 (hst : t.stage = .vote1) (hr : IsVote t.msg r)
    (h1 : (nodes t.slave1).Tracks (afterVote t.msg r) (O t.slave1)) :
    CallOk O (some (.tpc { t with stage := .vote2 r })) .closed nodes := by
  obtain ⟨-, h2, h3⟩ := hq.tracks_txn hok
  refine callOk_tpc (hok.goTo hr) hset hq h1 ?_ h3
  simpa [Txn.stage2, hst, asked] using h2

theorem callOk_afterVotes {m : Master g} {r1 : KVMessage} (hst : t.stage = .vote2 r1) (hr : IsVote t.msg r)
    (h2 : (nodes t.slave2).Tracks (afterVote t.msg r) (O t.slave2)) :
    ∃ d, m.afterVotes t r1 r = m.goTo t (.decide1 d r1 r) ∧
      CallOk O (some (.tpc { t with stage := .decide1 d r1 r })) .closed nodes := by
  obtain ⟨h1, -, h3⟩ := hq.tracks_txn hok
  have hr1 : IsVote t.msg r1 := by simpa [hst, Txn.StageOk] using hok.stage
  obtain ⟨d, hd, hlog, hfst, hsnd⟩ := Master.decision_spec hr1 hr
  refine ⟨d, by simp [Master.afterVotes, hd], ?_⟩
  refine callOk_tpc (hok.goTo ⟨hlog, hr1.retries, hr.retries⟩) hset hq ?_ ?_ h3
  · rw [Txn.stage1, hst] at h1
    exact h1.mono hfst
  · exact h2.mono hsnd

theorem callOk_decide1 {r1 r2 r1' : KVMessage} (hst : t.stage = .decide1 d r1 r2) (hr : Retries r1') :
    CallOk O (some (.tpc { t with stage := .decide1 d r1' r2 })) .closed nodes := by
  obtain ⟨h1, h2, h3⟩ := hq.tracks_txn hok
  have hok' := hok.stage
  rw [Txn.stage1, hst] at h1
  rw [Txn.stage2, hst] at h2
  rw [hst] at hok'
  exact callOk_tpc (hok.goTo ⟨hok'.1, hr, hok'.2.2⟩) hset hq h1 h2 h3

theorem callOk_decide2_start {r1 r2 : KVMessage} (hst : t.stage = .decide1 d r1 r2) (hd : Decides d)
    (h1 : (nodes t.slave1).Tracks (decided t.msg d) (O t.slave1)) :
    CallOk O (some (.tpc { t with stage := .decide2 d r2 })) .closed nodes := by
  obtain ⟨-, h2, h3⟩ := hq.tracks_txn hok
  have hok' := hok.stage
  rw [Txn.stage2, hst] at h2
  rw [hst] at hok'
  exact callOk_tpc (hok.goTo ⟨⟨hd, hok'.1.2⟩, hok'.2.2⟩) hset hq h1 h2 h3

theorem callOk_decide2 {r2 r2' : KVMessage} (hst : t.stage = .decide2 d r2) (hr : Retries r2') :
    CallOk O (some (.tpc { t with stage := .decide2 d r2' })) .closed nodes := by
  obtain ⟨h1, h2, h3⟩ := hq.tracks_txn hok
  have hok' := hok.stage
  rw [Txn.stage1, hst] at h1
  rw [Txn.stage2, hst] at h2
  rw [hst] at hok'
  exact callOk_tpc (hok.goTo ⟨hok'.1, hr⟩) hset hq h1 h2 h3

end Txn

theorem Inv.fail (h : Inv O s) {error : Option String} (hr : s.NoRace (.fail error))
    (hs : s.fail error = some s') : Inv O s' ∧ s.master.Continues s'.master := by
  simp only [Cluster.fail, bind_eq_bind, bind_eq_some_iff, pure_def,
    some.injEq] at hs
  obtain ⟨call, hcall, id, hid, m, hm, rfl⟩ := hs
  have hc := h.call
  rw [hcall] at hc
  change Inv O ⟨m, Function.update s.nodes id (s.nodes id).abandon⟩ ∧ s.master.Continues m
  cases call with
  | lookup msg => cases hid
  | get msg key slave1 =>
    obtain rfl : slave1 = id := some.inj hid
    obtain rfl := some.inj hm
    exact ⟨h.finished (Master.finishes_finish ..) hc.2.abandon, Master.continues_finish ..⟩
  | tpc t =>
    obtain rfl : t.target = id := some.inj hid
    obtain ⟨hok, htalk⟩ := hc
    have hq := htalk.abandon
    obtain ⟨h1, h2, -⟩ := hq.tracks_txn hok
    -- The second phase looks the replica up again and finds it where it was.
    have hids (h2 : t.stage.isPhase2 = true) : s.master.slaves = g.ids :=
      h.table.slaves_eq (hr (by simpa only [looksUp, hcall] using h2))
    simp only [Master.exchangeFails] at hm
    cases hst : t.stage with
    | vote1 =>
      rw [hst] at hm
      obtain rfl := some.inj hm
      rw [Txn.stage1, hst] at h1
      exact ⟨h.moved ⟨rfl, rfl⟩ (callOk_vote2 h.settled hok hq hst (isVote_abort _ error)
        (h1.mono asked_voting)), Master.continues_goTo hcall _⟩
    | vote2 r1 =>
      rw [hst] at hm
      obtain rfl := some.inj hm
      rw [Txn.stage2, hst] at h2
      obtain ⟨d, heq, hc⟩ := callOk_afterVotes h.settled hok hq (m := s.master) hst (isVote_abort _ error)
        (h2.mono asked_voting)
      rw [heq]
      exact ⟨h.moved ⟨rfl, rfl⟩ hc, Master.continues_goTo hcall _⟩
    | decide1 d r1 r2 =>
      rw [hst] at hm
      obtain ⟨id, hid, rfl⟩ := map_eq_some_iff.mp hm
      rw [Master.firstReplica, hids (by rw [hst]; rfl), hok.replicas.1] at hid
      obtain rfl := some.inj hid
      have hret : Retries r1 := by simpa [hst, Txn.StageOk] using (hst ▸ hok.stage).2.1
      rw [Master.loop1_of_retries hret]
      exact ⟨h.moved ⟨rfl, rfl⟩ (callOk_decide1 h.settled hok hq hst hret), Master.continues_goTo hcall _⟩
    | decide2 d r2 =>
      rw [hst] at hm
      obtain ⟨id, hid, rfl⟩ := map_eq_some_iff.mp hm
      rw [hids (by rw [hst]; rfl), hok.replicas.2] at hid
      obtain rfl := some.inj hid
      have hret : Retries r2 := (hst ▸ hok.stage).2
      rw [Master.loop2_of_retries hret]
      exact ⟨h.moved ⟨rfl, rfl⟩ (callOk_decide2 h.settled hok hq hst hret), Master.continues_goTo hcall _⟩

structure Concludes (t : Txn) (d : KVMessage) (O O' : ℤ → List KVMessage) : Prop where
  settled : ∀ i, g.slaveCache.Settled (O' i)
  first : g.slaveCache.applied (O' t.slave1) = g.slaveCache.outcome (O t.slave1) t.msg d
  second : g.slaveCache.applied (O' t.slave2) = g.slaveCache.outcome (O t.slave2) t.msg d
  others : ∀ i, i ≠ t.slave1 → i ≠ t.slave2 → O' i = O i

theorem Concludes.applied_other {O' : ℤ → List KVMessage} (h : Concludes (g := g) t d O O') (hok : t.Ok g)
    {key : JString} (hkey : key ≠ t.key) (i : ℤ) :
    g.slaveCache.applied (O' i) key = g.slaveCache.applied (O i) key := by
  by_cases h1 : i = t.slave1
  · rw [h1, h.first, CacheConfig.outcome_other hok.key hkey]
  · by_cases h2 : i = t.slave2
    · rw [h2, h.second, CacheConfig.outcome_other hok.key hkey]
    · rw [h.others i h1 h2]

theorem Concludes.agrees {O' : ℤ → List KVMessage} (h : Concludes (g := g) t d O O') (hok : t.Ok g)
    (hag : g.Agrees O) : g.Agrees O' := by
  intro key slave1 slave2 hrep
  by_cases hkey : key = t.key
  · obtain rfl : t.slave1 = slave1 := some.inj (hok.replicas.1.symm.trans (hkey ▸ hrep.1))
    obtain rfl : t.slave2 = slave2 := some.inj (hok.replicas.2.symm.trans hrep.2)
    rw [h.first, h.second, hkey]
    exact CacheConfig.outcome_congr hok.key (hag _ _ _ hok.replicas)
  · rw [h.applied_other hok hkey, h.applied_other hok hkey]
    exact hag key slave1 slave2 hrep

theorem concludes (hok : t.Ok g) (hset : ∀ i, g.slaveCache.Settled (O i)) (hd : Decides d)
    (h1 : (nodes t.slave1).Tracks (decided t.msg d) (O t.slave1))
    (h2 : (nodes t.slave2).Tracks (decided t.msg d) (O t.slave2))
    (h3 : ∀ i, i ≠ t.slave1 → i ≠ t.slave2 → (nodes i).Tracks fresh (O i)) :
    Concludes (g := g) t d O fun i => (nodes i).log := by
  have hdecided {i : ℤ} (h : (nodes i).Tracks (decided t.msg d) (O i)) :
      g.slaveCache.Settled (nodes i).log ∧
        g.slaveCache.applied (nodes i).log = g.slaveCache.outcome (O i) t.msg d := by
    obtain ⟨done, hlog, hp⟩ := h.cleared drains_decided
    rw [hlog]
    exact (hset i).decided hok.request hd hp
  have hfresh (i : ℤ) (hi1 : i ≠ t.slave1) (hi2 : i ≠ t.slave2) : (nodes i).log = O i := by
    obtain ⟨done, hlog, rfl, -⟩ := (h3 i hi1 hi2).cleared drains_fresh
    rw [hlog, List.append_nil]
  refine ⟨fun i => ?_, (hdecided h1).2, (hdecided h2).2, hfresh⟩
  by_cases hi1 : i = t.slave1
  · exact hi1 ▸ (hdecided h1).1
  · by_cases hi2 : i = t.slave2
    · exact hi2 ▸ (hdecided h2).1
    · exact hfresh i hi1 hi2 ▸ hset i

theorem Quiet.restart {P : Stages} (hq : Quiet O P nodes) (hdone : ∀ i, (nodes i).inflight = [])
    (hset : ∀ i, g.slaveCache.Settled (nodes i).log) :
    Quiet (fun i => (nodes i).log) (fun _ => fresh) nodes := by
  refine ⟨⟨fun _ => drains_fresh, ?_, hq.holds.sound, fun i => ⟨[], ?_, rfl, hdone i⟩⟩, hq.unawaited⟩
  · exact fun i _ _ hf => Txn.replays_fresh (hset i) hf
  · simp [Node.executing_of_inflight (hdone i)]

inductive Received (O : ℤ → List KVMessage) (s : Cluster g) : (ℤ → List KVMessage) → Master g → Prop
  | next {t : Txn} {stage : Stage} (hcall : s.master.call = some (.tpc t)) :
      Received O s O (s.master.goTo t stage)
  | got {msg r : KVMessage} {key : JString} {slave1 slave2 : ℤ} (ht : msg.msgType = some .getReq)
      (hrep : g.Replicas key slave1 slave2) (hv : IsValue g.slaveCache (O slave1) key r) :
      Received O s O (s.master.endGet msg key r)
  | concluded {t : Txn} {d : KVMessage} {O' : ℤ → List KVMessage} (hcall : s.master.call = some (.tpc t))
      (hok : t.Ok g) (hd : Decides d) (hkey : CommitOk t.msg d) (hO : Concludes (g := g) t d O O') :
      Received O s O' (s.master.conclude t d)

theorem Inv.receive (h : Inv O s) (hs : s.receive = some s') :
    ∃ O', Received O s O' s'.master ∧ Inv O' s' := by
  unfold Cluster.receive at hs
  split at hs
  case h_2 => cases hs
  next call r hcall hline =>
  obtain rfl := some.inj hs
  have hc := h.call
  rw [hcall, hline] at hc
  cases call with
  | lookup msg => cases hc.1
  | get msg key slave1 =>
    obtain ⟨⟨ht, -, slave2, hrep⟩, htalk⟩ := hc
    obtain ⟨hq, hv, -⟩ := htalk.arrived
    exact ⟨O, .got ht hrep hv, h.finished Master.finishes_endGet hq⟩
  | tpc t =>
    obtain ⟨hok, htalk⟩ := hc
    obtain ⟨hq, hv, ht⟩ := htalk.arrived
    unfold Txn.Valid at hv
    unfold Txn.after Txn.target at ht
    have hok' := hok.stage
    simp only [Master.receive]
    cases hst : t.stage with
    | vote1 =>
      rw [hst] at hv ht
      exact ⟨O, .next hcall, h.moved ⟨rfl, rfl⟩ (callOk_vote2 h.settled hok hq hst hv ht)⟩
    | vote2 r1 =>
      rw [hst] at hv ht
      obtain ⟨d, heq, hc⟩ := callOk_afterVotes h.settled hok hq (m := s.master) hst hv ht
      simp only [heq]
      exact ⟨O, .next hcall, h.moved ⟨rfl, rfl⟩ hc⟩
    | decide1 d r1 r2 =>
      rw [hst] at hv ht hok'
      rcases hv.ack_or_retries with hack | hret
      · have heq : s.master.loop1 t d r r2 = s.master.goTo t (.decide2 d r2) := by
          simp [Master.loop1, hack]
        simp only [heq]
        simp only [afterDecision_of_ack hack] at ht
        exact ⟨O, .next hcall, h.moved ⟨rfl, rfl⟩
          (callOk_decide2_start h.settled hok hq hst (hv.2 hack) ht)⟩
      · simp only [Master.loop1_of_retries hret]
        exact ⟨O, .next hcall, h.moved ⟨rfl, rfl⟩ (callOk_decide1 h.settled hok hq hst hret)⟩
    | decide2 d r2 =>
      rw [hst] at hv ht hok'
      rcases hv.ack_or_retries with hack | hret
      · have heq : s.master.loop2 t d r = s.master.conclude t d := by simp [Master.loop2, hack]
        simp only [heq]
        simp only [afterDecision_of_ack hack] at ht
        obtain ⟨h1, -, h3⟩ := hq.tracks_txn hok
        rw [Txn.stage1, hst] at h1
        have hO := concludes hok h.settled hok'.1.1 h1 ht h3
        have hdone : ∀ i, (s.nodes i).inflight = [] := by
          intro i
          by_cases hi1 : i = t.slave1
          · obtain ⟨_, -, hp⟩ := h1
            exact hi1 ▸ hp.2
          · by_cases hi2 : i = t.slave2
            · obtain ⟨_, -, hp⟩ := ht
              exact hi2 ▸ hp.2
            · obtain ⟨_, -, hp⟩ := h3 i hi1 hi2
              exact hp.2
        refine ⟨_, .concluded hcall hok hok'.1.1 hok'.1.2 hO, ?_⟩
        have hfin := Master.finishes_conclude (m := s.master) (t := t) (d := d)
        refine ⟨h.table.same hfin.table, hO.settled, hO.agrees hok h.agrees, ?_⟩
        simp only [hfin.call, hfin.line]
        exact ⟨rfl, hq.restart hdone hO.settled⟩
      · simp only [Master.loop2_of_retries hret]
        exact ⟨O, .next hcall, h.moved ⟨rfl, rfl⟩ (callOk_decide2 h.settled hok hq hst hret)⟩

theorem Inv.step (h : Inv O s) {a : Action} (hr : s.NoRace a) (hs : s.step a = some s') :
    ∃ O', Inv O' s' := by
  cases a with
  | request msg => exact ⟨O, h.request hs⟩
  | lookup => exact ⟨O, h.lookup (hr rfl) hs⟩
  | connect => exact ⟨O, h.connect hs⟩
  | fail error => exact ⟨O, (h.fail hr hs).1⟩
  | receive =>
    obtain ⟨O', -, hO'⟩ := h.receive hs
    exact ⟨O', hO'⟩
  | node i a => exact ⟨O, h.node hs⟩
  | answer i delivered => exact ⟨O, h.answer hs⟩
  | remove id =>
    obtain ⟨m, hm, rfl⟩ := map_eq_some_iff.mp hs
    exact ⟨O, h.remove hm⟩
  | putBack =>
    obtain ⟨m, hm, rfl⟩ := map_eq_some_iff.mp hs
    exact ⟨O, h.putBack hm⟩

theorem CallOk.quiet (h : CallOk O call line nodes) (hno : ∀ t, call ≠ some (.tpc t)) (i : ℤ) :
    (nodes i).Sound ∧ (nodes i).Tracks fresh (O i) := by
  rcases call with _ | _ | t | _
  · exact ⟨h.2.holds.sound i, h.2.holds.tracks i⟩
  · exact ⟨h.2.holds.sound i, h.2.holds.tracks i⟩
  · exact absurd rfl (hno t)
  · exact ⟨h.2.holds.sound i, h.2.holds.tracks i⟩

theorem Inv.store_eq (h : Inv O s) (hno : ∀ t, s.master.call ≠ some (.tpc t)) {i : ℤ}
    (hup : (s.nodes i).up = true) : (s.nodes i).store = g.slaveCache.applied (O i) := by
  obtain ⟨hsound, done, hlog, rfl, hinfl⟩ := h.call.quiet hno i
  have hexec := Node.executing_of_inflight hinfl
  rw [hexec, List.append_nil, List.append_nil] at hlog
  rw [← hlog]
  refine hsound.store hup fun job p hw hl => ?_
  simp [Worker.executing, hw, hl] at hexec

end Cluster
end Cs162.Kvstore
