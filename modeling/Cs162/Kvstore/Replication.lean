import Cs162.Kvstore.Agreement

namespace Cs162.Kvstore
open MasterHandler Lib Function Option

namespace CacheConfig
variable {c : CacheConfig} {m m' : PlainMap} {log : List KVMessage} {req d : KVMessage} {k v : JString}

theorem perform_admitted (hm : ∀ k v, m k = some v → KVServer.KeyOk k ∧ c.InRange k)
    (h : c.perform m req = some m') (hk : m' k = some v) : KVServer.KeyOk k ∧ c.InRange k := by
  unfold perform at h
  split at h
  · cases h
  · split at h
    · next k' v' hkey _ =>
      split_ifs at h with hin
      obtain rfl := some.inj h
      by_cases hkk : k = k'
      · exact hkk ▸ ⟨(KVServer.admitKey_ok_iff.mp hkey).2, hin⟩
      · rw [update_of_ne hkk] at hk
        exact hm k v hk
    · cases h
  · split at h
    · next k' hkey =>
      split_ifs at h with hin
      obtain rfl := some.inj h
      by_cases hkk : k = k'
      · simp [hkk] at hk
      · rw [update_of_ne hkk] at hk
        exact hm k v hk
    · cases h
  · obtain rfl := some.inj h
    exact hm k v hk

theorem applied_admitted (h : c.applied log k = some v) : KVServer.KeyOk k ∧ c.InRange k := by
  induction log using List.reverseRecOn generalizing k v with
  | nil => cases h
  | append_singleton log entry ih =>
    rw [c.applied_snoc] at h
    by_cases ht : entry.msgType = some .commit
    · rw [contentsAfter_commit ht] at h
      cases hp : log.getLast?.bind (c.perform (c.applied log)) with
      | none =>
        rw [hp] at h
        exact ih h
      | some m' =>
        rw [hp] at h
        obtain ⟨p, -, hperf⟩ := bind_eq_some_iff.mp hp
        exact perform_admitted (fun k v => ih) hperf h
    · rw [contentsAfter_of_ne ht] at h
      exact ih h

theorem outcome_delReq (ht : req.msgType = some .delReq) (hkey : req.key = some k)
    (hd : d.msgType = some .commit) : c.outcome log req d k = none := by
  have habsent (hno : ¬ (KVServer.KeyOk k ∧ c.InRange k)) : c.applied log k = none :=
    eq_none_iff_forall_ne_some.mpr fun v hv => hno (applied_admitted hv)
  rw [outcome, if_pos hd]
  simp only [perform, ht]
  cases hadm : KVServer.admitKey req.key with
  | error e =>
    refine habsent fun hk => ?_
    rw [KVServer.admitKey_ok_iff.mpr ⟨hkey, hk.1⟩] at hadm
    cases hadm
  | ok k' =>
    obtain ⟨hk', hok⟩ := KVServer.admitKey_ok_iff.mp hadm
    obtain rfl : k = k' := some.inj (hkey.symm.trans hk')
    dsimp only
    split_ifs with hin
    · simp
    · by_cases hr : c.InRange k
      · simpa [hr] using hin
      · exact habsent fun h => hr h.2

theorem outcome_putReq (ht : req.msgType = some .putReq) (hkey : req.key = some k)
    (hval : req.value = some v) (hk : KVServer.KeyOk k) (hv : KVServer.ValueOk v) (hin : c.InRange k)
    (hd : d.msgType = some .commit) : c.outcome log req d k = some v := by
  rw [outcome, if_pos hd]
  simp [perform, ht, KVServer.admitKey_ok_iff.mpr ⟨hkey, hk⟩, KVServer.admitValue_ok_iff.mpr ⟨hval, hv⟩, hin]

end CacheConfig

namespace ClusterConfig
variable {g : ClusterConfig} {O O' : ℤ → List KVMessage} {key : JString} {slave1 slave2 : ℤ}

def contents (g : ClusterConfig) (O : ℤ → List KVMessage) : PlainMap := fun key =>
  (findFirstReplica g.ids (longToString (hashTo64bit key))).bind fun slave1 => g.slaveCache.applied (O slave1) key

theorem Replicas.contents_eq (h : g.Replicas key slave1 slave2) (O : ℤ → List KVMessage) :
    g.contents O key = g.slaveCache.applied (O slave1) key := by
  rw [contents, h.1, bind_some]

theorem Agrees.contents_eq (hag : g.Agrees O) (h : g.Replicas key slave1 slave2) :
    g.contents O key = g.slaveCache.applied (O slave2) key :=
  (h.contents_eq O).trans (hag _ _ _ h)

def Honours (g : ClusterConfig) (msg : KVMessage) : Prop :=
  msg.msgType = some .putReq → ∀ key ∈ msg.key, rejectsKey msg.key = false → g.masterCache.InRange key →
    KVServer.KeyOk key ∧ g.slaveCache.InRange key ∧ ∃ v ∈ msg.value, KVServer.ValueOk v

instance (g : ClusterConfig) (msg : KVMessage) : Decidable (g.Honours msg) :=
  inferInstanceAs (Decidable (_ → _))

def InEffect (g : ClusterConfig) (O : ℤ → List KVMessage) (msg : KVMessage) : Prop :=
  ∀ key, msg.key = some key →
    (msg.msgType = some .putReq → msg.value ≠ none ∧ g.contents O key = msg.value) ∧
      (msg.msgType = some .delReq → g.contents O key = none)

end ClusterConfig

namespace Cluster
variable {g : ClusterConfig} {s s' : Cluster g} {O O' : ℤ → List KVMessage} {t : Txn} {d : KVMessage}

section Concludes
variable (hO : Concludes (g := g) t d O O') (hok : t.Ok g)
include hO hok

theorem Concludes.contents_key : g.contents O' t.key = g.slaveCache.outcome (O t.slave1) t.msg d t.key := by
  rw [hok.replicas.contents_eq, hO.first]

theorem Concludes.contents_other {key : JString} (hkey : key ≠ t.key) :
    g.contents O' key = g.contents O key := by
  unfold ClusterConfig.contents
  congr 1
  funext slave1
  exact hO.applied_other hok hkey slave1

theorem Concludes.contents_eq : g.contents O' =
    update (g.contents O) t.key (g.slaveCache.outcome (O t.slave1) t.msg d t.key) := by
  funext key
  by_cases hkey : key = t.key
  · rw [hkey, update_self, hO.contents_key hok]
  · rw [update_of_ne hkey, hO.contents_other hok hkey]

theorem Concludes.contents_abort (hd : d.msgType ≠ some .commit) : g.contents O' = g.contents O := by
  rw [hO.contents_eq hok, CacheConfig.outcome, if_neg hd, ← hok.replicas.contents_eq, update_eq_self]

end Concludes

structure Durable (O : ℤ → List KVMessage) (m : Master g) : Prop where
  honours : ∀ call, m.call = some call → g.Honours call.request
  cache : m.masterCache.Coherent (g.contents O)
  result : m.call = none → ∀ msg out, m.result = some (msg, .ok out) → g.InEffect O msg

theorem durable_init : Durable (fun _ => []) (Master.init g) where
  honours _ h := by cases h
  cache := KVCache.coherent_init _
  result _ _ _ h := by cases h

variable {m m' : Master g} {msg r : KVMessage} {key : JString} {slave1 slave2 : ℤ}

theorem inEffect_getReq (ht : msg.msgType = some .getReq) : g.InEffect O msg := by
  intro key _
  simp [ht]

theorem Durable.same (h : Durable O m) (hcall : m'.call = m.call) (hcache : m'.masterCache = m.masterCache)
    (hresult : m'.result = m.result) : Durable O m' :=
  ⟨hcall ▸ h.honours, hcache ▸ h.cache, hcall ▸ hresult ▸ h.result⟩

theorem durable_finish {cache : KVCache g.masterCache} (hc : cache.Coherent (g.contents O))
    {outcome : Outcome} (hout : ∀ out, outcome = .ok out → g.InEffect O msg) :
    Durable O ({ m with masterCache := cache }.finish msg outcome) := by
  refine ⟨fun _ hcall => (by cases hcall), hc, fun _ msg' out hres => ?_⟩
  obtain ⟨rfl, hok⟩ := Prod.mk.inj (some.inj hres)
  exact hout out hok

theorem Durable.continues (h : Durable O m) (hm : m.Continues m') : Durable O m' := by
  refine ⟨fun call hcall => ?_, hm.cache ▸ h.cache, fun hnone msg out hres => ?_⟩
  · rcases hm.call with ⟨hnone, -⟩ | ⟨c₁, c₂, hc₁, hc₂, heq⟩
    · simp [hnone] at hcall
    · obtain rfl := some.inj (hc₂.symm.trans hcall)
      exact heq ▸ h.honours c₁ hc₁
  · rcases hm.call with ⟨-, msg', e, herr⟩ | ⟨_, _, -, hc₂, -⟩
    · simp [herr] at hres
    · simp [hc₂] at hnone

theorem Durable.startTPC (h : Durable O m) (hcall : m.call = some (.lookup msg)) :
    Durable O (m.startTPC msg) := by
  unfold Master.startTPC
  split
  · exact h.continues (Master.continues_finish ..)
  · split
    · exact h.continues (Master.continues_finish ..)
    · split
      · exact h.continues (Master.continues_finish ..)
      · exact h.continues (Master.continues_finish ..)
      · exact h.continues ⟨rfl, .inr ⟨_, _, hcall, rfl, rfl⟩⟩

theorem Durable.startGet (h : Durable O m) (hcall : m.call = some (.lookup msg))
    (ht : msg.msgType = some .getReq) : Durable O (m.startGet msg) := by
  unfold Master.startGet
  cases msg.key with
  | none => exact h.continues (Master.continues_finish ..)
  | some key =>
    cases hi : g.masterCache.setIndex? key with
    | none =>
      have hget : KVCache.get key m.masterCache = .error .indexOutOfBoundsException m.masterCache := by
        simp only [KVCache.get, bind, EStateM.bind, KVCache.getSet_run_none hi]
      simp only [hget]
      exact durable_finish h.cache fun _ _ => inEffect_getReq ht
    | some i =>
      have hc : (m.masterCache.marked i key).Coherent (g.contents O) := h.cache.marked
      simp only [KVCache.get_run hi]
      cases (KVCache.getScan key (m.masterCache.sets i)).1 with
      | some value => exact durable_finish hc fun _ _ => inEffect_getReq ht
      | none =>
        dsimp only
        split
        · exact durable_finish hc fun _ _ => inEffect_getReq ht
        · refine ⟨fun call heq => ?_, hc, fun hnone => (by cases hnone)⟩
          obtain rfl := some.inj heq
          exact h.honours (.lookup msg) hcall

theorem Durable.endGet (h : Durable O m) (ht : msg.msgType = some .getReq)
    (hrep : g.Replicas key slave1 slave2) (hv : IsValue g.slaveCache (O slave1) key r) :
    Durable O (m.endGet msg key r) := by
  unfold Master.endGet
  split
  · exact h.continues (Master.continues_finish ..)
  · next value _ hval =>
    cases hi : g.masterCache.setIndex? key with
    | none =>
      have hput : KVCache.put key (some value) m.masterCache =
          .error .indexOutOfBoundsException m.masterCache := by
        simp only [KVCache.put, bind, EStateM.bind, KVCache.getSet_run_none hi]
      simp only [hput]
      exact durable_finish h.cache fun _ _ => inEffect_getReq ht
    | some i =>
      have hold : g.contents O key = some value := (hrep.contents_eq O).trans (hv value hval)
      have hc := h.cache.stored hi value
      rw [(update_eq_iff.mpr ⟨hold.symm, fun _ _ => rfl⟩ :
        update (g.contents O) key (some value) = g.contents O)] at hc
      simp only [KVCache.put_run hi]
      exact durable_finish hc fun _ _ => inEffect_getReq ht
  · exact h.continues (Master.continues_finish ..)

theorem Durable.conclude (h : Durable O m) (hcall : m.call = some (.tpc t)) (hok : t.Ok g) (hd : Decides d)
    (hkey : CommitOk t.msg d) (hO : Concludes (g := g) t d O O') : Durable O' (m.conclude t d) := by
  rcases hd with hd | hd
  · obtain ⟨i, hi⟩ := isSome_iff_exists.mp hok.cached
    have hcontents := hO.contents_eq hok
    have hkeyval := hO.contents_key hok
    simp only [Master.conclude, hd]
    rcases hok.request with ht | ht
    · have hhon : g.Honours t.msg := h.honours _ hcall
      obtain ⟨hk, hin, v, hval, hv⟩ := hhon ht t.key hok.key (hkey hd) hok.cached
      rw [mem_def] at hval
      rw [CacheConfig.outcome_putReq ht hok.key hval hk hv hin hd] at hcontents hkeyval
      have hput : t.isPutReq = true := decide_eq_true ht
      simp only [hput, if_true, hval, KVCache.put_run hi]
      refine durable_finish (hcontents ▸ h.cache.stored hi v) fun _ _ key hkey' => ?_
      obtain rfl := some.inj (hok.key.symm.trans hkey')
      exact ⟨fun _ => ⟨by simp [hval], by rw [hkeyval, hval]⟩, fun hdel => by simp [ht] at hdel⟩
    · rw [CacheConfig.outcome_delReq ht hok.key hd] at hcontents hkeyval
      have hput : t.isPutReq = false := by simp [Txn.isPutReq, ht]
      simp only [hput, Bool.false_eq_true, if_false, KVCache.del_run hi]
      refine durable_finish (hcontents ▸ h.cache.dropped hi) fun _ _ key hkey' => ?_
      obtain rfl := some.inj (hok.key.symm.trans hkey')
      exact ⟨fun hput => by simp [ht] at hput, fun _ => hkeyval⟩
  · have hcontents := hO.contents_abort hok (by simp [hd])
    have hc : m.masterCache.Coherent (g.contents O') := hcontents ▸ h.cache
    simp only [Master.conclude, hd]
    exact durable_finish hc fun _ hout => by cases hout

theorem Durable.received (h : Durable O s.master) (hr : Received O s O' m) : Durable O' m := by
  cases hr with
  | next hcall => exact h.continues (Master.continues_goTo hcall _)
  | got ht hrep hv => exact h.endGet ht hrep hv
  | concluded hcall hok hd hkey hO => exact h.conclude hcall hok hd hkey hO

def Sane (s : Cluster g) (a : Action) : Prop := s.NoRace a ∧ ∀ msg ∈ a.entering, g.Honours msg

instance (s : Cluster g) (a : Action) : Decidable (s.Sane a) := inferInstanceAs (Decidable (_ ∧ _))

theorem Durable.step (hi : Inv O s) (h : Durable O s.master) {a : Action} (hok : s.Sane a)
    (hs : s.step a = some s') : ∃ O', Inv O' s' ∧ Durable O' s'.master := by
  cases a with
  | request msg =>
    refine ⟨O, hi.request hs, ?_⟩
    simp only [Cluster.step, Cluster.request] at hs
    split_ifs at hs
    obtain rfl := some.inj hs
    refine ⟨fun call hcall => ?_, h.cache, fun hnone => (by cases hnone)⟩
    obtain rfl := some.inj hcall
    exact hok.2 msg rfl
  | lookup =>
    refine ⟨O, hi.lookup (hok.1 rfl) hs, ?_⟩
    simp only [Cluster.step, Cluster.lookup] at hs
    split at hs
    · next msg hcall =>
      split at hs
      · next ht => exact some.inj hs ▸ h.startGet hcall ht
      · exact some.inj hs ▸ h.startTPC hcall
      · exact some.inj hs ▸ h.startTPC hcall
      · cases hs
    · cases hs
  | connect =>
    refine ⟨O, hi.connect hs, ?_⟩
    simp only [Cluster.step, Cluster.connect, bind_eq_bind, bind_eq_some_iff,
      pure_def, some.injEq] at hs
    obtain ⟨_, -, _, -, _, -, _, -, rfl⟩ := hs
    exact h.same rfl rfl rfl
  | fail error =>
    obtain ⟨hi', hm⟩ := hi.fail hok.1 hs
    exact ⟨O, hi', h.continues hm⟩
  | receive =>
    obtain ⟨O', hr, hi'⟩ := hi.receive hs
    exact ⟨O', hi', h.received hr⟩
  | node i a =>
    refine ⟨O, hi.node hs, ?_⟩
    obtain ⟨n, -, rfl⟩ := map_eq_some_iff.mp hs
    exact h.same rfl rfl rfl
  | answer i delivered =>
    refine ⟨O, hi.answer hs, ?_⟩
    obtain ⟨⟨reply, n⟩, -, rfl⟩ := map_eq_some_iff.mp hs
    dsimp only
    split <;> exact h.same rfl rfl rfl
  | remove id =>
    obtain ⟨m, hm, rfl⟩ := map_eq_some_iff.mp hs
    refine ⟨O, hi.remove hm, ?_⟩
    unfold Master.remove at hm
    split_ifs at hm
    exact some.inj hm ▸ h.same rfl rfl rfl
  | putBack =>
    obtain ⟨m, hm, rfl⟩ := map_eq_some_iff.mp hs
    refine ⟨O, hi.putBack hm, ?_⟩
    obtain ⟨id, -, rfl⟩ := map_eq_some_iff.mp hm
    exact h.same rfl rfl rfl

def Replicated (s : Cluster g) : Prop :=
  ∀ msg out key slave1 slave2, s.master.call = none → s.master.result = some (msg, .ok out) →
    msg.key = some key → g.Replicas key slave1 slave2 →
    (s.nodes slave1).up = true → (s.nodes slave2).up = true →
      (msg.msgType = some .putReq → ∃ v, msg.value = some v ∧
        (s.nodes slave1).store key = some v ∧ (s.nodes slave2).store key = some v) ∧
      (msg.msgType = some .delReq → (s.nodes slave1).store key = none ∧ (s.nodes slave2).store key = none)

def CacheCurrent (s : Cluster g) : Prop :=
  (∀ t, s.master.call ≠ some (.tpc t)) → ∀ i, ∀ p ∈ KVCache.pairs (s.master.masterCache.sets i),
    ∀ slave1 slave2, g.Replicas p.1 slave1 slave2 →
    (s.nodes slave1).up = true → (s.nodes slave2).up = true →
      (s.nodes slave1).store p.1 = p.2 ∧ (s.nodes slave2).store p.1 = p.2

theorem Inv.stores_eq (h : Inv O s) (hno : ∀ t, s.master.call ≠ some (.tpc t))
    (hrep : g.Replicas key slave1 slave2) (h1 : (s.nodes slave1).up = true)
    (h2 : (s.nodes slave2).up = true) :
    (s.nodes slave1).store key = g.contents O key ∧ (s.nodes slave2).store key = g.contents O key := by
  rw [h.store_eq hno h1, h.store_eq hno h2]
  exact ⟨(hrep.contents_eq O).symm, (h.agrees.contents_eq hrep).symm⟩

theorem replicated_and_cacheCurrent (h : (system g).ReachVia Sane s) : s.Replicated ∧ s.CacheCurrent := by
  obtain ⟨O, hi, hd⟩ : ∃ O, Inv O s ∧ Durable O s.master := by
    refine System.ReachVia.invariant (I := fun s => ∃ O, Inv O s ∧ Durable O s.master) ?_ ?_ h
    · rintro s rfl
      exact ⟨_, inv_init, durable_init⟩
    · rintro s a s' ⟨O, hi, hd⟩ hok hs
      exact hd.step hi hok hs
  constructor
  · intro msg out key slave1 slave2 hcall hres hkey hrep h1 h2
    obtain ⟨hs1, hs2⟩ := hi.stores_eq (by simp [hcall]) hrep h1 h2
    obtain ⟨hput, hdel⟩ := hd.result hcall msg out hres key hkey
    refine ⟨fun ht => ?_, fun ht => ⟨hs1.trans (hdel ht), hs2.trans (hdel ht)⟩⟩
    obtain ⟨hne, hval⟩ := hput ht
    obtain ⟨v, hv⟩ := ne_none_iff_exists'.mp hne
    exact ⟨v, hv, by rw [hs1, hval, hv], by rw [hs2, hval, hv]⟩
  · intro hno i p hp slave1 slave2 hrep h1 h2
    obtain ⟨hs1, hs2⟩ := hi.stores_eq hno hrep h1 h2
    have hv := (hd.cache.value i p hp).2
    exact ⟨hs1.trans hv.symm, hs2.trans hv.symm⟩

theorem result_of_returned {s : Cluster twoSlaves} {msg : KVMessage} (h : s.view.returned = some msg) :
    ∃ out, s.master.result = some (msg, .ok out) := by
  obtain ⟨⟨msg', outcome⟩, hres, hok⟩ := bind_eq_some_iff.mp h
  cases outcome with
  | ok out =>
    obtain rfl : msg' = msg := some.inj hok
    exact ⟨out, hres⟩
  | error e => cases hok

theorem replicated_resent :
    ∃ s : Cluster twoSlaves, (system twoSlaves).ReachVia Sane s ∧ s.view.returned = some (putOf [118]) ∧
      s.Replicated ∧ s.CacheCurrent := by
  have hrun : (System.runVia step Sane (init twoSlaves) ([.request (putOf [118]), .lookup] ++
      exchange 1 ++ exchange 2 ++ [.connect, .node 1 .getJob, .node 1 .logJob, .node 1 .executeJob,
        .answer 1 false, .fail none] ++ exchange 1 ++ exchange 2)).map (fun s => s.view.returned) =
          some (some (putOf [118])) := by decide +kernel
  obtain ⟨s, hs, hres⟩ := map_eq_some_iff.mp hrun
  have hreach : (system twoSlaves).ReachVia Sane s := System.ReachVia.run (.init rfl) hs
  exact ⟨s, hreach, hres, replicated_and_cacheCurrent hreach⟩

theorem not_replicated_emptyValue :
    ∃ s : Cluster twoSlaves, (system twoSlaves).Reach s ∧ ¬ s.Replicated ∧ ¬ s.CacheCurrent := by
  have hrun : (System.runVia step (fun _ _ => True) (init twoSlaves) ([.request (putOf []), .lookup] ++
      exchange 1 ++ exchange 2 ++ exchange 1 ++ exchange 1 ++ exchange 2 ++ exchange 2)).map view =
        some ⟨none, true, true, none, none, some (putOf []), [([107], some [])]⟩ := by decide +kernel
  obtain ⟨s, hs, hview⟩ := map_eq_some_iff.mp hrun
  have hreturned : s.view.returned = some (putOf []) := by rw [hview]
  obtain ⟨out, hres⟩ := result_of_returned hreturned
  obtain ⟨hcall, hup1, hup2, hstore1, -, -, hpairs⟩ := View.mk.inj hview
  refine ⟨s, System.ReachVia.run (.init rfl) hs, fun h => ?_, fun h => ?_⟩
  · obtain ⟨v, -, hv, -⟩ := (h _ _ _ _ _ hcall hres rfl replicas_twoSlaves hup1 hup2).1 rfl
    simp [hstore1] at hv
  · have hp : ([107], some []) ∈ KVCache.pairs (s.master.masterCache.sets ⟨0, by decide⟩) := by simp [hpairs]
    have hstale := (h (by simp [hcall]) _ _ hp _ _ replicas_twoSlaves hup1 hup2).1
    simp [hstore1] at hstale

end Cluster
end Cs162.Kvstore
