import Cs162.Lib.System
import Cs162.Kvstore.PlainMap
import Cs162.Kvstore.CacheRuns

namespace Cs162.Kvstore

namespace KVCache
variable {set : List KVCacheEntry} {key : JString}

theorem putScan_getScan (value : Option JString) (set : List KVCacheEntry) :
    putScan key value (getScan key set).2 = putScan key value set := by
  induction set with
  | nil => rfl
  | cons e es ih =>
    by_cases hk : e.key = key
    · simp only [getScan, putScan, hk, if_true]
    · simp only [getScan, putScan, hk, if_false, ih]

theorem putSet_getScan (n : ℕ) (value : Option JString) (set : List KVCacheEntry) :
    putSet n key value (getScan key set).2 = putSet n key value set := by
  by_cases h : key ∈ keys set
  · have h' : key ∈ keys (getScan key set).2 := by rwa [keys, pairs_getScan]
    rw [putSet_of_mem n h, putSet_of_mem n h', putScan_getScan]
  · rw [getScan_snd_of_notMem h]

theorem stored_marked {c : CacheConfig} (cache : KVCache c) (i : Fin c.numSets) (value : Option JString) :
    (cache.marked i key).stored i key value = cache.stored i key value := by
  have hself : (cache.marked i key).sets i = (getScan key (cache.sets i)).2 := Function.update_self ..
  simp only [stored, hself, putSet_getScan]
  simp only [marked, setSet, Function.update_idem]

def AllClear (set : List KVCacheEntry) : Prop := ∀ e ∈ set, e.isReferenced = false

theorem AllClear.putScan (h : AllClear set) (value : Option JString) : AllClear (putScan key value set).2 := by
  induction set with
  | nil => exact nofun
  | cons e es ih =>
    have hes : AllClear es := fun e' he' => h e' (List.mem_cons_of_mem _ he')
    unfold KVCache.putScan
    split_ifs
    · exact List.forall_mem_cons.mpr ⟨rfl, hes⟩
    · exact List.forall_mem_cons.mpr ⟨h e List.mem_cons_self, ih hes⟩

theorem AllClear.evicts {rest : List KVCacheEntry} (h : AllClear set) (hev : Evicts set rest) : AllClear rest := by
  rcases hev with ⟨front, victim, back, rfl, -, -, rfl⟩ | ⟨-, victim, back, rfl, rfl⟩
  · intro e he
    rcases List.mem_append.mp he with he | he
    · obtain ⟨e', -, rfl⟩ := List.mem_map.mp he
      rfl
    · exact h e (List.mem_append_right _ (List.mem_cons_of_mem _ he))
  · intro e he
    obtain ⟨e', -, rfl⟩ := List.mem_map.mp he
    rfl

theorem AllClear.putSet {n : ℕ} (hn : 0 < n) (h : AllClear set) (value : Option JString) :
    AllClear (putSet n key value set) := by
  have happend {l : List KVCacheEntry} (hl : AllClear l) : AllClear (l ++ [⟨key, value, false⟩]) :=
    List.forall_mem_append.mpr ⟨hl, List.forall_mem_singleton.mpr rfl⟩
  by_cases hk : key ∈ keys set
  · rw [putSet_of_mem n hk]
    exact h.putScan value
  · rcases Nat.lt_or_ge set.length n with hlen | hlen
    · rw [putSet_of_room hk hlen]
      exact happend h
    · rw [putSet_of_full hk hlen]
      exact happend (h.evicts (evicts_evict (List.ne_nil_of_length_pos (Nat.lt_of_lt_of_le hn hlen))))

end KVCache

namespace ReferenceBits
open Cs162.Lib KVCache
open KVServer (admitKey admitValue CacheOk)
variable {c : CacheConfig}

inductive Call
  | get (key : Option JString)
  | put (key value : Option JString)

def Call.after (s : KVServer c) : Call → KVServer c
  | .get key => finalState (KVServer.get key s)
  | .put key value => finalState (KVServer.put key value s)

def Call.uses (s : KVServer c) : Call → Option JString
  | .get key =>
    match admitKey key with
    | .ok k => (c.setIndex? k).bind fun i => if (getScan k (s.dataCache.sets i)).1.isSome then some k else none
    | .error _ => none
  | .put key value =>
    match admitKey key, admitValue value with
    | .ok k, .ok _ => (c.setIndex? k).bind fun i => if k ∈ keys (s.dataCache.sets i) then some k else none
    | _, _ => none

def Call.inserts (s : KVServer c) : Call → Option (JString × Fin c.numSets)
  | .get key =>
    match admitKey key with
    | .ok k => (c.setIndex? k).bind fun i =>
      if (getScan k (s.dataCache.sets i)).1.isNone ∧ (s.dataStore.store k).isSome then some (k, i) else none
    | .error _ => none
  | .put key value =>
    match admitKey key, admitValue value with
    | .ok k, .ok _ => (c.setIndex? k).bind fun i => if k ∉ keys (s.dataCache.sets i) then some (k, i) else none
    | _, _ => none

structure State (c : CacheConfig) where
  server : KVServer c
  used : JString → Bool

namespace State

def init (c : CacheConfig) : State c := ⟨.init c, fun _ => false⟩

def insertedInto (s : State c) (k : JString) (i : Fin c.numSets) : JString → Bool := fun x =>
  if x = k then false
  else if c.maxElemsPerSet ≤ (s.server.dataCache.sets i).length ∧
      x ∈ keys ((s.server.dataCache.sets i).takeWhile (·.isReferenced)) then false
  else s.used x

def note (s : State c) (call : Call) : JString → Bool :=
  match call.uses s.server, call.inserts s.server with
  | some k, _ => Function.update s.used k true
  | none, some (k, i) => s.insertedInto k i
  | none, none => s.used

def step (s : State c) (call : Call) : State c := ⟨call.after s.server, s.note call⟩

def Recorded (s : State c) : Prop :=
  ∀ i, ∀ e ∈ s.server.dataCache.sets i, s.used e.key → e.isReferenced

def SparesUsed (s : State c) (call : Call) : Prop :=
  ∀ i, ∀ e ∈ s.server.dataCache.sets i, e.key ∉ keys ((s.step call).server.dataCache.sets i) →
    s.used e.key → ∀ e' ∈ s.server.dataCache.sets i, s.used e'.key

end State

def system (c : CacheConfig) : System (State c) Call := .ofStep (· = .init c) fun s call => some (s.step call)

theorem notMem_of_getScan_none {s : KVServer c} (h : s.CacheOk) {k : JString} {i : Fin c.numSets}
    (hc : (getScan k (s.dataCache.sets i)).1 = none) : k ∉ keys (s.dataCache.sets i) := by
  intro hmem
  obtain ⟨⟨k, value⟩, hp, rfl⟩ := List.mem_map.mp hmem
  rw [getScan_of_mem (h.nodup i) hp] at hc
  exact (h.value i _ hp).1 hc

inductive Effect (s : KVServer c) (call : Call) : Prop
  | same : call.uses s = none → call.inserts s = none → (call.after s).dataCache = s.dataCache → Effect s call
  | used {k : JString} {i : Fin c.numSets} {v : JString} : call.uses s = some k →
      (call.after s).dataCache = s.dataCache.stored i k (some v) → Effect s call
  | inserted {k : JString} {i : Fin c.numSets} {v : JString} : call.uses s = none →
      call.inserts s = some (k, i) → (call.after s).dataCache = s.dataCache.stored i k (some v) → Effect s call

theorem effect_put (s : KVServer c) (key value : Option JString) : Effect s (.put key value) := by
  cases hk : admitKey key with
  | error e =>
    refine .same (by simp [Call.uses, hk]) (by simp [Call.inserts, hk]) ?_
    rw [Call.after, KVServer.put_key_error s hk, finalState_error]
  | ok k =>
    cases hv : admitValue value with
    | error e =>
      refine .same (by simp [Call.uses, hk, hv]) (by simp [Call.inserts, hk, hv]) ?_
      rw [Call.after, KVServer.put_value_error s hk hv, finalState_error]
    | ok v =>
      cases hi : c.setIndex? k with
      | none =>
        refine .same (by simp [Call.uses, hk, hv, hi]) (by simp [Call.inserts, hk, hv, hi]) ?_
        rw [Call.after, KVServer.put_index_error s hk hv hi, finalState_error]
      | some i =>
        have hafter : (Call.after s (.put key value)).dataCache = s.dataCache.stored i k (some v) := by
          rw [Call.after, KVServer.put_run s hk hv hi, finalState_ok]
        by_cases hmem : k ∈ keys (s.dataCache.sets i)
        · exact .used (by simp [Call.uses, hk, hv, hi, hmem]) hafter
        · exact .inserted (by simp [Call.uses, hk, hv, hi, hmem]) (by simp [Call.inserts, hk, hv, hi, hmem]) hafter

theorem effect_get {s : KVServer c} (h : s.CacheOk) (key : Option JString) : Effect s (.get key) := by
  cases hk : admitKey key with
  | error e =>
    refine .same (by simp [Call.uses, hk]) (by simp [Call.inserts, hk]) ?_
    rw [Call.after, KVServer.get_key_error s hk, finalState_error]
  | ok k =>
    cases hi : c.setIndex? k with
    | none =>
      refine .same (by simp [Call.uses, hk, hi]) (by simp [Call.inserts, hk, hi]) ?_
      rw [Call.after, KVServer.get_index_error s hk hi, finalState_error]
    | some i =>
      cases hc : (getScan k (s.dataCache.sets i)).1 with
      | some v =>
        refine .used (k := k) (i := i) (v := v) (by simp [Call.uses, hk, hi, hc]) ?_
        rw [Call.after, KVServer.get_hit s hk hi hc, finalState_ok]
        exact stored_marked ..
      | none =>
        have huses : Call.uses s (.get key) = none := by simp [Call.uses, hk, hi, hc]
        cases hv : s.dataStore.store k with
        | some v =>
          refine .inserted (k := k) (i := i) (v := v) huses (by simp [Call.inserts, hk, hi, hc, hv]) ?_
          rw [Call.after, KVServer.get_miss s hk hi hc hv, finalState_ok]
          exact stored_marked ..
        | none =>
          refine .same huses (by simp [Call.inserts, hk, hi, hv]) ?_
          rw [Call.after, KVServer.get_absent s hk hi hc hv, finalState_error]
          -- The key is not cached, so nothing was marked.
          have hsame := getScan_snd_of_notMem (notMem_of_getScan_none h hc)
          simp only [marked, setSet, hsame, Function.update_eq_self]

theorem effect {s : KVServer c} (h : s.CacheOk) (call : Call) : Effect s call := by
  cases call with
  | get key => exact effect_get h key
  | put key value => exact effect_put s key value

structure Inv (s : KVServer c) : Prop where
  cacheOk : s.CacheOk
  clear : ∀ i, AllClear (s.dataCache.sets i)

theorem inv_init (c : CacheConfig) : Inv (KVServer.init c) := ⟨KVServer.cacheOk_init, fun _ => nofun⟩

theorem Inv.after {s : KVServer c} (h : Inv s) (call : Call) : Inv (call.after s) := by
  refine ⟨?_, fun j => ?_⟩
  · cases call with
    | get key => exact h.cacheOk.get
    | put key value => exact h.cacheOk.put
  · have hstored {k : JString} {i : Fin c.numSets} {v : JString} :
        AllClear ((s.dataCache.stored i k (some v)).sets j) := by
      by_cases hj : j = i
      · subst hj
        rw [stored_self]
        exact (h.clear j).putSet c.maxElemsPerSet_pos (some v)
      · rw [stored_of_ne hj]
        exact h.clear j
    cases effect h.cacheOk call with
    | same _ _ hafter => exact hafter ▸ h.clear j
    | used _ hafter => exact hafter ▸ hstored
    | inserted _ _ hafter => exact hafter ▸ hstored

theorem inv_of_reach {s : State c} (h : (system c).Reach s) : Inv s.server := by
  refine System.ReachVia.invariant (I := fun s => Inv s.server) (fun s hs => ?_) (fun s call s' hs _ hstep => ?_) h
  · cases hs
    exact inv_init c
  · cases hstep
    exact hs.after call

theorem used_step {s : State c} (h : ∀ k, s.used k = false) {call : Call} (hcall : call.uses s.server = none)
    (k : JString) : (s.step call).used k = false := by
  match hins : call.inserts s.server with
  | none =>
    simp only [State.step, State.note, hcall, hins]
    exact h k
  | some (k', i) =>
    simp only [State.step, State.note, hcall, hins, State.insertedInto]
    split_ifs
    · rfl
    · rfl
    · exact h k

theorem not_recorded_of_uses {s : State c} (h : Inv s.server) {call : Call} {k : JString}
    (hcall : call.uses s.server = some k) : ¬ (s.step call).Recorded := by
  intro hrec
  have hclear := (h.after call).clear
  cases effect h.cacheOk call with
  | same hnone => cases hcall.symm.trans hnone
  | inserted hnone => cases hcall.symm.trans hnone
  | used hsome hafter =>
    rename_i k' i v
    obtain rfl : k = k' := Option.some.inj (hcall.symm.trans hsome)
    have hmem : (k, some v) ∈ pairs ((call.after s.server).dataCache.sets i) := by
      rw [hafter, stored_self]
      exact mem_putSet_self _
    obtain ⟨e, he, hpair⟩ := List.mem_map.mp hmem
    have hkey : e.key = k := (Prod.mk.inj hpair).1
    have hused : (s.step call).used e.key := by
      simp only [State.step, State.note, hcall, hkey, Function.update_self]
    exact Bool.false_ne_true ((hclear i e he).symm.trans (hrec i e he hused))

theorem recorded_of_unused (c : CacheConfig) :
    (∀ s : State c, (system c).ReachVia (fun s call => call.uses s.server = none) s →
      s.Recorded ∧ ∀ call, s.SparesUsed call) ∧
    ∀ (s : State c) (call : Call), (system c).Reach s → call.uses s.server ≠ none → ¬ (s.step call).Recorded := by
  refine ⟨fun s h => ?_, fun s call h hcall => ?_⟩
  · have hused : ∀ k, s.used k = false := by
      refine h.invariant (I := fun s => ∀ k, s.used k = false) (fun s hs => ?_) fun s call s' hs hok hstep => ?_
      · cases hs
        exact fun _ => rfl
      · cases hstep
        exact used_step hs hok
    refine ⟨fun i e _ he => ?_, fun call i e _ _ he => ?_⟩
    · exact absurd ((hused e.key).symm.trans he) Bool.false_ne_true
    · exact absurd ((hused e.key).symm.trans he) Bool.false_ne_true
  · obtain ⟨k, hk⟩ := Option.ne_none_iff_exists'.mp hcall
    exact not_recorded_of_uses (inv_of_reach h) hk

def single : CacheConfig := ⟨1, 1, Nat.one_pos, Nat.one_pos⟩

def firstPut : Call := .put (some [1]) (some [10])

theorem recorded_firstPut : (system single).ReachVia (fun s call => call.uses s.server = none)
      ((State.init single).step firstPut) ∧
    ((State.init single).step firstPut).Recorded ∧
    ((State.init single).step firstPut).SparesUsed (.put (some [2]) (some [20])) := by
  have hreach : (system single).ReachVia (fun s call => call.uses s.server = none)
      ((State.init single).step firstPut) := .step (.init rfl) (by decide) rfl
  have hspec := (recorded_of_unused single).1 _ hreach
  exact ⟨hreach, hspec.1, hspec.2 _⟩

theorem not_recorded_putGet : (system single).Reach (((State.init single).step firstPut).step (.get (some [1]))) ∧
    ¬ (((State.init single).step firstPut).step (.get (some [1]))).Recorded := by
  refine ⟨.step (.step (.init rfl) trivial rfl) trivial rfl, fun hrec => ?_⟩
  exact absurd (hrec ⟨0, by decide⟩ ⟨[1], some [10], false⟩ (by decide) (by decide)) (by decide)

end ReferenceBits

end Cs162.Kvstore
