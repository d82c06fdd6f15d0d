import Cs162.Kvstore.KVServer

namespace Cs162.Kvstore
open Lib

inductive KVOp
  | put (key value : Option JString)
  | get (key : Option JString)
  | del (key : Option JString)
  | hasKey (key : JString)
  deriving DecidableEq, Repr

inductive KVAnswer
  | done
  | value (v : JString)
  | bool (b : Bool)
  deriving DecidableEq, Repr

def KVOp.InRange (c : CacheConfig) : KVOp → Prop
  | .put key _ | .get key | .del key => ∀ k ∈ key, c.InRange k
  | .hasKey key => c.InRange key

instance (c : CacheConfig) : (op : KVOp) → Decidable (op.InRange c)
  | .put key _ | .get key | .del key => inferInstanceAs (Decidable (∀ k ∈ key, c.InRange k))
  | .hasKey key => inferInstanceAs (Decidable (c.InRange key))

abbrev PlainMap : Type := JString → Option JString

namespace PlainMap
open KVServer (admitKey admitValue)

def empty : PlainMap := fun _ => none

def step (m : PlainMap) : KVOp → Except Throwable KVAnswer × PlainMap
  | .put key value =>
    match admitKey key, admitValue value with
    | .error e, _ => (.error e, m)
    | .ok _, .error e => (.error e, m)
    | .ok k, .ok v => (.ok .done, Function.update m k (some v))
  | .get key =>
    match admitKey key with
    | .error e => (.error e, m)
    | .ok k =>
      match m k with
      | some v => (.ok (.value v), m)
      | none => (.error (.ofError errorNoSuchKey), m)
  | .del key =>
    match admitKey key with
    | .error e => (.error e, m)
    | .ok k =>
      match m k with
      | some _ => (.ok .done, Function.update m k none)
      | none => (.error (.ofError errorNoSuchKey), m)
  | .hasKey key => (.ok (.bool (m key).isSome), m)

def machine : Machine PlainMap KVOp (Except Throwable KVAnswer) := ⟨step⟩

theorem step_error {m : PlainMap} {op : KVOp} {e : Throwable} (h : (step m op).1 = .error e) :
    (step m op).2 = m := by
  cases op with
  | put key value =>
    cases hk : admitKey key <;> cases hv : admitValue value <;> simp_all [step]
  | get key =>
    cases hk : admitKey key with
    | error _ => simp [step, hk]
    | ok k => cases hm : m k <;> simp [step, hk, hm]
  | del key =>
    cases hk : admitKey key with
    | error _ => simp [step, hk]
    | ok k => cases hm : m k <;> simp_all [step]
  | hasKey key => rfl

end PlainMap

namespace KVServer
variable {c : CacheConfig}

def answer {σ α : Type} (f : α → KVAnswer) (m : JavaM σ α) (s : σ) : Except Throwable KVAnswer × σ :=
  match m s with
  | .ok a s' => (.ok (f a), s')
  | .error e s' => (.error e, s')

def step (s : KVServer c) : KVOp → Except Throwable KVAnswer × KVServer c
  | .put key value => answer (fun _ => .done) (put key value) s
  | .get key => answer .value (get key) s
  | .del key => answer (fun _ => .done) (del key) s
  | .hasKey key => answer .bool (hasKey (some key)) s

def machine (c : CacheConfig) : Machine (KVServer c) KVOp (Except Throwable KVAnswer) := ⟨step⟩

structure Represents (s : KVServer c) (m : PlainMap) : Prop where
  store : s.dataStore.store = m
  cache : s.dataCache.Coherent m

theorem represents_init : (init c).Represents PlainMap.empty := ⟨rfl, KVCache.coherent_init _⟩

variable {s : KVServer c} {m : PlainMap} {key value : Option JString}

theorem Represents.put (h : s.Represents m) (hr : (KVOp.put key value).InRange c) :
    (s.step (.put key value)).1 = (m.step (.put key value)).1 ∧
      (s.step (.put key value)).2.Represents (m.step (.put key value)).2 := by
  cases hk : admitKey key with
  | error e => simpa [step, PlainMap.step, answer, put_key_error s hk, hk] using h
  | ok k =>
    cases hv : admitValue value with
    | error e => simpa [step, PlainMap.step, answer, put_value_error s hk hv, hk, hv] using h
    | ok v =>
      obtain ⟨i, hi⟩ := Option.isSome_iff_exists.mp (hr k (admitKey_ok_iff.mp hk).1)
      simp only [step, PlainMap.step, answer, put_run s hk hv hi, hk, hv, true_and]
      exact ⟨by rw [h.store], h.cache.stored hi v⟩

theorem Represents.get (h : s.Represents m) (hr : (KVOp.get key).InRange c) :
    (s.step (.get key)).1 = (m.step (.get key)).1 ∧
      (s.step (.get key)).2.Represents (m.step (.get key)).2 := by
  cases hk : admitKey key with
  | error e => simpa [step, PlainMap.step, answer, get_key_error s hk, hk] using h
  | ok k =>
    obtain ⟨i, hi⟩ := Option.isSome_iff_exists.mp (hr k (admitKey_ok_iff.mp hk).1)
    -- Whatever the cache returns is the map's value, so putting it back changes nothing.
    have hback : ∀ {v}, m k = some v →
        Represents ⟨s.dataStore, (s.dataCache.marked i k).stored i k (some v)⟩ m := by
      intro v hv
      have hmark : (s.dataCache.marked i k).Coherent m := h.cache.marked
      have hcoh := hmark.stored hi v
      rw [← hv, Function.update_eq_self] at hcoh
      exact ⟨h.store, hv ▸ hcoh⟩
    cases hc : (KVCache.getScan k (s.dataCache.sets i)).1 with
    | some v =>
      have hv : m k = some v := h.cache.getScan_value hc
      simpa [step, PlainMap.step, answer, get_hit s hk hi hc, hk, hv] using hback hv
    | none =>
      cases hm : m k with
      | some v =>
        have hs : s.dataStore.store k = some v := by rw [h.store, hm]
        simpa [step, PlainMap.step, answer, get_miss s hk hi hc hs, hk, hm] using hback hm
      | none =>
        have hs : s.dataStore.store k = none := by rw [h.store, hm]
        simp only [step, PlainMap.step, answer, get_absent s hk hi hc hs, hk, hm, true_and]
        exact ⟨h.store, h.cache.marked⟩

theorem Represents.del (h : s.Represents m) (hr : (KVOp.del key).InRange c) :
    (s.step (.del key)).1 = (m.step (.del key)).1 ∧
      (s.step (.del key)).2.Represents (m.step (.del key)).2 := by
  cases hk : admitKey key with
  | error e => simpa [step, PlainMap.step, answer, del_key_error s hk, hk] using h
  | ok k =>
    obtain ⟨i, hi⟩ := Option.isSome_iff_exists.mp (hr k (admitKey_ok_iff.mp hk).1)
    cases hm : m k with
    | some v =>
      have hs : (s.dataStore.store k).isSome := by rw [h.store, hm]; rfl
      simp only [step, PlainMap.step, answer, del_run s hk hi hs, hk, hm, true_and]
      exact ⟨by rw [h.store], h.cache.dropped hi⟩
    | none =>
      have hs : s.dataStore.store k = none := by rw [h.store, hm]
      simp only [step, PlainMap.step, answer, del_absent s hk hi hs, hk, hm, true_and]
      have hcoh : (s.dataCache.dropped i k).Coherent (Function.update m k none) := h.cache.dropped hi
      rw [← hm, Function.update_eq_self] at hcoh
      exact ⟨h.store, hcoh⟩

def CacheOk (s : KVServer c) : Prop := s.dataCache.Coherent s.dataStore.store

theorem cacheOk_init : (init c).CacheOk := KVCache.coherent_init _

theorem CacheOk.represents (h : s.CacheOk) : s.Represents s.dataStore.store := ⟨rfl, h⟩

theorem Represents.cacheOk (h : s.Represents m) : s.CacheOk := by
  unfold CacheOk
  rw [h.store]
  exact h.cache

theorem finalState_eq_step_put : finalState (put key value s) = (s.step (.put key value)).2 := by
  simp only [step, answer]
  cases put key value s <;> rfl

theorem finalState_eq_step_get : finalState (get key s) = (s.step (.get key)).2 := by
  simp only [step, answer]
  cases get key s <;> rfl

theorem finalState_eq_step_del : finalState (del key s) = (s.step (.del key)).2 := by
  simp only [step, answer]
  cases del key s <;> rfl

theorem outside_cases (hr : ¬ ∀ k ∈ key, c.InRange k) :
    (∃ e, admitKey key = .error e) ∨ ∃ k, admitKey key = .ok k ∧ c.setIndex? k = none := by
  obtain ⟨k, rfl, hi⟩ : ∃ k, key = some k ∧ c.setIndex? k = none := by
    simpa [CacheConfig.InRange] using hr
  cases hk : admitKey (some k) with
  | error e => exact .inl ⟨e, rfl⟩
  | ok k' =>
    obtain rfl : k = k' := Option.some.inj (admitKey_ok_iff.mp hk).1
    exact .inr ⟨k, rfl, hi⟩

theorem CacheOk.put (h : s.CacheOk) : (finalState (put key value s)).CacheOk := by
  by_cases hr : (KVOp.put key value).InRange c
  · rw [finalState_eq_step_put]
    exact (h.represents.put hr).2.cacheOk
  · rcases outside_cases hr with ⟨e, hk⟩ | ⟨k, hk, hi⟩
    · rwa [put_key_error s hk, finalState_error]
    · cases hv : admitValue value with
      | error e => rwa [put_value_error s hk hv, finalState_error]
      | ok v => rwa [put_index_error s hk hv hi, finalState_error]

theorem CacheOk.get (h : s.CacheOk) : (finalState (get key s)).CacheOk := by
  by_cases hr : (KVOp.get key).InRange c
  · rw [finalState_eq_step_get]
    exact (h.represents.get hr).2.cacheOk
  · rcases outside_cases hr with ⟨e, hk⟩ | ⟨k, hk, hi⟩
    · rwa [get_key_error s hk, finalState_error]
    · rwa [get_index_error s hk hi, finalState_error]

theorem CacheOk.del (h : s.CacheOk) : (finalState (del key s)).CacheOk := by
  by_cases hr : (KVOp.del key).InRange c
  · rw [finalState_eq_step_del]
    exact (h.represents.del hr).2.cacheOk
  · rcases outside_cases hr with ⟨e, hk⟩ | ⟨k, hk, hi⟩
    · rwa [del_key_error s hk, finalState_error]
    · rwa [del_index_error s hk hi, finalState_error]

theorem simulation (c : CacheConfig) :
    Machine.Simulation (machine c) PlainMap.machine (KVOp.InRange c) Represents := by
  have key : ∀ {s : KVServer c} {m : PlainMap} {op : KVOp}, op.InRange c → s.Represents m →
      (s.step op).1 = (m.step op).1 ∧ (s.step op).2.Represents (m.step op).2 := by
    intro s m op hr h
    cases op with
    | put => exact h.put hr
    | get => exact h.get hr
    | del => exact h.del hr
    | hasKey k =>
      simp only [step, PlainMap.step, answer, hasKey_run, h.store]
      exact ⟨trivial, h⟩
  exact ⟨fun hr h => (key hr h).1, fun hr h => (key hr h).2⟩

theorem refines_plainMap (c : CacheConfig) (ops : List KVOp) (hr : ∀ op ∈ ops, op.InRange c) :
    (machine c).outputs (init c) ops = PlainMap.machine.outputs PlainMap.empty ops ∧
    ∀ (before after : List KVOp) (op : KVOp) (e : Throwable), ops = before ++ op :: after →
      (((machine c).final (init c) before).step op).1 = .error e →
      (machine c).outputs ((machine c).final (init c) (before ++ [op])) after =
        (machine c).outputs ((machine c).final (init c) before) after := by
  have hsim := simulation c
  refine ⟨hsim.outputs_eq represents_init hr, ?_⟩
  rintro before after op e rfl hfail
  have hbefore : ∀ o ∈ before, o.InRange c := fun o ho => hr o (by simp [ho])
  have hafter : ∀ o ∈ after, o.InRange c := fun o ho => hr o (by simp [ho])
  have hrep := hsim.final_rel represents_init hbefore
  have hop : op.InRange c := hr op (by simp)
  -- The failing call leaves the plain map unchanged, so both states represent one map.
  have hmap : (PlainMap.machine.step (PlainMap.machine.final PlainMap.empty before) op).2 =
      PlainMap.machine.final PlainMap.empty before :=
    PlainMap.step_error ((hsim.output hop hrep).symm.trans hfail)
  have hnext := hsim.next hop hrep
  rw [hmap] at hnext
  rw [Machine.final_append, Machine.final_cons, Machine.final_nil,
    hsim.outputs_eq hnext hafter, hsim.outputs_eq hrep hafter]

theorem refines_plainMap_evicted :
    (machine ⟨1, 1, by decide, by decide⟩).outputs (init _)
      [.put (some [97]) (some [120]), .put (some [98]) (some [121]), .get (some [97]),
        .del (some [99]), .put (some [97]) none, .hasKey [98]] =
      [.ok .done, .ok .done, .ok (.value [120]), .error (.ofError errorNoSuchKey),
        .error (.ofError errorInvalidValue), .ok (.bool true)] := by
  refine (refines_plainMap _ _ (by decide)).1.trans ?_
  decide

end KVServer
end Cs162.Kvstore
