import Cs162.Lib.Machine
import Cs162.Kvstore.KVCache

namespace Cs162.Kvstore

structure KVStore where
  store : JString → Option JString

namespace KVStore

def init : KVStore := ⟨fun _ => none⟩

def put (key value : JString) : JavaM KVStore Unit :=
  modify fun s => ⟨Function.update s.store key (some value)⟩

def get (key : Option JString) : JavaM KVStore JString := do
  match key with
  | none => throw .nullPointerException
  | some k =>
    match (← MonadState.get).store k with
    | none => throw (.ofError errorNoSuchKey)
    | some retVal => return retVal

def del (key : Option JString) : JavaM KVStore Unit := do
  match key with
  | none => return
  | some k =>
    if ((← MonadState.get).store k).isNone then throw (.ofError errorNoSuchKey)
    modify fun s => ⟨Function.update s.store k none⟩

end KVStore

structure KVServer (c : CacheConfig) where
  dataStore : KVStore
  dataCache : KVCache c

namespace KVServer
variable {c : CacheConfig}

def maxKeySize : ℕ := 256
def maxValSize : ℕ := 256 * 1024

def init (c : CacheConfig) : KVServer c := ⟨KVStore.init, KVCache.init c⟩

def onCache {α : Type} (m : JavaM (KVCache c) α) : JavaM (KVServer c) α := fun s =>
  match m s.dataCache with
  | .ok a d => .ok a { s with dataCache := d }
  | .error e d => .error e { s with dataCache := d }

def onStore {α : Type} (m : JavaM KVStore α) : JavaM (KVServer c) α := fun s =>
  match m s.dataStore with
  | .ok a d => .ok a { s with dataStore := d }
  | .error e d => .error e { s with dataStore := d }

def checkKey (key : Option JString) : JavaM (KVServer c) JString :=
  match key with
  | none => throw (.ofError errorInvalidKey)
  | some k =>
    if k.length = 0 then throw (.ofError errorInvalidKey)
    else if maxKeySize < k.length then throw (.ofError errorOversizedKey)
    else return k

def checkValue (value : Option JString) : JavaM (KVServer c) JString :=
  match value with
  | none => throw (.ofError errorInvalidValue)
  | some v =>
    if v.length = 0 then throw (.ofError errorInvalidValue)
    else if maxValSize < v.length then throw (.ofError errorOversizedValue)
    else return v

def getLock (key : JString) : JavaM (KVServer c) Unit := do
  let _ ← onCache (KVCache.getSet key)

def put (key value : Option JString) : JavaM (KVServer c) Unit := do
  let k ← checkKey key
  let v ← checkValue value
  getLock k
  onCache (KVCache.put k (some v))
  onStore (KVStore.put k v)

def get (key : Option JString) : JavaM (KVServer c) JString := do
  let k ← checkKey key
  getLock k
  let value ← match ← onCache (KVCache.get k) with
    | some v => pure v
    | none => onStore (KVStore.get (some k))
  onCache (KVCache.put k (some value))
  return value

def del (key : Option JString) : JavaM (KVServer c) Unit := do
  let k ← checkKey key
  getLock k
  onCache (KVCache.del k)
  onStore (KVStore.del (some k))

def hasKey (key : Option JString) : JavaM (KVServer c) Bool := fun s =>
  match onStore (KVStore.get key) s with
  | .ok _ s' => .ok true s'
  | .error (.kvException _) s' => .ok false s'
  | .error e s' => .error e s'

def KeyOk (k : JString) : Prop := 1 ≤ k.length ∧ k.length ≤ maxKeySize

def ValueOk (v : JString) : Prop := 1 ≤ v.length ∧ v.length ≤ maxValSize

instance (k : JString) : Decidable (KeyOk k) := inferInstanceAs (Decidable (_ ∧ _))
instance (v : JString) : Decidable (ValueOk v) := inferInstanceAs (Decidable (_ ∧ _))

def admitKey : Option JString → Except Throwable JString
  | none => .error (.ofError errorInvalidKey)
  | some k =>
    if KeyOk k then .ok k
    else if k = [] then .error (.ofError errorInvalidKey)
    else .error (.ofError errorOversizedKey)

def admitValue : Option JString → Except Throwable JString
  | none => .error (.ofError errorInvalidValue)
  | some v =>
    if ValueOk v then .ok v
    else if v = [] then .error (.ofError errorInvalidValue)
    else .error (.ofError errorOversizedValue)

theorem admitKey_ok_iff {key : Option JString} {k : JString} :
    admitKey key = .ok k ↔ key = some k ∧ KeyOk k := by
  cases key with
  | none => simp [admitKey]
  | some k' =>
    simp only [admitKey]
    split_ifs <;> simp <;> grind

theorem admitValue_ok_iff {value : Option JString} {v : JString} :
    admitValue value = .ok v ↔ value = some v ∧ ValueOk v := by
  cases value with
  | none => simp [admitValue]
  | some v' =>
    simp only [admitValue]
    split_ifs <;> simp <;> grind

variable (s : KVServer c) {key value : Option JString} {k v : JString} {e : Throwable}
  {i : Fin c.numSets}

theorem checkKey_ok (h : admitKey key = .ok k) : checkKey key s = .ok k s := by
  obtain ⟨rfl, h1, h2⟩ := admitKey_ok_iff.mp h
  simp only [checkKey, if_neg (show ¬ k.length = 0 by omega), if_neg (show ¬ maxKeySize < k.length by omega)]
  rfl

theorem checkKey_error (h : admitKey key = .error e) : checkKey key s = .error e s := by
  cases key with
  | none => cases h; rfl
  | some k =>
    simp only [admitKey] at h
    split_ifs at h with hok hnil <;> cases h
    · simp only [checkKey, hnil, List.length_nil]
      rfl
    · have h0 : ¬ k.length = 0 := fun h => hnil (List.length_eq_zero_iff.mp h)
      have hbig : maxKeySize < k.length := by unfold KeyOk at hok; omega
      simp only [checkKey, if_neg h0, if_pos hbig]
      rfl

theorem checkValue_ok (h : admitValue value = .ok v) : checkValue value s = .ok v s := by
  obtain ⟨rfl, h1, h2⟩ := admitValue_ok_iff.mp h
  simp only [checkValue, if_neg (show ¬ v.length = 0 by omega), if_neg (show ¬ maxValSize < v.length by omega)]
  rfl

theorem checkValue_error (h : admitValue value = .error e) : checkValue value s = .error e s := by
  cases value with
  | none => cases h; rfl
  | some v =>
    simp only [admitValue] at h
    split_ifs at h with hok hnil <;> cases h
    · simp only [checkValue, hnil, List.length_nil]
      rfl
    · have h0 : ¬ v.length = 0 := fun h => hnil (List.length_eq_zero_iff.mp h)
      have hbig : maxValSize < v.length := by unfold ValueOk at hok; omega
      simp only [checkValue, if_neg h0, if_pos hbig]
      rfl

theorem getLock_ok (h : c.setIndex? k = some i) : getLock k s = .ok () s := by
  simp only [getLock, bind, EStateM.bind, onCache, KVCache.getSet_run h]
  rfl

theorem getLock_error (h : c.setIndex? k = none) :
    getLock k s = .error .indexOutOfBoundsException s := by
  simp only [getLock, bind, EStateM.bind, onCache, KVCache.getSet_run_none h]

theorem put_key_error (hk : admitKey key = .error e) : put key value s = .error e s := by
  simp only [put, bind, EStateM.bind, checkKey_error s hk]

theorem put_value_error (hk : admitKey key = .ok k) (hv : admitValue value = .error e) :
    put key value s = .error e s := by
  simp only [put, bind, EStateM.bind, checkKey_ok s hk, checkValue_error s hv]

theorem put_index_error (hk : admitKey key = .ok k) (hv : admitValue value = .ok v)
    (hi : c.setIndex? k = none) : put key value s = .error .indexOutOfBoundsException s := by
  simp only [put, bind, EStateM.bind, checkKey_ok s hk, checkValue_ok s hv, getLock_error s hi]

theorem put_run (hk : admitKey key = .ok k) (hv : admitValue value = .ok v)
    (hi : c.setIndex? k = some i) :
    put key value s = .ok ()
      ⟨⟨Function.update s.dataStore.store k (some v)⟩, s.dataCache.stored i k (some v)⟩ := by
  simp only [put, bind, EStateM.bind, checkKey_ok s hk, checkValue_ok s hv, getLock_ok s hi,
    onCache, KVCache.put_run hi]
  rfl

theorem get_key_error (hk : admitKey key = .error e) : get key s = .error e s := by
  simp only [get, bind, EStateM.bind, checkKey_error s hk]

theorem get_hit (hk : admitKey key = .ok k) (hi : c.setIndex? k = some i)
    (hv : (KVCache.getScan k (s.dataCache.sets i)).1 = some v) :
    get key s = .ok v ⟨s.dataStore, (s.dataCache.marked i k).stored i k (some v)⟩ := by
  simp only [get, bind, EStateM.bind, checkKey_ok s hk, getLock_ok s hi, onCache,
    KVCache.get_run hi, hv, pure, EStateM.pure, KVCache.put_run hi]

theorem get_miss (hk : admitKey key = .ok k) (hi : c.setIndex? k = some i)
    (hc : (KVCache.getScan k (s.dataCache.sets i)).1 = none) (hv : s.dataStore.store k = some v) :
    get key s = .ok v ⟨s.dataStore, (s.dataCache.marked i k).stored i k (some v)⟩ := by
  have hstore : KVStore.get (some k) s.dataStore = .ok v s.dataStore := by
    simp only [KVStore.get, bind, EStateM.bind, JavaM.get_apply, hv, pure, EStateM.pure]
  simp only [get, bind, EStateM.bind, checkKey_ok s hk, getLock_ok s hi, onCache, onStore,
    KVCache.get_run hi, hc, hstore, pure, EStateM.pure, KVCache.put_run hi]

theorem get_absent (hk : admitKey key = .ok k) (hi : c.setIndex? k = some i)
    (hc : (KVCache.getScan k (s.dataCache.sets i)).1 = none) (hv : s.dataStore.store k = none) :
    get key s = .error (.ofError errorNoSuchKey) ⟨s.dataStore, s.dataCache.marked i k⟩ := by
  have hstore : KVStore.get (some k) s.dataStore = .error (.ofError errorNoSuchKey) s.dataStore := by
    simp only [KVStore.get, bind, EStateM.bind, JavaM.get_apply, hv, JavaM.throw_apply]
  simp only [get, bind, EStateM.bind, checkKey_ok s hk, getLock_ok s hi, onCache, onStore,
    KVCache.get_run hi, hc, hstore]

theorem get_index_error (hk : admitKey key = .ok k) (hi : c.setIndex? k = none) :
    get key s = .error .indexOutOfBoundsException s := by
  simp only [get, bind, EStateM.bind, checkKey_ok s hk, getLock_error s hi]

theorem get_dataStore (key : Option JString) : (finalState (get key s)).dataStore = s.dataStore := by
  cases hk : admitKey key with
  | error e => rw [get_key_error s hk, finalState_error]
  | ok k =>
    cases hi : c.setIndex? k with
    | none => rw [get_index_error s hk hi, finalState_error]
    | some i =>
      cases hc : (KVCache.getScan k (s.dataCache.sets i)).1 with
      | some v => rw [get_hit s hk hi hc, finalState_ok]
      | none =>
        cases hv : s.dataStore.store k with
        | some v => rw [get_miss s hk hi hc hv, finalState_ok]
        | none => rw [get_absent s hk hi hc hv, finalState_error]

theorem del_key_error (hk : admitKey key = .error e) : del key s = .error e s := by
  simp only [del, bind, EStateM.bind, checkKey_error s hk]

theorem del_index_error (hk : admitKey key = .ok k) (hi : c.setIndex? k = none) :
    del key s = .error .indexOutOfBoundsException s := by
  simp only [del, bind, EStateM.bind, checkKey_ok s hk, getLock_error s hi]

theorem del_run (hk : admitKey key = .ok k) (hi : c.setIndex? k = some i)
    (hv : (s.dataStore.store k).isSome) :
    del key s = .ok () ⟨⟨Function.update s.dataStore.store k none⟩, s.dataCache.dropped i k⟩ := by
  have hn : ¬ (s.dataStore.store k).isNone = true := by simpa [Option.isSome_iff_ne_none] using hv
  simp only [del, bind, EStateM.bind, checkKey_ok s hk, getLock_ok s hi, onCache, onStore,
    KVCache.del_run hi, KVStore.del, JavaM.get_apply, if_neg hn]
  rfl

theorem del_absent (hk : admitKey key = .ok k) (hi : c.setIndex? k = some i)
    (hv : s.dataStore.store k = none) :
    del key s = .error (.ofError errorNoSuchKey) ⟨s.dataStore, s.dataCache.dropped i k⟩ := by
  simp only [del, bind, EStateM.bind, checkKey_ok s hk, getLock_ok s hi, onCache, onStore,
    KVCache.del_run hi, KVStore.del, JavaM.get_apply, hv, Option.isNone_none, if_true]
  rfl

theorem hasKey_run (k : JString) : hasKey (some k) s = .ok (s.dataStore.store k).isSome s := by
  cases hv : s.dataStore.store k <;>
    simp only [hasKey, onStore, KVStore.get, bind, EStateM.bind, JavaM.get_apply, hv, pure, EStateM.pure,
      JavaM.throw_apply, Throwable.ofError, Option.isSome_some, Option.isSome_none]

end KVServer
end Cs162.Kvstore
