import Cs162.Kvstore.PlainMap

namespace Cs162.Kvstore

structure TPCLog where
  entries : List KVMessage
  file : Option (List KVMessage)
  deriving DecidableEq, Repr

namespace TPCLog

def appendAndFlush (log : TPCLog) (entry : KVMessage) : TPCLog :=
  ⟨log.entries ++ [entry], some (log.entries ++ [entry])⟩

def getLastEntry (log : TPCLog) : Option KVMessage := log.entries.getLast?

def loadFromDisk (log : TPCLog) : TPCLog := { log with entries := log.file.getD log.entries }

end TPCLog

def applyEntry {c : CacheConfig} (entry : KVMessage) : JavaM (KVServer c) Unit :=
  match entry.msgType with
  | none => throw .nullPointerException
  | some .putReq => KVServer.put entry.key entry.value
  | some .delReq => KVServer.del entry.key
  | some _ => return

namespace TPCLog
variable {c : CacheConfig}

def rebuildStep (phase1Entry : Option KVMessage) (currEntry : KVMessage) :
    JavaM (KVServer c) (Option KVMessage) := do
  match currEntry.msgType with
  | none => throw .nullPointerException
  | some .putReq | some .delReq => return some currEntry
  | some .commit =>
    match phase1Entry with
    | none => return none
    | some p =>
      applyEntry p
      return none
  | some .abort => return none
  | some _ => return phase1Entry

def rebuildLoop : Option KVMessage → List KVMessage → JavaM (KVServer c) Unit
  | _, [] => return
  | phase1Entry, currEntry :: rest => do
    rebuildLoop (← rebuildStep phase1Entry currEntry) rest

def rebuildServer (file : Option (List KVMessage)) : JavaM (KVServer c) TPCLog := do
  let log := loadFromDisk ⟨[], file⟩
  rebuildLoop none log.entries
  return log

end TPCLog

namespace CacheConfig
open KVServer (admitKey admitValue)
variable (c : CacheConfig)

def perform (m : PlainMap) (entry : KVMessage) : Option PlainMap :=
  match entry.msgType with
  | none => none
  | some .putReq =>
    match admitKey entry.key, admitValue entry.value with
    | .ok k, .ok v => if c.InRange k then some (Function.update m k (some v)) else none
    | _, _ => none
  | some .delReq =>
    match admitKey entry.key with
    | .ok k => if c.InRange k ∧ (m k).isSome then some (Function.update m k none) else none
    | _ => none
  | some _ => some m

end CacheConfig

def returned {c : CacheConfig} {α : Type} : EStateM.Result Throwable (KVServer c) α → Option PlainMap
  | .ok _ s => some s.dataStore.store
  | .error _ _ => none

def left {c : CacheConfig} {α : Type} (r : EStateM.Result Throwable (KVServer c) α) : PlainMap :=
  (finalState r).dataStore.store

section Effects
variable {c : CacheConfig} (s : KVServer c) {entry : KVMessage}

theorem put_effect (ht : entry.msgType = some .putReq) :
    returned (KVServer.put entry.key entry.value s) = c.perform s.dataStore.store entry ∧
      left (KVServer.put entry.key entry.value s) =
        (c.perform s.dataStore.store entry).getD s.dataStore.store := by
  cases hk : KVServer.admitKey entry.key with
  | error e =>
    rw [KVServer.put_key_error s hk]
    simp [CacheConfig.perform, ht, hk, returned, left]
  | ok k =>
    cases hv : KVServer.admitValue entry.value with
    | error e =>
      rw [KVServer.put_value_error s hk hv]
      simp [CacheConfig.perform, ht, hk, hv, returned, left]
    | ok v =>
      cases hi : c.setIndex? k with
      | none =>
        rw [KVServer.put_index_error s hk hv hi]
        simp [CacheConfig.perform, ht, hk, hv, CacheConfig.InRange, hi, returned, left]
      | some i =>
        rw [KVServer.put_run s hk hv hi]
        simp [CacheConfig.perform, ht, hk, hv, CacheConfig.InRange, hi, returned, left]

theorem del_effect (ht : entry.msgType = some .delReq) :
    returned (KVServer.del entry.key s) = c.perform s.dataStore.store entry ∧
      left (KVServer.del entry.key s) =
        (c.perform s.dataStore.store entry).getD s.dataStore.store := by
  cases hk : KVServer.admitKey entry.key with
  | error e =>
    rw [KVServer.del_key_error s hk]
    simp [CacheConfig.perform, ht, hk, returned, left]
  | ok k =>
    cases hi : c.setIndex? k with
    | none =>
      rw [KVServer.del_index_error s hk hi]
      simp [CacheConfig.perform, ht, hk, CacheConfig.InRange, hi, returned, left]
    | some i =>
      cases hv : s.dataStore.store k with
      | none =>
        rw [KVServer.del_absent s hk hi hv]
        simp [CacheConfig.perform, ht, hk, hv, returned, left]
      | some v =>
        rw [KVServer.del_run s hk hi (by simp [hv])]
        simp [CacheConfig.perform, ht, hk, hv, CacheConfig.InRange, hi, returned, left]

theorem applyEntry_effect (entry : KVMessage) :
    returned (applyEntry entry s) = c.perform s.dataStore.store entry ∧
      left (applyEntry entry s) = (c.perform s.dataStore.store entry).getD s.dataStore.store := by
  unfold applyEntry
  cases ht : entry.msgType with
  | none => simp [CacheConfig.perform, ht, returned, left, JavaM.throw_apply]
  | some t =>
    cases t with
    | putReq => exact put_effect s ht
    | delReq => exact del_effect s ht
    | _ => simp [CacheConfig.perform, ht, returned, left, pure, EStateM.pure]

theorem applyEntry_ok {m : PlainMap} (h : c.perform s.dataStore.store entry = some m) :
    ∃ s', applyEntry entry s = .ok () s' ∧ s'.dataStore.store = m := by
  have hret := (applyEntry_effect s entry).1.trans h
  cases hr : applyEntry entry s with
  | ok a s' => exact ⟨s', rfl, by simpa [hr, returned] using hret⟩
  | error e s' => simp [hr, returned] at hret

theorem applyEntry_error (h : c.perform s.dataStore.store entry = none) :
    ∃ e s', applyEntry entry s = .error e s' ∧ s'.dataStore.store = s.dataStore.store := by
  obtain ⟨hret, hleft⟩ := applyEntry_effect s entry
  rw [h] at hret hleft
  cases hr : applyEntry entry s with
  | ok a s' => simp [hr, returned] at hret
  | error e s' => exact ⟨e, s', rfl, by simpa [hr, left] using hleft⟩

end Effects

namespace CacheConfig
variable (c : CacheConfig)

def replayStep (st : Option KVMessage × PlainMap) (entry : KVMessage) :
    Option (Option KVMessage × PlainMap) :=
  match entry.msgType with
  | none => none
  | some .putReq | some .delReq => some (some entry, st.2)
  | some .commit =>
    match st.1 with
    | none => some (none, st.2)
    | some p => (c.perform st.2 p).map fun m => (none, m)
  | some .abort => some (none, st.2)
  | some _ => some st

def replay (entries : List KVMessage) : Option (Option KVMessage × PlainMap) :=
  entries.foldlM c.replayStep (none, PlainMap.empty)

theorem replay_snoc (entries : List KVMessage) (entry : KVMessage) :
    c.replay (entries ++ [entry]) = (c.replay entries).bind fun st => c.replayStep st entry := by
  simp [replay, List.foldlM_append]

end CacheConfig

namespace TPCLog
variable {c : CacheConfig}

theorem rebuildStep_ok {p : Option KVMessage} {s : KVServer c} {entry : KVMessage}
    {st : Option KVMessage × PlainMap} (h : c.replayStep (p, s.dataStore.store) entry = some st) :
    ∃ s', rebuildStep p entry s = .ok st.1 s' ∧ s'.dataStore.store = st.2 := by
  unfold CacheConfig.replayStep at h
  unfold rebuildStep
  cases ht : entry.msgType with
  | none => simp [ht] at h
  | some t =>
    cases t with
    | commit =>
      cases p with
      | none =>
        simp only [ht, Option.some.injEq] at h
        exact ⟨s, by simp [← h, pure, EStateM.pure], by rw [← h]⟩
      | some p =>
        simp only [ht, Option.map_eq_some_iff] at h
        obtain ⟨m, hm, rfl⟩ := h
        obtain ⟨s', hs', hst⟩ := applyEntry_ok s hm
        exact ⟨s', by simp [bind, EStateM.bind, hs', pure, EStateM.pure], hst⟩
    | _ =>
      simp only [ht, Option.some.injEq] at h
      exact ⟨s, by simp [← h, pure, EStateM.pure], by rw [← h]⟩

theorem rebuildStep_error {p : Option KVMessage} {s : KVServer c} {entry : KVMessage}
    (h : c.replayStep (p, s.dataStore.store) entry = none) :
    ∃ e s', rebuildStep p entry s = .error e s' := by
  unfold CacheConfig.replayStep at h
  unfold rebuildStep
  cases ht : entry.msgType with
  | none => exact ⟨_, s, rfl⟩
  | some t =>
    cases t with
    | commit =>
      cases p with
      | none => simp [ht] at h
      | some p =>
        simp only [ht, Option.map_eq_none_iff] at h
        obtain ⟨e, s', hs', _⟩ := applyEntry_error s h
        exact ⟨e, s', by simp [bind, EStateM.bind, hs']⟩
    | _ => simp [ht] at h

theorem rebuildLoop_iff (entries : List KVMessage) (p : Option KVMessage) (s : KVServer c)
    (m : PlainMap) :
    (∃ s', rebuildLoop p entries s = .ok () s' ∧ s'.dataStore.store = m) ↔
      ∃ q, entries.foldlM c.replayStep (p, s.dataStore.store) = some (q, m) := by
  induction entries generalizing p s with
  | nil => simp [rebuildLoop, pure, EStateM.pure]
  | cons entry rest ih =>
    simp only [rebuildLoop, List.foldlM_cons, bind, EStateM.bind]
    cases h : c.replayStep (p, s.dataStore.store) entry with
    | none =>
      obtain ⟨e, s', hs'⟩ := rebuildStep_error h
      simp [hs']
    | some st =>
      obtain ⟨s', hs', hst⟩ := rebuildStep_ok h
      have hst' : st = (st.1, s'.dataStore.store) := by rw [hst]
      simp only [hs', Option.bind_some]
      rw [ih, ← hst']

theorem rebuildServer_iff (file : Option (List KVMessage)) (m : PlainMap) :
    (∃ log s', rebuildServer file (KVServer.init c) = .ok log s' ∧ s'.dataStore.store = m) ↔
      ∃ q, c.replay (file.getD []) = some (q, m) := by
  rw [CacheConfig.replay, show PlainMap.empty = (KVServer.init c).dataStore.store from rfl,
    ← rebuildLoop_iff]
  simp only [rebuildServer, loadFromDisk, bind, EStateM.bind]
  constructor
  · rintro ⟨log, s', h, hm⟩
    split at h
    · next _ s'' heq =>
      cases h
      exact ⟨s', heq, hm⟩
    · cases h
  · rintro ⟨s', h, hm⟩
    rw [h]
    exact ⟨_, s', rfl, hm⟩

end TPCLog
end Cs162.Kvstore
