import Mathlib.Algebra.Order.Ring.Int
import Cs162.Kvstore.Message

namespace Cs162.Kvstore

structure CacheConfig where
  numSets : ℕ
  maxElemsPerSet : ℕ
  numSets_pos : 0 < numSets
  maxElemsPerSet_pos : 0 < maxElemsPerSet

structure KVCacheEntry where
  key : JString
  value : Option JString
  isReferenced : Bool
  deriving DecidableEq, Repr

namespace CacheConfig
variable (c : CacheConfig)

/-- Java's `%` keeps the sign of the dividend, so the index may be negative. -/
def getSetId (key : JString) : ℤ := (mathAbs (hashCode key)).toInt.tmod c.numSets

def setIndex? (key : JString) : Option (Fin c.numSets) :=
  if h : (c.getSetId key).toNat < c.numSets ∧ 0 ≤ c.getSetId key then some ⟨_, h.1⟩ else none

def InRange (key : JString) : Prop := (c.setIndex? key).isSome

instance (key : JString) : Decidable (c.InRange key) := inferInstanceAs (Decidable (_ = true))

theorem inRange_iff (key : JString) : c.InRange key ↔ 0 ≤ c.getSetId key := by
  have hlt : c.getSetId key < c.numSets :=
    Int.tmod_lt_of_pos _ (by exact_mod_cast c.numSets_pos)
  unfold InRange setIndex?
  split_ifs with h
  · simp [h.2]
  · have hneg : ¬ 0 ≤ c.getSetId key := fun h0 => h ⟨by omega, h0⟩
    simp [hneg]

end CacheConfig

structure KVCache (c : CacheConfig) where
  sets : Fin c.numSets → List KVCacheEntry

namespace KVCache
variable {c : CacheConfig}

def init (c : CacheConfig) : KVCache c := ⟨fun _ => []⟩

def getSet (key : JString) : JavaM (KVCache c) (Fin c.numSets) :=
  match c.setIndex? key with
  | some i => pure i
  | none => throw .indexOutOfBoundsException

def setSet (cache : KVCache c) (i : Fin c.numSets) (set : List KVCacheEntry) : KVCache c :=
  ⟨Function.update cache.sets i set⟩

def getScan (key : JString) : List KVCacheEntry → Option JString × List KVCacheEntry
  | [] => (none, [])
  | e :: es =>
    if e.key = key then (e.value, { e with isReferenced := true } :: es)
    else ((getScan key es).1, e :: (getScan key es).2)

def get (key : JString) : JavaM (KVCache c) (Option JString) := do
  let i ← getSet key
  let r := getScan key ((← MonadState.get).sets i)
  modify (·.setSet i r.2)
  return r.1

def putScan (key : JString) (value : Option JString) : List KVCacheEntry → Bool × List KVCacheEntry
  | [] => (false, [])
  | e :: es =>
    if e.key = key then (true, { e with value := value, isReferenced := false } :: es)
    else ((putScan key value es).1, e :: (putScan key value es).2)

def evictPass : List KVCacheEntry → Bool × List KVCacheEntry
  | [] => (false, [])
  | e :: es =>
    if e.isReferenced then ((evictPass es).1, { e with isReferenced := false } :: (evictPass es).2)
    else (true, es)

def evictLoop : ℕ → List KVCacheEntry → Option (List KVCacheEntry)
  | 0, _ => none
  | n + 1, set =>
    if (evictPass set).1 then some (evictPass set).2 else evictLoop n (evictPass set).2

def evict (set : List KVCacheEntry) : List KVCacheEntry :=
  if (evictPass set).1 then (evictPass set).2 else (evictPass (evictPass set).2).2

def putSet (maxElemsPerSet : ℕ) (key : JString) (value : Option JString)
    (set : List KVCacheEntry) : List KVCacheEntry :=
  if (putScan key value set).1 then (putScan key value set).2
  else if set.length < maxElemsPerSet then set ++ [⟨key, value, false⟩]
  else evict set ++ [⟨key, value, false⟩]

def put (key : JString) (value : Option JString) : JavaM (KVCache c) Unit := do
  let i ← getSet key
  modify fun cache => cache.setSet i (putSet c.maxElemsPerSet key value (cache.sets i))

def delScan (key : JString) : List KVCacheEntry → List KVCacheEntry
  | [] => []
  | e :: es => if e.key = key then es else e :: delScan key es

def del (key : JString) : JavaM (KVCache c) Unit := do
  let i ← getSet key
  modify fun cache => cache.setSet i (delScan key (cache.sets i))

def pairs (set : List KVCacheEntry) : List (JString × Option JString) :=
  set.map fun e => (e.key, e.value)

@[simp] theorem pairs_nil : pairs [] = [] := rfl

@[simp] theorem pairs_cons (e : KVCacheEntry) (es : List KVCacheEntry) :
    pairs (e :: es) = (e.key, e.value) :: pairs es := rfl

@[simp] theorem pairs_append (as bs : List KVCacheEntry) : pairs (as ++ bs) = pairs as ++ pairs bs :=
  List.map_append

@[simp] theorem pairs_getScan (key : JString) (set : List KVCacheEntry) :
    pairs (getScan key set).2 = pairs set := by
  induction set with
  | nil => rfl
  | cons e es ih =>
    unfold getScan
    split_ifs <;> simp [ih]

theorem getScan_mem {key value : JString} {set : List KVCacheEntry}
    (h : (getScan key set).1 = some value) : (key, some value) ∈ pairs set := by
  induction set with
  | nil => simp [getScan] at h
  | cons e es ih =>
    unfold getScan at h
    split_ifs at h with hk
    · simp [← hk, ← h]
    · exact List.mem_cons_of_mem _ (ih h)

theorem getScan_eq_none {key : JString} {set : List KVCacheEntry}
    (h : ∀ v, (key, some v) ∉ pairs set) : (getScan key set).1 = none := by
  cases hv : (getScan key set).1 with
  | none => rfl
  | some v => exact absurd (getScan_mem hv) (h v)

theorem pairs_evictPass_sublist (set : List KVCacheEntry) :
    (pairs (evictPass set).2).Sublist (pairs set) := by
  induction set with
  | nil => exact List.Sublist.refl _
  | cons e es ih =>
    unfold evictPass
    split_ifs
    · exact ih.cons_cons _
    · exact List.sublist_cons_self _ _

theorem pairs_evict_sublist (set : List KVCacheEntry) : (pairs (evict set)).Sublist (pairs set) := by
  unfold evict
  split_ifs
  · exact pairs_evictPass_sublist set
  · exact (pairs_evictPass_sublist _).trans (pairs_evictPass_sublist set)

theorem evictPass_cleared {set : List KVCacheEntry} (h : (evictPass set).1 = false) :
    (evictPass set).2.length = set.length ∧ ∀ e ∈ (evictPass set).2, e.isReferenced = false := by
  induction set with
  | nil => simp [evictPass]
  | cons e es ih =>
    unfold evictPass at h ⊢
    split_ifs at h ⊢
    obtain ⟨hlen, hall⟩ := ih h
    refine ⟨by simp [hlen], fun e' he' => ?_⟩
    rcases List.mem_cons.mp he' with rfl | he'
    · rfl
    · exact hall e' he'

theorem evictLoop_eq_evict {set : List KVCacheEntry} (hne : set ≠ []) {n : ℕ} (hn : 2 ≤ n) :
    evictLoop n set = some (evict set) := by
  obtain ⟨n, rfl⟩ : ∃ m, n = m + 2 := ⟨n - 2, by omega⟩
  unfold evict
  rw [evictLoop]
  split_ifs with h
  · rfl
  · have hclear := evictPass_cleared (Bool.not_eq_true _ ▸ h)
    have hsecond : (evictPass (evictPass set).2).1 = true := by
      cases hs : (evictPass set).2 with
      | nil => exact absurd (List.length_eq_zero_iff.mp (by simpa [hs] using hclear.1.symm)) hne
      | cons e es => simp [evictPass, hclear.2 e (by simp [hs])]
    rw [evictLoop, if_pos hsecond]

theorem putScan_found (key : JString) (value : Option JString) (set : List KVCacheEntry) :
    (putScan key value set).1 = true ↔ key ∈ (pairs set).map Prod.fst := by
  induction set with
  | nil => simp [putScan]
  | cons e es ih =>
    unfold putScan
    split_ifs with hk
    · simp [hk]
    · simp [ih, Ne.symm hk]

theorem putScan_keys (key : JString) (value : Option JString) (set : List KVCacheEntry) :
    (pairs (putScan key value set).2).map Prod.fst = (pairs set).map Prod.fst := by
  induction set with
  | nil => rfl
  | cons e es ih =>
    unfold putScan
    split_ifs <;> simp [ih]

theorem mem_putScan {key : JString} {value : Option JString} {set : List KVCacheEntry}
    (hnd : ((pairs set).map Prod.fst).Nodup) {p : JString × Option JString}
    (hp : p ∈ pairs (putScan key value set).2) :
    p = (key, value) ∨ p ∈ pairs set ∧ p.1 ≠ key := by
  induction set with
  | nil => simp [putScan] at hp
  | cons e es ih =>
    simp only [pairs_cons, List.map_cons, List.nodup_cons] at hnd
    unfold putScan at hp
    split_ifs at hp with hk
    · simp only [pairs_cons, List.mem_cons] at hp
      rcases hp with hp | hp
      · exact .inl (by rw [hp, hk])
      · exact .inr ⟨List.mem_cons_of_mem _ hp,
          fun h => hnd.1 (hk ▸ h ▸ List.mem_map_of_mem (f := Prod.fst) hp)⟩
    · simp only [pairs_cons, List.mem_cons] at hp ⊢
      rcases hp with rfl | hp
      · exact .inr ⟨.inl rfl, hk⟩
      · exact (ih hnd.2 hp).imp_right fun h => ⟨.inr h.1, h.2⟩

theorem pairs_delScan_sublist (key : JString) (set : List KVCacheEntry) :
    (pairs (delScan key set)).Sublist (pairs set) := by
  induction set with
  | nil => exact List.Sublist.refl _
  | cons e es ih =>
    unfold delScan
    split_ifs
    · exact List.sublist_cons_self _ _
    · exact ih.cons_cons _

theorem mem_delScan {key : JString} {set : List KVCacheEntry}
    (hnd : ((pairs set).map Prod.fst).Nodup) {p : JString × Option JString}
    (hp : p ∈ pairs (delScan key set)) : p ∈ pairs set ∧ p.1 ≠ key := by
  refine ⟨(pairs_delScan_sublist key set).subset hp, fun hpk => ?_⟩
  induction set with
  | nil => simp [delScan] at hp
  | cons e es ih =>
    simp only [pairs_cons, List.map_cons, List.nodup_cons] at hnd
    unfold delScan at hp
    split_ifs at hp with hk
    · exact hnd.1 (hk ▸ hpk ▸ List.mem_map_of_mem (f := Prod.fst) hp)
    · rcases List.mem_cons.mp hp with rfl | hp
      · exact hk hpk
      · exact ih hnd.2 hp

theorem putSet_nodup {n : ℕ} {key : JString} {value : Option JString} {set : List KVCacheEntry}
    (hnd : ((pairs set).map Prod.fst).Nodup) :
    ((pairs (putSet n key value set)).map Prod.fst).Nodup := by
  have happend : ∀ l : List KVCacheEntry, (pairs l).Sublist (pairs set) →
      key ∉ (pairs set).map Prod.fst →
      ((pairs (l ++ [⟨key, value, false⟩])).map Prod.fst).Nodup := by
    intro l hl hk
    have hlk : key ∉ (pairs l).map Prod.fst := fun h => hk ((hl.map Prod.fst).subset h)
    simp only [pairs_append, List.map_append, pairs_cons, pairs_nil, List.map_cons, List.map_nil]
    exact List.nodup_append.mpr ⟨hnd.sublist (hl.map _), by simp, by
      rintro a ha b hb rfl
      exact hlk (List.mem_singleton.mp hb ▸ ha)⟩
  unfold putSet
  split_ifs with hf hlen
  · rw [putScan_keys]
    exact hnd
  · exact happend set (List.Sublist.refl _) fun h => hf ((putScan_found ..).mpr h)
  · exact happend _ (pairs_evict_sublist set) fun h => hf ((putScan_found ..).mpr h)

theorem mem_putSet {n : ℕ} {key : JString} {value : Option JString} {set : List KVCacheEntry}
    (hnd : ((pairs set).map Prod.fst).Nodup) {p : JString × Option JString}
    (hp : p ∈ pairs (putSet n key value set)) :
    p = (key, value) ∨ p ∈ pairs set ∧ p.1 ≠ key := by
  unfold putSet at hp
  split_ifs at hp with hf hlen
  · exact mem_putScan hnd hp
  all_goals
    have hk : key ∉ (pairs set).map Prod.fst := fun h => hf ((putScan_found ..).mpr h)
    rw [pairs_append, List.mem_append] at hp
    rcases hp with hp | hp
    · have hps : p ∈ pairs set := by
        first | exact hp | exact (pairs_evict_sublist set).subset hp
      exact .inr ⟨hps, fun h => hk (h ▸ List.mem_map_of_mem (f := Prod.fst) hps)⟩
    · exact .inl (by simpa using hp)

def marked (cache : KVCache c) (i : Fin c.numSets) (key : JString) : KVCache c :=
  cache.setSet i (getScan key (cache.sets i)).2

def stored (cache : KVCache c) (i : Fin c.numSets) (key : JString) (value : Option JString) :
    KVCache c := cache.setSet i (putSet c.maxElemsPerSet key value (cache.sets i))

def dropped (cache : KVCache c) (i : Fin c.numSets) (key : JString) : KVCache c :=
  cache.setSet i (delScan key (cache.sets i))

variable {key : JString} {i : Fin c.numSets}

theorem getSet_run (h : c.setIndex? key = some i) (cache : KVCache c) :
    getSet key cache = .ok i cache := by
  unfold getSet
  rw [h]
  rfl

theorem getSet_run_none (h : c.setIndex? key = none) (cache : KVCache c) :
    getSet key cache = .error .indexOutOfBoundsException cache := by
  unfold getSet
  rw [h]
  rfl

theorem get_run (h : c.setIndex? key = some i) (cache : KVCache c) :
    KVCache.get key cache = .ok (getScan key (cache.sets i)).1 (cache.marked i key) := by
  simp only [KVCache.get, bind, EStateM.bind, getSet_run h]
  rfl

theorem put_run (h : c.setIndex? key = some i) (value : Option JString) (cache : KVCache c) :
    KVCache.put key value cache = .ok () (cache.stored i key value) := by
  simp only [KVCache.put, bind, EStateM.bind, getSet_run h]
  rfl

theorem del_run (h : c.setIndex? key = some i) (cache : KVCache c) :
    KVCache.del key cache = .ok () (cache.dropped i key) := by
  simp only [KVCache.del, bind, EStateM.bind, getSet_run h]
  rfl

def IndexesInside (c : CacheConfig) (key : JString) : Prop :=
  (0 ≤ c.getSetId key ∧ c.getSetId key < c.numSets) ∧ ∀ cache : KVCache c,
    (∃ i, getSet key cache = .ok i cache) ∧ (∃ r cache', KVCache.get key cache = .ok r cache') ∧
      (∀ value, ∃ cache', KVCache.put key value cache = .ok () cache') ∧
      ∃ cache', KVCache.del key cache = .ok () cache'

theorem toInt_mathAbs_min {n : BitVec 32} (h : n = BitVec.intMin 32) : (mathAbs n).toInt = -2 ^ 31 := by
  rw [h]
  decide

theorem toInt_mathAbs_nonneg {n : BitVec 32} (h : n ≠ BitVec.intMin 32) : 0 ≤ (mathAbs n).toInt := by
  rw [mathAbs]
  split_ifs with hneg
  · rw [BitVec.toInt_neg_of_ne_intMin h]
    omega
  · omega

theorem indexesInside_iff (c : CacheConfig) (key : JString) :
    IndexesInside c key ↔ hashCode key ≠ BitVec.intMin 32 ∨ c.numSets ∣ 2 ^ 31 := by
  have hlt : c.getSetId key < c.numSets := Int.tmod_lt_of_pos _ (by exact_mod_cast c.numSets_pos)
  have hindex : IndexesInside c key ↔ 0 ≤ c.getSetId key := by
    refine ⟨fun h => h.1.1, fun h => ⟨⟨h, hlt⟩, fun cache => ?_⟩⟩
    obtain ⟨i, hi⟩ := Option.isSome_iff_exists.mp ((c.inRange_iff key).mpr h)
    exact ⟨⟨i, getSet_run hi cache⟩, ⟨_, _, get_run hi cache⟩, fun value => ⟨_, put_run hi value cache⟩,
      ⟨_, del_run hi cache⟩⟩
  rw [hindex, CacheConfig.getSetId]
  by_cases hmin : hashCode key = BitVec.intMin 32
  · rw [toInt_mathAbs_min hmin, Int.neg_tmod, show (2 ^ 31 : ℤ) = ((2 ^ 31 : ℕ) : ℤ) from rfl,
      ← Int.ofNat_tmod, Nat.dvd_iff_mod_eq_zero]
    simp only [hmin, ne_eq, not_true_eq_false, false_or]
    omega
  · exact iff_of_true (Int.tmod_nonneg _ (toInt_mathAbs_nonneg hmin)) (.inl hmin)

theorem polygenelubricants_not_indexesInside : ¬ IndexesInside ⟨3, 1, by decide, by decide⟩
    ("polygenelubricants".toList.map fun ch => ch.toNat.toUInt16) := by
  rintro ⟨⟨h, -⟩, -⟩
  exact absurd h (by decide)

structure Coherent (cache : KVCache c) (m : JString → Option JString) : Prop where
  nodup : ∀ i, ((pairs (cache.sets i)).map Prod.fst).Nodup
  index : ∀ i, ∀ p ∈ pairs (cache.sets i), c.setIndex? p.1 = some i
  value : ∀ i, ∀ p ∈ pairs (cache.sets i), p.2 ≠ none ∧ p.2 = m p.1

theorem coherent_init (m : JString → Option JString) : (init c).Coherent m :=
  ⟨fun _ => List.nodup_nil, by simp [init], by simp [init]⟩

theorem Coherent.setSet {cache : KVCache c} {m m' : JString → Option JString}
    (h : cache.Coherent m) {i : Fin c.numSets} {set : List KVCacheEntry}
    (hnd : ((pairs set).map Prod.fst).Nodup)
    (hset : ∀ p ∈ pairs set, c.setIndex? p.1 = some i ∧ p.2 ≠ none ∧ p.2 = m' p.1)
    (hm : ∀ k, c.setIndex? k ≠ some i → m' k = m k) : (cache.setSet i set).Coherent m' := by
  have hother : ∀ {j}, j ≠ i → (cache.setSet i set).sets j = cache.sets j :=
    fun hj => Function.update_of_ne hj _ _
  have hself : (cache.setSet i set).sets i = set := Function.update_self ..
  refine ⟨fun j => ?_, fun j p hp => ?_, fun j p hp => ?_⟩ <;> by_cases hj : j = i
  · subst hj
    rwa [hself]
  · rw [hother hj]
    exact h.nodup j
  · subst hj
    rw [hself] at hp
    exact (hset p hp).1
  · rw [hother hj] at hp
    exact h.index j p hp
  · subst hj
    rw [hself] at hp
    exact (hset p hp).2
  · rw [hother hj] at hp
    obtain ⟨hne, hv⟩ := h.value j p hp
    refine ⟨hne, hv.trans (hm _ ?_).symm⟩
    rw [h.index j p hp]
    exact fun hji => hj (Option.some.inj hji)

theorem Coherent.getScan_value {cache : KVCache c} {m : JString → Option JString}
    (h : cache.Coherent m) {v : JString} (hv : (getScan key (cache.sets i)).1 = some v) :
    m key = some v := (h.value i _ (getScan_mem hv)).2.symm

theorem Coherent.marked {cache : KVCache c} {m : JString → Option JString} (h : cache.Coherent m) :
    (cache.marked i key).Coherent m := by
  refine h.setSet ?_ ?_ fun _ _ => rfl
  · rw [pairs_getScan]
    exact h.nodup i
  · intro p hp
    rw [pairs_getScan] at hp
    exact ⟨h.index i p hp, h.value i p hp⟩

theorem Coherent.stored {cache : KVCache c} {m : JString → Option JString} (h : cache.Coherent m)
    (hi : c.setIndex? key = some i) (value : JString) :
    (cache.stored i key (some value)).Coherent (Function.update m key (some value)) := by
  refine h.setSet (putSet_nodup (h.nodup i)) ?_ ?_
  · intro p hp
    rcases mem_putSet (h.nodup i) hp with rfl | ⟨hp, hk⟩
    · exact ⟨hi, by simp, by simp⟩
    · rw [Function.update_of_ne hk]
      exact ⟨h.index i p hp, h.value i p hp⟩
  · intro k hk
    have hne : k ≠ key := fun hkk => hk (hkk ▸ hi)
    exact Function.update_of_ne hne _ _

theorem Coherent.dropped {cache : KVCache c} {m : JString → Option JString} (h : cache.Coherent m)
    (hi : c.setIndex? key = some i) :
    (cache.dropped i key).Coherent (Function.update m key none) := by
  refine h.setSet ((h.nodup i).sublist ((pairs_delScan_sublist key _).map _)) ?_ ?_
  · intro p hp
    obtain ⟨hp, hk⟩ := mem_delScan (h.nodup i) hp
    rw [Function.update_of_ne hk]
    exact ⟨h.index i p hp, h.value i p hp⟩
  · intro k hk
    have hne : k ≠ key := fun hkk => hk (hkk ▸ hi)
    exact Function.update_of_ne hne _ _

end KVCache
end Cs162.Kvstore
