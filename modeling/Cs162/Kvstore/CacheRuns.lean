import Cs162.Kvstore.KVCache

namespace Cs162.Kvstore.KVCache
open Function
variable {c : CacheConfig}

abbrev keys (set : List KVCacheEntry) : List JString := (pairs set).map Prod.fst

def clear (e : KVCacheEntry) : KVCacheEntry := { e with isReferenced := false }

def Evicts (set rest : List KVCacheEntry) : Prop :=
  (∃ front victim back, set = front ++ victim :: back ∧ (∀ e ∈ front, e.isReferenced) ∧
      victim.isReferenced = false ∧ rest = front.map clear ++ back) ∨
    (∀ e ∈ set, e.isReferenced) ∧ ∃ victim back, set = victim :: back ∧ rest = back.map clear

section Eviction
variable {set front back : List KVCacheEntry} {victim : KVCacheEntry}

theorem evictPass_of_unreferenced (hf : ∀ e ∈ front, e.isReferenced) (hv : victim.isReferenced = false) :
    evictPass (front ++ victim :: back) = (true, front.map clear ++ back) := by
  induction front with
  | nil => simp [evictPass, hv]
  | cons e front ih =>
    have he := hf e List.mem_cons_self
    simp only [List.cons_append, evictPass, he, if_true, ih fun e' h => hf e' (List.mem_cons_of_mem _ h)]
    rfl

theorem evictPass_of_referenced (h : ∀ e ∈ set, e.isReferenced) : evictPass set = (false, set.map clear) := by
  induction set with
  | nil => rfl
  | cons e set ih =>
    have he := h e List.mem_cons_self
    simp only [evictPass, he, if_true, ih fun e' h' => h e' (List.mem_cons_of_mem _ h')]
    rfl

theorem referenced_or_split (set : List KVCacheEntry) :
    (∀ e ∈ set, e.isReferenced) ∨ ∃ front victim back, set = front ++ victim :: back ∧
      (∀ e ∈ front, e.isReferenced) ∧ victim.isReferenced = false := by
  induction set with
  | nil => exact .inl nofun
  | cons e set ih =>
    cases he : e.isReferenced with
    | false => exact .inr ⟨[], e, set, rfl, nofun, he⟩
    | true =>
      rcases ih with hall | ⟨front, victim, back, rfl, hf, hv⟩
      · refine .inl fun e' h => ?_
        rcases List.mem_cons.mp h with rfl | h
        · exact he
        · exact hall e' h
      · refine .inr ⟨e :: front, victim, back, rfl, fun e' h => ?_, hv⟩
        rcases List.mem_cons.mp h with rfl | h
        · exact he
        · exact hf e' h

theorem evicts_evict (hne : set ≠ []) : Evicts set (evict set) := by
  rcases referenced_or_split set with hall | ⟨front, victim, back, rfl, hf, hv⟩
  · -- The first pass only clears, so the second one takes the first entry.
    obtain ⟨victim, back, rfl⟩ := List.exists_cons_of_ne_nil hne
    refine .inr ⟨hall, victim, back, rfl, ?_⟩
    rw [evict, evictPass_of_referenced hall]
    rfl
  · refine .inl ⟨front, victim, back, rfl, hf, hv, ?_⟩
    rw [evict, evictPass_of_unreferenced hf hv]
    rfl

theorem Evicts.length {rest : List KVCacheEntry} (h : Evicts set rest) : rest.length + 1 = set.length := by
  rcases h with ⟨front, victim, back, rfl, -, -, rfl⟩ | ⟨-, victim, back, rfl, rfl⟩
  · simp only [List.length_append, List.length_map, List.length_cons]
    omega
  · rw [List.length_map, List.length_cons]

end Eviction

section Lookup
variable {set : List KVCacheEntry} {key : JString} {value : Option JString}

theorem getScan_of_mem (hnd : (keys set).Nodup) (h : (key, value) ∈ pairs set) : (getScan key set).1 = value := by
  induction set with
  | nil => cases h
  | cons e es ih =>
    simp only [keys, pairs_cons, List.map_cons, List.nodup_cons] at hnd
    unfold getScan
    split_ifs with hk
    · rcases List.mem_cons.mp h with h | h
      · exact (Prod.mk.inj h).2.symm
      · exact absurd (List.mem_map_of_mem (f := Prod.fst) h) (hk ▸ hnd.1)
    · rcases List.mem_cons.mp h with h | h
      · exact absurd (Prod.mk.inj h).1.symm hk
      · exact ih hnd.2 h

theorem getScan_of_notMem (h : key ∉ keys set) : (getScan key set).1 = none :=
  getScan_eq_none fun _ hmem => h (List.mem_map_of_mem (f := Prod.fst) hmem)

theorem getScan_snd_of_notMem (h : key ∉ keys set) : (getScan key set).2 = set := by
  induction set with
  | nil => rfl
  | cons e es ih =>
    have hk : e.key ≠ key := fun hk => h (List.mem_cons.mpr (.inl hk.symm))
    have hes : key ∉ keys es := fun hmem => h (List.mem_cons_of_mem _ hmem)
    rw [getScan, if_neg hk, ih hes]

theorem mem_putScan_self (h : key ∈ keys set) : (key, value) ∈ pairs (putScan key value set).2 := by
  induction set with
  | nil => cases h
  | cons e es ih =>
    unfold putScan
    split_ifs with hk
    · rw [pairs_cons, ← hk]
      exact List.mem_cons_self
    · rcases List.mem_cons.mp h with h | h
      · exact absurd h.symm hk
      · exact List.mem_cons_of_mem _ (ih h)

theorem putSet_of_mem (n : ℕ) (h : key ∈ keys set) : putSet n key value set = (putScan key value set).2 :=
  if_pos ((putScan_found ..).mpr h)

theorem putSet_of_room {n : ℕ} (h : key ∉ keys set) (hlen : set.length < n) :
    putSet n key value set = set ++ [⟨key, value, false⟩] := by
  rw [putSet, if_neg fun hf => h ((putScan_found ..).mp hf), if_pos hlen]

theorem putSet_of_full {n : ℕ} (h : key ∉ keys set) (hlen : n ≤ set.length) :
    putSet n key value set = evict set ++ [⟨key, value, false⟩] := by
  rw [putSet, if_neg fun hf => h ((putScan_found ..).mp hf), if_neg (not_lt.mpr hlen)]

theorem mem_putSet_self (n : ℕ) : (key, value) ∈ pairs (putSet n key value set) := by
  by_cases h : key ∈ keys set
  · rw [putSet_of_mem n h]
    exact mem_putScan_self h
  · rcases Nat.lt_or_ge set.length n with hlen | hlen
    · rw [putSet_of_room h hlen, pairs_append]
      exact List.mem_append_right _ List.mem_cons_self
    · rw [putSet_of_full h hlen, pairs_append]
      exact List.mem_append_right _ List.mem_cons_self

theorem length_pairs (set : List KVCacheEntry) : (pairs set).length = set.length := List.length_map _

theorem length_putSet {n : ℕ} (hn : 0 < n) (hlen : set.length ≤ n) : (putSet n key value set).length ≤ n := by
  by_cases h : key ∈ keys set
  · have hkeys := congrArg List.length (putScan_keys key value set)
    rw [List.length_map, List.length_map, length_pairs, length_pairs] at hkeys
    rw [putSet_of_mem n h, hkeys]
    exact hlen
  · rcases Nat.lt_or_ge set.length n with hroom | hfull
    · rw [putSet_of_room h hroom, List.length_append]
      exact Nat.succ_le_of_lt hroom
    · have hne : set ≠ [] := List.ne_nil_of_length_pos (Nat.lt_of_lt_of_le hn hfull)
      have hevict := (evicts_evict hne).length
      rw [putSet_of_full h hfull, List.length_append, List.length_singleton, hevict]
      exact hlen

end Lookup

inductive CacheOp
  | put (key : JString) (value : Option JString)
  | get (key : JString)
  | del (key : JString)

namespace CacheOp

def key : CacheOp → JString
  | .put k _ | .get k | .del k => k

def run : CacheOp → JavaM (KVCache c) (Option JString)
  | .put k v => do
    KVCache.put k v
    return none
  | .get k => KVCache.get k
  | .del k => do
    KVCache.del k
    return none

def note (latest : JString → Option (Option JString)) : CacheOp → JString → Option (Option JString)
  | .put k v => update latest k (some v)
  | .get _ | .del _ => latest

end CacheOp

def afterOps (cache : KVCache c) (ops : List CacheOp) : KVCache c :=
  ops.foldl (fun cache op => finalState (op.run cache)) cache

def latestPut (ops : List CacheOp) : JString → Option (Option JString) :=
  ops.foldl CacheOp.note fun _ => none

structure SetOk (c : CacheConfig) (latest : JString → Option (Option JString)) (i : Fin c.numSets)
    (set : List KVCacheEntry) : Prop where
  bound : set.length ≤ c.maxElemsPerSet
  nodup : (keys set).Nodup
  index : ∀ p ∈ pairs set, c.setIndex? p.1 = some i
  latest : ∀ p ∈ pairs set, latest p.1 = some p.2

section Steps
variable {latest latest' : JString → Option (Option JString)} {i : Fin c.numSets} {set : List KVCacheEntry}
  {key : JString} {cache : KVCache c}

theorem SetOk.getScan (h : SetOk c latest i set) : SetOk c latest i (getScan key set).2 where
  bound := by
    rw [← length_pairs, pairs_getScan, length_pairs]
    exact h.bound
  nodup := by
    rw [keys, pairs_getScan]
    exact h.nodup
  index p hp := h.index p (pairs_getScan key set ▸ hp)
  latest p hp := h.latest p (pairs_getScan key set ▸ hp)

theorem SetOk.putSet (h : SetOk c latest i set) (hi : c.setIndex? key = some i) (value : Option JString) :
    SetOk c (update latest key (some value)) i (putSet c.maxElemsPerSet key value set) where
  bound := length_putSet c.maxElemsPerSet_pos h.bound
  nodup := putSet_nodup h.nodup
  index p hp := by
    rcases mem_putSet h.nodup hp with rfl | ⟨hp, -⟩
    · exact hi
    · exact h.index p hp
  latest p hp := by
    rcases mem_putSet h.nodup hp with rfl | ⟨hp, hne⟩
    · exact update_self ..
    · rw [update_of_ne hne]
      exact h.latest p hp

theorem SetOk.delScan (h : SetOk c latest i set) : SetOk c latest i (delScan key set) := by
  have hsub := pairs_delScan_sublist key set
  refine ⟨?_, h.nodup.sublist (hsub.map _), fun p hp => h.index p (hsub.subset hp),
    fun p hp => h.latest p (hsub.subset hp)⟩
  have hlen := hsub.length_le
  rw [length_pairs, length_pairs] at hlen
  exact Nat.le_trans hlen h.bound

theorem SetOk.congr (h : SetOk c latest i set) (heq : ∀ k, c.setIndex? k = some i → latest' k = latest k) :
    SetOk c latest' i set :=
  ⟨h.bound, h.nodup, h.index, fun p hp => (heq p.1 (h.index p hp)).trans (h.latest p hp)⟩

def Inv (latest : JString → Option (Option JString)) (cache : KVCache c) : Prop :=
  ∀ i, SetOk c latest i (cache.sets i)

theorem Inv.setSet (h : Inv latest cache) (hset : SetOk c latest' i set)
    (heq : ∀ k, c.setIndex? k ≠ some i → latest' k = latest k) : Inv latest' (cache.setSet i set) := by
  intro j
  by_cases hj : j = i
  · subst hj
    have hsets : (cache.setSet j set).sets j = set := update_self ..
    rw [hsets]
    exact hset
  · have hsets : (cache.setSet i set).sets j = cache.sets j := update_of_ne hj _ _
    rw [hsets]
    exact (h j).congr fun k hk => heq k fun hki => hj (Option.some.inj (hk.symm.trans hki))

theorem Inv.step (h : Inv latest cache) (op : CacheOp) (hi : c.InRange op.key) :
    Inv (op.note latest) (finalState (op.run cache)) := by
  obtain ⟨i, hi⟩ := Option.isSome_iff_exists.mp hi
  cases op with
  | put k v =>
    have hi : c.setIndex? k = some i := hi
    have hrun : finalState (CacheOp.run (.put k v) cache) = cache.stored i k v := by
      simp only [CacheOp.run, bind, EStateM.bind, put_run hi]
      rfl
    rw [hrun]
    refine h.setSet ((h i).putSet hi v) fun k' hk' => update_of_ne ?_ _ _
    rintro rfl
    exact hk' hi
  | get k =>
    have hi : c.setIndex? k = some i := hi
    have hrun : finalState (CacheOp.run (.get k) cache) = cache.marked i k := by
      simp only [CacheOp.run, get_run hi, finalState_ok]
    rw [hrun]
    exact h.setSet (h i).getScan fun _ _ => rfl
  | del k =>
    have hi : c.setIndex? k = some i := hi
    have hrun : finalState (CacheOp.run (.del k) cache) = cache.dropped i k := by
      simp only [CacheOp.run, bind, EStateM.bind, del_run hi]
      rfl
    rw [hrun]
    exact h.setSet (h i).delScan fun _ _ => rfl

theorem Inv.afterOps (h : Inv latest cache) {ops : List CacheOp} (hops : ∀ op ∈ ops, c.InRange op.key) :
    Inv (ops.foldl CacheOp.note latest) (afterOps cache ops) := by
  induction ops generalizing latest cache with
  | nil => exact h
  | cons op ops ih =>
    exact ih (h.step op (hops op List.mem_cons_self)) fun op' hop' => hops op' (List.mem_cons_of_mem _ hop')

theorem inv_init (c : CacheConfig) : Inv (fun _ => none) (init c) :=
  fun _ => ⟨Nat.zero_le _, List.nodup_nil, nofun, nofun⟩

theorem stored_self (cache : KVCache c) (i : Fin c.numSets) (key : JString) (value : Option JString) :
    (cache.stored i key value).sets i = putSet c.maxElemsPerSet key value (cache.sets i) :=
  update_self ..

theorem stored_of_ne {j : Fin c.numSets} (hj : j ≠ i) (cache : KVCache c) (key : JString) (value : Option JString) :
    (cache.stored i key value).sets j = cache.sets j := update_of_ne hj _ _

def Finds (latest : JString → Option (Option JString)) (cache : KVCache c) (i : Fin c.numSets)
    (key : JString) : Prop :=
  ∃ value cache', KVCache.get key cache = .ok value cache' ∧
    (key ∈ keys (cache.sets i) → latest key = some value) ∧ (key ∉ keys (cache.sets i) → value = none)

def Inserts (cache cache' : KVCache c) (i : Fin c.numSets) (key : JString) (value : Option JString) : Prop :=
  (∀ j ≠ i, cache'.sets j = cache.sets j) ∧
    (key ∈ keys (cache.sets i) → keys (cache'.sets i) = keys (cache.sets i)) ∧
    (key ∉ keys (cache.sets i) → (cache.sets i).length < c.maxElemsPerSet →
      cache'.sets i = cache.sets i ++ [⟨key, value, false⟩]) ∧
    (key ∉ keys (cache.sets i) → c.maxElemsPerSet ≤ (cache.sets i).length →
      ∃ n rest, evictLoop n (cache.sets i) = some rest ∧ Evicts (cache.sets i) rest ∧
        cache'.sets i = rest ++ [⟨key, value, false⟩])

theorem Inv.finds (h : Inv latest cache) (hi : c.setIndex? key = some i) : Finds latest cache i key := by
  refine ⟨_, _, get_run hi cache, fun hmem => ?_, fun hno => getScan_of_notMem hno⟩
  obtain ⟨⟨k, value⟩, hp, rfl⟩ := List.mem_map.mp hmem
  rw [getScan_of_mem (h i).nodup hp]
  exact (h i).latest _ hp

theorem inserts_stored (i : Fin c.numSets) (key : JString) (value : Option JString) :
    Inserts cache (cache.stored i key value) i key value := by
  refine ⟨fun j hj => stored_of_ne hj cache key value, fun hmem => ?_, fun hno hroom => ?_, fun hno hfull => ?_⟩
  · rw [stored_self, putSet_of_mem _ hmem]
    exact putScan_keys key value _
  · rw [stored_self, putSet_of_room hno hroom]
  · have hne : cache.sets i ≠ [] :=
      List.ne_nil_of_length_pos (Nat.lt_of_lt_of_le c.maxElemsPerSet_pos hfull)
    exact ⟨2, _, evictLoop_eq_evict hne le_rfl, evicts_evict hne,
      (stored_self ..).trans (putSet_of_full hno hfull)⟩

theorem afterOps_spec {ops : List CacheOp} (hops : ∀ op ∈ ops, c.InRange op.key) :
    (∀ i, ((afterOps (init c) ops).sets i).length ≤ c.maxElemsPerSet ∧
      (keys ((afterOps (init c) ops).sets i)).Nodup ∧
      ∀ k ∈ keys ((afterOps (init c) ops).sets i), c.setIndex? k = some i) ∧
    ∀ key i, c.setIndex? key = some i → Finds (latestPut ops) (afterOps (init c) ops) i key ∧
      ∀ value, ∃ cache' cache'', KVCache.put key value (afterOps (init c) ops) = .ok () cache' ∧
        KVCache.get key cache' = .ok value cache'' ∧ Inserts (afterOps (init c) ops) cache' i key value := by
  have hinv : Inv (latestPut ops) (afterOps (init c) ops) := (inv_init c).afterOps hops
  refine ⟨fun i => ⟨(hinv i).bound, (hinv i).nodup, fun k hk => ?_⟩, fun key i hi => ⟨hinv.finds hi, fun value => ?_⟩⟩
  · obtain ⟨p, hp, rfl⟩ := List.mem_map.mp hk
    exact (hinv i).index p hp
  · have hget := get_run hi ((afterOps (init c) ops).stored i key value)
    rw [stored_self, getScan_of_mem (putSet_nodup (hinv i).nodup) (mem_putSet_self _)] at hget
    exact ⟨_, _, put_run hi value _, hget, inserts_stored i key value⟩

end Steps

def threeKeys : List CacheOp := [.put [1] (some [10]), .put [2] (some [20]), .get [1]]

theorem afterOps_spec_threeKeys :
    (∀ op ∈ threeKeys, (⟨1, 2, by decide, by decide⟩ : CacheConfig).InRange op.key) ∧
      ∃ cache' cache'', KVCache.put [3] (some [30]) (afterOps (init ⟨1, 2, by decide, by decide⟩) threeKeys) =
          .ok () cache' ∧
        KVCache.get [3] cache' = .ok (some [30]) cache'' ∧
        Inserts (afterOps (init ⟨1, 2, by decide, by decide⟩) threeKeys) cache' 0 [3] (some [30]) := by
  have hops : ∀ op ∈ threeKeys, (⟨1, 2, by decide, by decide⟩ : CacheConfig).InRange op.key := by
    simp only [threeKeys, List.forall_mem_cons, List.not_mem_nil, false_implies, implies_true, and_true]
    decide
  exact ⟨hops, ((afterOps_spec hops).2 [3] 0 (by decide)).2 (some [30])⟩

end Cs162.Kvstore.KVCache
