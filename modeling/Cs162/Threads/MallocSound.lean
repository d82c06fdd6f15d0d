import Cs162.Threads.MallocSlots

namespace Cs162.Threads.Malloc
open Lib Function Option

def freeAt (freeList : DescId → List ℕ) (d : DescId) (p : ℕ) : ℕ :=
  ((Finset.range (blocksPerArena d)).filter fun i => arenaToBlock d p i ∈ freeList d).card

section FreeAt
variable {freeList freeList' : DescId → List ℕ} {d : DescId} {p i : ℕ}

theorem freeAt_congr (h : ∀ j < blocksPerArena d, arenaToBlock d p j ∈ freeList' d ↔ arenaToBlock d p j ∈ freeList d) :
    freeAt freeList' d p = freeAt freeList d p :=
  congrArg Finset.card (Finset.filter_congr fun j hj => h j (Finset.mem_range.mp hj))

theorem freeAt_add_one (hi : i < blocksPerArena d) (hmem : arenaToBlock d p i ∈ freeList d)
    (h : ∀ c, c ∈ freeList' d ↔ c ≠ arenaToBlock d p i ∧ c ∈ freeList d) :
    freeAt freeList' d p + 1 = freeAt freeList d p := by
  have herase : ((Finset.range (blocksPerArena d)).filter fun j => arenaToBlock d p j ∈ freeList' d) =
      ((Finset.range (blocksPerArena d)).filter fun j => arenaToBlock d p j ∈ freeList d).erase i := by
    ext j
    have hne : arenaToBlock d p j ≠ arenaToBlock d p i ↔ j ≠ i :=
      not_congr ⟨arenaToBlock_inj, congrArg (arenaToBlock d p)⟩
    simp only [Finset.mem_filter, Finset.mem_erase, h, hne]
    tauto
  rw [freeAt, herase]
  exact Finset.card_erase_add_one (Finset.mem_filter.mpr ⟨Finset.mem_range.mpr hi, hmem⟩)

theorem freeAt_eq_blocksPerArena :
    freeAt freeList d p = blocksPerArena d ↔ ∀ i < blocksPerArena d, arenaToBlock d p i ∈ freeList d := by
  have hall := Finset.card_filter_eq_iff (s := Finset.range (blocksPerArena d))
    (p := fun i => arenaToBlock d p i ∈ freeList d)
  rw [Finset.card_range] at hall
  rw [freeAt, hall]
  simp only [Finset.mem_range]

end FreeAt

namespace Heap

def kinds (s : Heap) (p : ℕ) : Option Kind := (s.arena p).map Arena.kind

def extents (s : Heap) (p : ℕ) : Option (ℕ × ℕ) := (s.kinds p).map fun k => (p, k.pages)

theorem kinds_setArena (s : Heap) (p : ℕ) (a : Option Arena) :
    (s.setArena p a).kinds = update s.kinds p (a.map Arena.kind) :=
  funext (Function.apply_update (fun _ => Option.map Arena.kind) s.arena p a)

theorem extents_eq {s : Heap} {p : ℕ} {k : Kind} (h : s.kinds p = some k) : s.extents p = some (p, k.pages) := by
  rw [extents, h]
  rfl

theorem extents_of_kinds {s s' : Heap} {p : ℕ} {k : Option Kind} (h : s'.kinds = update s.kinds p k) :
    s'.extents = update s.extents p (k.map fun k => (p, k.pages)) := by
  funext q
  rw [extents, h]
  exact Function.apply_update (fun q => Option.map fun k : Kind => (q, k.pages)) s.kinds p k q

variable {s : Heap} {p b i n : ℕ} {d : DescId}

theorem arena_of_kinds_small (h : s.kinds p = some (.small d)) : ∃ n, s.arena p = some ⟨some d, n⟩ := by
  obtain ⟨⟨_ | d', n⟩, ha, hk⟩ := map_eq_some_iff.mp h
  · exact nomatch hk
  · cases hk
    exact ⟨n, ha⟩

theorem arena_of_kinds_big (h : s.kinds p = some (.big n)) : s.arena p = some ⟨none, n⟩ := by
  obtain ⟨⟨_ | d', n⟩, ha, hk⟩ := map_eq_some_iff.mp h
  · cases hk
    exact ha
  · exact nomatch hk

theorem blockToArena_eq {a : Arena} (ha : s.arena p = some a) (hi : i < a.kind.slots) :
    s.blockToArena (a.kind.block p i) = some a := by
  rw [blockToArena, Kind.block_div hi, ha, filter_some, if_pos]
  have hmod := Kind.block_mod (p := p) hi
  have hlt := Kind.mul_len_lt hi
  rw [hmod]
  rcases a with ⟨_ | d, n⟩
  · obtain rfl : i = 0 := Nat.lt_one_iff.mp hi
    simp
  · change decide ((sizeofArena + i * blockSize d + 2 ^ 32 - sizeofArena) % 2 ^ 32 % blockSize d = 0) = true
    have hlt : sizeofArena + i * blockSize d < pgSize := hlt
    have hwrap : (sizeofArena + i * blockSize d + 2 ^ 32 - sizeofArena) % 2 ^ 32 = i * blockSize d := by
      simp only [sizeofArena, pgSize] at hlt ⊢
      omega
    rw [hwrap, Nat.mul_mod_left]
    rfl

end Heap

structure Core (s : Heap) : Prop where
  ranges : Ranges s.extents s.used
  slots : Slots s.kinds s.freeList s.blocks
  count : ∀ p d n, s.arena p = some ⟨some d, n⟩ → n = freeAt s.freeList d p

namespace Core
variable {s s' : Heap} {p q b n size : ℕ} {d : DescId}

theorem init : Core .init := ⟨.empty, .init, nofun⟩

theorem kinds_eq_none (h : Core s) (hp : s.used p = false) : s.kinds p = none := by
  by_contra hne
  obtain ⟨k, hk⟩ := ne_none_iff_exists'.mp hne
  have hused := h.ranges.used_start (Heap.extents_eq hk)
  exact Bool.false_ne_true (hp.symm.trans hused)

theorem pages_pos (h : Core s) {k : Kind} (hk : s.kinds p = some k) : 0 < k.pages :=
  h.ranges.pos (Heap.extents_eq hk)

theorem count_change (h : Core s) (p : ℕ) (harena : ∀ q, q ≠ p → s'.arena q = s.arena q)
    (hlist : ∀ d c, c / pgSize ≠ p → (c ∈ s'.freeList d ↔ c ∈ s.freeList d))
    (hp : ∀ d n, s'.arena p = some ⟨some d, n⟩ → n = freeAt s'.freeList d p) :
    ∀ q d n, s'.arena q = some ⟨some d, n⟩ → n = freeAt s'.freeList d q := by
  intro q d n hq
  by_cases hqp : q = p
  · subst hqp
    exact hp d n hq
  · rw [h.count q d n (harena q hqp ▸ hq)]
    refine (freeAt_congr fun j hj => hlist d _ ?_).symm
    rwa [arenaToBlock_div hj]

theorem newArena (h : Core s) (hp : s.used p = false) (d : DescId) : Core (s.newArena d p) := by
  have hnone := h.kinds_eq_none hp
  have hkinds : (s.newArena d p).kinds = update s.kinds p (some (.small d)) := s.kinds_setArena p _
  have hmem := Slots.mem_append s.freeList d p
  refine ⟨?_, ?_, h.count_change p (fun q hq => update_of_ne hq ..) (fun d' c hc => ?_) fun d' n hn => ?_⟩
  · rw [Heap.extents_of_kinds hkinds]
    refine h.ranges.claim (by rw [Heap.extents, hnone]; rfl) Nat.one_pos fun q hq => ?_
    obtain rfl : q = p := by
      rw [inRange_iff] at hq
      simp only [Kind.pages] at hq
      omega
    exact hp
  · rw [hkinds]
    exact h.slots.addSmall hnone d
  · refine (hmem d' c).trans (or_iff_left ?_)
    rintro ⟨-, i, hi, rfl⟩
    exact hc (arenaToBlock_div hi)
  · have heq : some (⟨some d, blocksPerArena d⟩ : Arena) = some ⟨some d', n⟩ :=
      (update_self p _ s.arena).symm.trans hn
    cases heq
    exact (freeAt_eq_blocksPerArena.mpr fun i hi => (hmem d _).mpr (.inr ⟨rfl, i, hi, rfl⟩)).symm

theorem newBig (h : Core s) {cnt : ℕ} (hcnt : 0 < cnt) (hp : ∀ q, inRange p cnt q → s.used q = false)
    (hsize : size ≤ (Kind.big cnt).len) : Core (s.newBig p cnt size) := by
  have hnone := h.kinds_eq_none (hp p (inRange_iff.mpr ⟨Nat.le_refl p, Nat.lt_add_of_pos_right hcnt⟩))
  have hkinds : (s.newBig p cnt size).kinds = update s.kinds p (some (.big cnt)) := s.kinds_setArena p _
  refine ⟨?_, ?_, h.count_change p (fun q hq => update_of_ne hq ..) (fun _ _ _ => Iff.rfl) fun d' n hn => ?_⟩
  · rw [Heap.extents_of_kinds hkinds]
    exact h.ranges.claim (by rw [Heap.extents, hnone]; rfl) hcnt hp
  · rw [hkinds]
    exact h.slots.addBig hnone hsize
  · have heq : some (⟨none, cnt⟩ : Arena) = some ⟨some d', n⟩ := (update_self p _ s.arena).symm.trans hn
    exact nomatch heq

theorem kinds_setCnt {m : ℕ} (ha : s.arena p = some ⟨some d, n⟩) :
    (s.setArena p (some ⟨some d, m⟩)).kinds = s.kinds := by
  rw [Heap.kinds_setArena, update_eq_self_iff, Heap.kinds, ha]
  rfl

theorem head_arena (h : Core s) (hb : b ∈ s.freeList d) :
    ∃ i n, s.arena (b / pgSize) = some ⟨some d, n + 1⟩ ∧ i < blocksPerArena d ∧
      b = arenaToBlock d (b / pgSize) i ∧ s.blockToArena b = some ⟨some d, n + 1⟩ := by
  obtain ⟨i, hk, hi, hbi⟩ := h.slots.free hb
  obtain ⟨n, ha⟩ := Heap.arena_of_kinds_small hk
  have hpos : 0 < n := by
    rw [h.count _ d n ha]
    exact Finset.card_pos.mpr ⟨i, Finset.mem_filter.mpr ⟨Finset.mem_range.mpr hi, hbi ▸ hb⟩⟩
  obtain ⟨m, rfl⟩ : ∃ m, n = m + 1 := ⟨n - 1, by omega⟩
  have hblock := Heap.blockToArena_eq ha (i := i) hi
  exact ⟨i, m, ha, hi, hbi, hbi ▸ hblock⟩

theorem popBlock (h : Core s) {rest : List ℕ} (hl : s.freeList d = b :: rest) (hsize : size ≤ blockSize d) :
    ∃ s' m, s.popBlock d size = some (some b, s') ∧ Core s' ∧ m < blocksPerArena d ∧
      s'.arena = update s.arena (b / pgSize) (some ⟨some d, m⟩) ∧ s'.used = s.used := by
  have hb : b ∈ s.freeList d := hl ▸ List.mem_cons_self ..
  obtain ⟨i, n, ha, hi, hbi, hblock⟩ := h.head_arena hb
  have hmem := h.slots.mem_tail hl
  have hcount : freeAt (update s.freeList d rest) d (b / pgSize) + 1 = freeAt s.freeList d (b / pgSize) :=
    freeAt_add_one hi (hbi ▸ hb) fun c => hbi ▸ hmem d c
  have hn := h.count _ d _ ha
  have hle : freeAt s.freeList d (b / pgSize) ≤ blocksPerArena d := by
    rw [freeAt]
    exact (Finset.card_filter_le _ _).trans (Finset.card_range _).le
  have hpop : s.popBlock d size = some (some b,
      ((s.setFreeList d rest).setArena (b / pgSize) (some ⟨some d, n⟩)).setBlock b (some size)) := by
    rw [Heap.popBlock, hl]
    simp [hblock]
  refine ⟨_, n, hpop, ⟨?_, ?_, ?_⟩, by omega, rfl, rfl⟩
  · have hkinds := kinds_setCnt (m := n) ha
    have hext : (s.setArena (b / pgSize) (some ⟨some d, n⟩)).extents = s.extents := by
      funext q
      rw [Heap.extents, hkinds]
      rfl
    exact hext ▸ h.ranges
  · have hkinds := kinds_setCnt (m := n) ha
    exact hkinds ▸ h.slots.take hl hsize
  · refine h.count_change (b / pgSize) (fun q hq => update_of_ne hq ..) (fun d' c hc => ?_) fun d' m hm => ?_
    · exact (hmem d' c).trans (and_iff_right (ne_of_apply_ne (· / pgSize) hc))
    · have heq : some (⟨some d, n⟩ : Arena) = some ⟨some d', m⟩ := (update_self _ _ s.arena).symm.trans hm
      cases heq
      change n = freeAt (update s.freeList d rest) d (b / pgSize)
      omega

theorem pushBlock (h : Core s) {i : ℕ} (ha : s.arena p = some ⟨some d, n⟩) (hi : i < blocksPerArena d)
    (hb : s.blocks (arenaToBlock d p i) ≠ none) : Core (s.pushBlock d (arenaToBlock d p i) ⟨some d, n⟩) := by
  have hdiv : arenaToBlock d p i / pgSize = p := arenaToBlock_div hi
  have hk : s.kinds p = some (.small d) := by rw [Heap.kinds, ha]; rfl
  have hmem := Slots.mem_cons s.freeList d (arenaToBlock d p i)
  have hnot : arenaToBlock d p i ∉ s.freeList d := fun hmem => hb ((h.slots.slot hk hi).mp hmem)
  have hkinds := kinds_setCnt (m := n + 1) ha
  rw [Heap.pushBlock, hdiv]
  refine ⟨?_, hkinds ▸ h.slots.give hk hi hb, ?_⟩
  · have hext : (s.setArena p (some ⟨some d, n + 1⟩)).extents = s.extents := by
      funext q
      rw [Heap.extents, hkinds]
      rfl
    exact hext ▸ h.ranges
  · refine h.count_change p (fun q hq => update_of_ne hq ..) (fun d' c hc => ?_) fun d' m hm => ?_
    · exact (hmem d' c).trans (or_iff_right fun heq => ne_of_div_ne hdiv hc heq.2)
    · have heq : some (⟨some d, n + 1⟩ : Arena) = some ⟨some d', m⟩ := (update_self _ _ s.arena).symm.trans hm
      cases heq
      rw [h.count p d n ha]
      refine freeAt_add_one hi ((hmem d _).mpr (.inl ⟨rfl, rfl⟩)) fun c => ?_
      rw [Heap.setBlock, Heap.setArena, Heap.setFreeList, hmem]
      constructor
      · exact fun hc => ⟨fun heq => hnot (heq ▸ hc), .inr hc⟩
      · exact fun hc => hc.2.resolve_left fun heq => hc.1 heq.2

theorem all_free_iff (h : Core s) (ha : s.arena p = some ⟨some d, n⟩) :
    n = blocksPerArena d ↔ ∀ c, c / pgSize = p → s.blocks c = none := by
  have hk : s.kinds p = some (.small d) := by rw [Heap.kinds, ha]; rfl
  rw [h.count p d n ha, freeAt_eq_blocksPerArena]
  constructor
  · intro hall c hc
    by_contra hne
    obtain ⟨m, hm⟩ := ne_none_iff_exists'.mp hne
    obtain ⟨k, i, hk', hi, hci, -⟩ := h.slots.alloc hm
    rw [hc] at hk' hci
    obtain rfl : Kind.small d = k := some.inj (hk.symm.trans hk')
    exact hne (hci ▸ (h.slots.slot hk hi).mp (hall i hi))
  · exact fun hall i hi => (h.slots.slot hk hi).mpr (hall _ (arenaToBlock_div hi))

theorem dropArena (h : Core s) (ha : s.arena p = some ⟨some d, blocksPerArena d⟩) : Core (s.dropArena d p) := by
  have hk : s.kinds p = some (.small d) := by rw [Heap.kinds, ha]; rfl
  have hkinds : (s.dropArena d p).kinds = update s.kinds p none := s.kinds_setArena p none
  have hall := freeAt_eq_blocksPerArena.mp (h.count p d _ ha).symm
  refine ⟨?_, ?_, h.count_change p (fun q hq => update_of_ne hq ..) (fun d' c hc => ?_) fun d' m hm => ?_⟩
  · rw [Heap.extents_of_kinds hkinds]
    exact h.ranges.release (Heap.extents_eq hk)
  · rw [hkinds]
    exact h.slots.dropSmall hk hall
  · exact (h.slots.mem_erase hk d' c).trans (and_iff_left hc)
  · have heq : none = some (⟨some d', m⟩ : Arena) := (update_self p _ s.arena).symm.trans hm
    exact nomatch heq

theorem dropBig (h : Core s) {cnt : ℕ} (ha : s.arena p = some ⟨none, cnt⟩) :
    Core (s.dropBig (p * pgSize + sizeofArena) cnt) := by
  have hk : s.kinds p = some (.big cnt) := by rw [Heap.kinds, ha]; rfl
  rw [Heap.dropBig, bigBlock_div]
  have hkinds : (((s.setBlock (p * pgSize + sizeofArena) none).setArena p none).setPages p cnt false).kinds =
      update s.kinds p none := s.kinds_setArena p none
  refine ⟨?_, ?_, h.count_change p (fun q hq => update_of_ne hq ..) (fun _ _ _ => Iff.rfl) fun d' m hm => ?_⟩
  · rw [Heap.extents_of_kinds hkinds]
    exact h.ranges.release (Heap.extents_eq hk)
  · rw [hkinds]
    exact h.slots.dropBig hk
  · have heq : none = some (⟨some d', m⟩ : Arena) := (update_self p _ s.arena).symm.trans hm
    exact nomatch heq

end Core

structure Inv (s : Heap) : Prop extends Core s where
  busy : ∀ p d n, s.arena p = some ⟨some d, n⟩ → n < blocksPerArena d

theorem le_blockSize_of_findDesc {size : ℕ} {d : DescId} (h : findDesc size = some d) : size ≤ blockSize d :=
  of_decide_eq_true (List.findFinIdx?_eq_some_iff.mp h).1

theorem le_len_pageCnt {size : ℕ} (h : size ≤ 2 ^ 31) :
    0 < pageCnt size ∧ size ≤ (Kind.big (pageCnt size)).len := by
  have hlen : (Kind.big (pageCnt size)).len = pageCnt size * pgSize - sizeofArena := rfl
  rw [hlen, pageCnt, divRoundUp]
  simp only [sizeofArena, pgSize]
  omega

namespace Inv
variable {s : Heap}

theorem init : Inv .init := ⟨.init, nofun⟩

theorem popBlock (h : Core s) {d : DescId} {b size : ℕ} {rest : List ℕ} (hl : s.freeList d = b :: rest)
    (hsize : size ≤ blockSize d) (hbusy : ∀ p, p ≠ b / pgSize → ∀ d n, s.arena p = some ⟨some d, n⟩ → n < blocksPerArena d) :
    ∃ r s', s.popBlock d size = some (r, s') ∧ Inv s' := by
  obtain ⟨s', m, hpop, hcore, hm, harena, -⟩ := h.popBlock hl hsize
  refine ⟨_, s', hpop, hcore, fun p d' n hp => ?_⟩
  rw [harena, update_apply] at hp
  split_ifs at hp with heq
  · cases hp
    exact hm
  · exact hbusy p heq d' n hp

theorem malloc (h : Inv s) {size : ℕ} {got : Option ℕ} (hallowed : Allowed s (.malloc size got)) :
    ∃ r s', s.malloc size got = some (r, s') ∧ Inv s' := by
  obtain ⟨hsize, hgot⟩ := hallowed
  unfold Heap.malloc
  split_ifs with hzero
  · exact ⟨none, s, rfl, h⟩
  rcases hd : findDesc size with _ | d
  · rcases got with _ | page
    · exact ⟨none, s, rfl, h⟩
    · obtain ⟨hpos, hlen⟩ := le_len_pageCnt hsize
      have hfree : ∀ q, inRange page (pageCnt size) q → s.used q = false := by
        simpa [pagesFor, hd] using hgot
      refine ⟨_, _, rfl, h.toCore.newBig hpos hfree hlen, fun p d n hp => ?_⟩
      change update s.arena page (some ⟨none, pageCnt size⟩) p = some ⟨some d, n⟩ at hp
      rw [update_apply] at hp
      split_ifs at hp
      · exact nomatch hp
      · exact h.busy p d n hp
  · have hle := le_blockSize_of_findDesc hd
    dsimp only
    split_ifs with hempty
    · rcases got with _ | page
      · exact ⟨none, s, rfl, h⟩
      · have hfree : s.used page = false := by
          refine hgot page rfl page (inRange_iff.mpr ?_)
          simp [pagesFor, hd]
        have hone := one_lt_blocksPerArena d
        obtain ⟨n, hn⟩ : ∃ n, blocksPerArena d = n + 1 := ⟨blocksPerArena d - 1, by omega⟩
        have hl : (s.newArena d page).freeList d = arenaToBlock d page 0 ::
            (List.range n).map (fun i => arenaToBlock d page (i + 1)) := by
          change update s.freeList d _ d = _
          rw [update_self, hempty, List.nil_append, hn, List.range_succ_eq_map, List.map_cons, List.map_map]
          rfl
        refine popBlock (h.toCore.newArena hfree d) hl hle fun p hp d' m hm => ?_
        rw [arenaToBlock_div (by omega)] at hp
        exact h.busy p d' m ((update_of_ne hp ..).symm.trans hm)
    · obtain ⟨b, rest, hl⟩ := List.exists_cons_of_ne_nil hempty
      exact popBlock h.toCore hl hle fun p _ => h.busy p

def Returned (s s' : Heap) (b : ℕ) : Prop :=
  (s'.used (b / pgSize) = false ↔ ∀ c, (s.blocks c).isSome → c / pgSize = b / pgSize → c = b) ∧
    (s'.used (b / pgSize) = false → ∀ d c, c ∈ s'.freeList d → c / pgSize ≠ b / pgSize)

theorem free_small_eq (h : Inv s) {p i n : ℕ} {d : DescId} (ha : s.arena p = some ⟨some d, n⟩)
    (hi : i < blocksPerArena d) :
    s.free (arenaToBlock d p i) = some (if n + 1 = blocksPerArena d then
      (s.pushBlock d (arenaToBlock d p i) ⟨some d, n⟩).dropArena d p
      else s.pushBlock d (arenaToBlock d p i) ⟨some d, n⟩) := by
  have hblock := Heap.blockToArena_eq ha (i := i) hi
  change s.blockToArena (arenaToBlock d p i) = _ at hblock
  have hbusy := h.busy p d n ha
  simp only [Heap.free, hblock, bind_eq_bind, bind_some, arenaToBlock_div hi]
  by_cases hlast : n + 1 = blocksPerArena d
  · rw [if_pos hlast.ge, if_pos hlast, if_pos hlast]
    rfl
  · rw [if_neg (by omega), if_neg hlast]
    rfl

theorem free_small (h : Inv s) {p i n : ℕ} {d : DescId} (ha : s.arena p = some ⟨some d, n⟩)
    (hi : i < blocksPerArena d) (hb : s.blocks (arenaToBlock d p i) ≠ none) :
    ∃ s', s.free (arenaToBlock d p i) = some s' ∧ Inv s' ∧ Returned s s' (arenaToBlock d p i) := by
  have hdiv : arenaToBlock d p i / pgSize = p := arenaToBlock_div hi
  have hcore := h.toCore.pushBlock ha hi hb
  have hpush : (s.pushBlock d (arenaToBlock d p i) ⟨some d, n⟩).arena =
      update s.arena p (some ⟨some d, n + 1⟩) := by
    rw [Heap.pushBlock, hdiv]
    rfl
  have harena := (congrFun hpush p).trans (update_self ..)
  have hbusy : ∀ q d' m, q ≠ p →
      (s.pushBlock d (arenaToBlock d p i) ⟨some d, n⟩).arena q = some ⟨some d', m⟩ → m < blocksPerArena d' := by
    intro q d' m hq hm
    rw [hpush, update_of_ne hq] at hm
    exact h.busy q d' m hm
  -- the count says whether another block of the page is allocated
  have hlast : n + 1 = blocksPerArena d ↔ ∀ c, (s.blocks c).isSome → c / pgSize = p → c = arenaToBlock d p i := by
    rw [hcore.all_free_iff harena]
    refine forall_congr' fun c => ?_
    change c / pgSize = p → update s.blocks (arenaToBlock d p i) none c = none ↔ _
    rw [update_apply, ← ne_none_iff_isSome]
    split_ifs <;> tauto
  refine ⟨_, h.free_small_eq ha hi, ?_⟩
  rw [Returned, hdiv, ← hlast]
  split_ifs with hcase
  · have hk : (s.pushBlock d (arenaToBlock d p i) ⟨some d, n⟩).kinds p = some (.small d) := by
      rw [Heap.kinds, harena]
      rfl
    have hused : ((s.pushBlock d (arenaToBlock d p i) ⟨some d, n⟩).dropArena d p).used p = false := by
      simp [Heap.dropArena, Heap.setPages, setRange, inRange]
    refine ⟨⟨hcore.dropArena (hcase ▸ harena), fun q d' m hm => ?_⟩, iff_of_true hused hcase, fun _ d' c hc => ?_⟩
    · change update (s.pushBlock d (arenaToBlock d p i) ⟨some d, n⟩).arena p none q = _ at hm
      rw [update_apply] at hm
      split_ifs at hm with hq
      exact hbusy q d' m hq hm
    · exact ((hcore.slots.mem_erase hk d' c).mp hc).2
  · have hused : s.used p = true :=
      h.ranges.used_start (o := p) (a := p) (n := 1) (by rw [Heap.extents, Heap.kinds, ha]; rfl)
    have hnot : ¬ s.used p = false := by simp [hused]
    refine ⟨⟨hcore, fun q d' m hm => ?_⟩, iff_of_false hnot hcase, fun hfalse => absurd hfalse hnot⟩
    obtain rfl | hq := eq_or_ne q p
    · cases harena.symm.trans hm
      have := h.busy q d n ha
      omega
    · exact hbusy q d' m hq hm

theorem free_big (h : Inv s) {p cnt : ℕ} (ha : s.arena p = some ⟨none, cnt⟩) :
    ∃ s', s.free (p * pgSize + sizeofArena) = some s' ∧ Inv s' := by
  have hblock := Heap.blockToArena_eq ha (i := 0) Nat.one_pos
  change s.blockToArena ((Kind.big cnt).block p 0) = _ at hblock
  rw [← bigBlock_eq] at hblock
  refine ⟨s.dropBig (p * pgSize + sizeofArena) cnt, by simp [Heap.free, hblock], h.toCore.dropBig ha,
    fun q d n hq => ?_⟩
  rw [Heap.dropBig, bigBlock_div] at hq
  change update s.arena p none q = _ at hq
  rw [update_apply] at hq
  split_ifs at hq
  exact h.busy q d n hq

theorem free (h : Inv s) {b : ℕ} (hb : (s.blocks b).isSome) :
    ∃ s', s.free b = some s' ∧ Inv s' ∧ ∀ d n, s.arena (b / pgSize) = some ⟨some d, n⟩ → Returned s s' b := by
  obtain ⟨size, hsize⟩ := isSome_iff_exists.mp hb
  obtain ⟨k, i, hk, hi, hbi, -⟩ := h.slots.alloc hsize
  generalize hp : b / pgSize = p at hk hbi ⊢
  cases k with
  | small d =>
    obtain ⟨n, ha⟩ := Heap.arena_of_kinds_small hk
    have hbi : b = arenaToBlock d p i := hbi
    subst hbi
    obtain ⟨s', hfree, hinv, hret⟩ := h.free_small ha hi (by rw [hsize]; nofun)
    exact ⟨s', hfree, hinv, fun _ _ _ => hret⟩
  | big cnt =>
    have ha := Heap.arena_of_kinds_big hk
    obtain rfl : i = 0 := Nat.lt_one_iff.mp hi
    rw [hbi, ← bigBlock_eq]
    obtain ⟨s', hfree, hinv⟩ := h.free_big ha
    exact ⟨s', hfree, hinv, fun d n hd => nomatch ha.symm.trans hd⟩

theorem next (h : Inv s) {e : Event} (he : Allowed s e) : ∃ s', next s e = some s' ∧ Inv s' := by
  cases e with
  | malloc size got =>
    obtain ⟨r, s', hs, hinv⟩ := h.malloc he
    exact ⟨s', by rw [Malloc.next, hs]; rfl, hinv⟩
  | free b =>
    obtain ⟨s', hs, hinv, -⟩ := h.free he
    exact ⟨s', hs, hinv⟩

end Inv

theorem inv_of_reach {s : Heap} (h : system.Reach s) : Inv s := by
  refine System.ReachVia.invariant (I := Inv) (fun s (hs : s = .init) => hs ▸ .init) (fun s e s' hi _ hstep => ?_) h
  obtain ⟨t, ht, hinv⟩ := hi.next hstep.1
  exact some.inj (ht.symm.trans hstep.2) ▸ hinv

def Heap.blockSize (s : Heap) (b : ℕ) : ℕ :=
  match s.arena (b / pgSize) with
  | some ⟨some d, _⟩ => Malloc.blockSize d
  | some ⟨none, cnt⟩ => pgSize * cnt - b % pgSize
  | none => 0

structure Sound (s : Heap) : Prop where
  long : ∀ b n, s.blocks b = some n → n ≤ s.blockSize b
  apart : ∀ b c, (s.blocks b).isSome → (s.blocks c).isSome → b ≠ c →
    NoOverlap (b, s.blockSize b) (c, s.blockSize c)
  header : ∀ b p, (s.blocks b).isSome → (s.arena p).isSome → NoOverlap (b, s.blockSize b) (p * pgSize, sizeofArena)
  count : ∀ p d n, s.arena p = some ⟨some d, n⟩ → n = ((s.freeList d).filter fun c => c / pgSize = p).length
  pages : ∀ q, s.used q = true ↔
    ∃ b a, (s.blocks b).isSome ∧ s.arena (b / pgSize) = some a ∧ inRange (b / pgSize) a.kind.pages q
  free : ∀ d b, b ∈ s.freeList d → ∃ n, s.arena (b / pgSize) = some ⟨some d, n⟩

theorem Kind.block_add_len_le_of_lt {k : Kind} {p i j : ℕ} (h : i < j) : k.block p i + k.len ≤ k.block p j := by
  have hmul : (i + 1) * k.len ≤ j * k.len := Nat.mul_le_mul_right _ h
  rw [Nat.succ_mul] at hmul
  rw [Kind.block, Kind.block]
  omega

theorem freeAt_eq_length {freeList : DescId → List ℕ} {d : DescId} {p : ℕ} (hnd : (freeList d).Nodup)
    (hfree : ∀ b ∈ freeList d, b / pgSize = p → ∃ i, i < blocksPerArena d ∧ b = arenaToBlock d p i) :
    freeAt freeList d p = ((freeList d).filter fun c => c / pgSize = p).length := by
  have himage : ((freeList d).filter fun c => c / pgSize = p).toFinset =
      ((Finset.range (blocksPerArena d)).filter fun i => arenaToBlock d p i ∈ freeList d).image
        (arenaToBlock d p) := by
    ext c
    simp only [List.mem_toFinset, List.mem_filter, decide_eq_true_eq, Finset.mem_image, Finset.mem_filter,
      Finset.mem_range]
    constructor
    · rintro ⟨hc, hp⟩
      obtain ⟨i, hi, rfl⟩ := hfree c hc hp
      exact ⟨i, ⟨hi, hc⟩, rfl⟩
    · rintro ⟨i, ⟨hi, hc⟩, rfl⟩
      exact ⟨hc, arenaToBlock_div hi⟩
  rw [← List.toFinset_card_of_nodup (hnd.filter _), himage,
    Finset.card_image_of_injective _ fun _ _ => arenaToBlock_inj]
  rfl

namespace Inv
variable {s : Heap} {b c p : ℕ}

theorem placed (h : Inv s) (hb : (s.blocks b).isSome) :
    ∃ k i, s.kinds (b / pgSize) = some k ∧ i < k.slots ∧ b = k.block (b / pgSize) i ∧ s.blockSize b = k.len := by
  obtain ⟨n, hn⟩ := isSome_iff_exists.mp hb
  obtain ⟨k, i, hk, hi, hbi, -⟩ := h.slots.alloc hn
  refine ⟨k, i, hk, hi, hbi, ?_⟩
  cases k with
  | small d =>
    obtain ⟨m, ha⟩ := Heap.arena_of_kinds_small hk
    rw [Heap.blockSize, ha]
    rfl
  | big cnt =>
    obtain rfl : i = 0 := Nat.lt_one_iff.mp hi
    have hmod : b % pgSize = sizeofArena := by
      rw [hbi, ← bigBlock_eq]
      exact (Nat.mul_add_mod_self_right ..).trans (by decide)
    rw [Heap.blockSize, Heap.arena_of_kinds_big hk]
    dsimp only
    rw [hmod, Nat.mul_comm]
    rfl

theorem extents_apart (h : Inv s) {k l : Kind} {q : ℕ} (hk : s.kinds p = some k) (hl : s.kinds q = some l)
    (hne : p ≠ q) : p + k.pages ≤ q ∨ q + l.pages ≤ p :=
  h.ranges.apart (Heap.extents_eq hk) (Heap.extents_eq hl) hne

theorem apart (h : Inv s) (hb : (s.blocks b).isSome) (hc : (s.blocks c).isSome) (hne : b ≠ c) :
    NoOverlap (b, s.blockSize b) (c, s.blockSize c) := by
  obtain ⟨k, i, hk, hi, hbi, hbl⟩ := h.placed hb
  obtain ⟨l, j, hl, hj, hcj, hcl⟩ := h.placed hc
  rw [hbl, hcl, NoOverlap]
  dsimp only
  generalize b / pgSize = p at hk hbi
  generalize c / pgSize = q at hl hcj
  subst hbi hcj
  obtain rfl | hpq := eq_or_ne p q
  · obtain rfl : k = l := some.inj (hk.symm.trans hl)
    obtain hij | rfl | hji := Nat.lt_trichotomy i j
    · exact .inl (Kind.block_add_len_le_of_lt hij)
    · exact absurd rfl hne
    · exact .inr (Kind.block_add_len_le_of_lt hji)
  · have hkend := Kind.block_add_len_le (p := p) (h.pages_pos hk) hi
    have hlend := Kind.block_add_len_le (p := q) (h.pages_pos hl) hj
    have hkstart : p * pgSize ≤ k.block p i := by rw [Kind.block]; omega
    have hlstart : q * pgSize ≤ l.block q j := by rw [Kind.block]; omega
    obtain hle | hle := h.extents_apart hk hl hpq
    · exact .inl (hkend.trans ((Nat.mul_le_mul_right _ hle).trans hlstart))
    · exact .inr (hlend.trans ((Nat.mul_le_mul_right _ hle).trans hkstart))

theorem header (h : Inv s) (hb : (s.blocks b).isSome) (hp : (s.arena p).isSome) :
    NoOverlap (b, s.blockSize b) (p * pgSize, sizeofArena) := by
  obtain ⟨k, i, hk, hi, hbi, hbl⟩ := h.placed hb
  obtain ⟨a, ha⟩ := isSome_iff_exists.mp hp
  have hl : s.kinds p = some a.kind := by rw [Heap.kinds, ha]; rfl
  rw [hbl, NoOverlap]
  dsimp only
  generalize b / pgSize = q at hk hbi
  subst hbi
  obtain rfl | hpq := eq_or_ne q p
  · right
    rw [Kind.block]
    omega
  · have hkend := Kind.block_add_len_le (p := q) (h.pages_pos hk) hi
    obtain hle | hle := h.extents_apart hk hl hpq
    · exact .inl (hkend.trans (Nat.mul_le_mul_right _ hle))
    · right
      have hpos := h.pages_pos hl
      have hmul : (p + 1) * pgSize ≤ q * pgSize := Nat.mul_le_mul_right _ (by omega)
      have hsmall : sizeofArena ≤ pgSize := by decide
      rw [Nat.succ_mul] at hmul
      rw [Kind.block]
      omega

theorem exists_block (h : Inv s) {k : Kind} (hk : s.kinds p = some k) :
    ∃ b, b / pgSize = p ∧ (s.blocks b).isSome := by
  cases k with
  | small d =>
    obtain ⟨n, ha⟩ := Heap.arena_of_kinds_small hk
    have hnot := mt (h.toCore.all_free_iff ha).mpr (Nat.ne_of_lt (h.busy p d n ha))
    simpa only [not_forall, exists_prop, ← ne_eq, ne_none_iff_isSome] using hnot
  | big cnt =>
    refine ⟨_, Kind.block_div (k := .big cnt) Nat.one_pos, ne_none_iff_isSome.mp fun hnone => ?_⟩
    exact (h.slots.slot hk Nat.one_pos).mpr hnone

theorem sound (h : Inv s) : Sound s where
  long b n hb := by
    obtain ⟨k, i, hk, -, -, hlen⟩ := h.placed (isSome_iff_exists.mpr ⟨n, hb⟩)
    obtain ⟨k', i', hk', -, -, hn⟩ := h.slots.alloc hb
    obtain rfl : k = k' := some.inj (hk.symm.trans hk')
    rwa [hlen]
  apart _ _ := h.apart
  header _ _ := h.header
  count p d n ha := by
    rw [h.count p d n ha]
    refine freeAt_eq_length (h.slots.nodup d) fun b hb hp => ?_
    obtain ⟨i, -, hi, hbi⟩ := h.slots.free hb
    exact ⟨i, hi, hp ▸ hbi⟩
  pages q := by
    rw [h.ranges.used_iff]
    constructor
    · rintro ⟨p, r, hr, hq⟩
      obtain ⟨k, hk, rfl⟩ := map_eq_some_iff.mp hr
      obtain ⟨b, rfl, hb⟩ := h.exists_block hk
      obtain ⟨a, ha, rfl⟩ := map_eq_some_iff.mp hk
      exact ⟨b, a, hb, ha, hq⟩
    · rintro ⟨b, a, -, ha, hq⟩
      exact ⟨b / pgSize, _, by rw [Heap.extents, Heap.kinds, ha]; rfl, hq⟩
  free d b hb := by
    obtain ⟨i, hk, -⟩ := h.slots.free hb
    exact Heap.arena_of_kinds_small hk

end Inv

end Cs162.Threads.Malloc
