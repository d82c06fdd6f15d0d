import Cs162.Threads.Malloc

namespace Cs162.Threads.Malloc
open Lib Function Option

theorem blocks_fit : ∀ d, sizeofArena + blocksPerArena d * blockSize d ≤ pgSize := by decide +kernel

theorem blockSize_pos : ∀ d, 0 < blockSize d := by decide +kernel

theorem one_lt_blocksPerArena : ∀ d, 1 < blocksPerArena d := by decide +kernel

inductive Kind
  | small (d : DescId)
  | big (cnt : ℕ)

def Arena.kind : Arena → Kind
  | ⟨some d, _⟩ => .small d
  | ⟨none, cnt⟩ => .big cnt

namespace Kind

def pages : Kind → ℕ
  | small _ => 1
  | big cnt => cnt

def slots : Kind → ℕ
  | small d => blocksPerArena d
  | big _ => 1

def len : Kind → ℕ
  | small d => blockSize d
  | big cnt => cnt * pgSize - sizeofArena

def block (k : Kind) (page i : ℕ) : ℕ := page * pgSize + sizeofArena + i * k.len

def isFree (freeList : DescId → List ℕ) (b : ℕ) : Kind → Prop
  | small d => b ∈ freeList d
  | big _ => False

variable {k : Kind} {p i j : ℕ}

theorem mul_len_lt (hi : i < k.slots) : sizeofArena + i * k.len < pgSize := by
  cases k with
  | small d =>
    have hfit := blocks_fit d
    have hmul : (i + 1) * blockSize d ≤ blocksPerArena d * blockSize d := Nat.mul_le_mul_right _ hi
    have hpos := blockSize_pos d
    rw [Nat.succ_mul] at hmul
    change sizeofArena + i * blockSize d < pgSize
    omega
  | big cnt =>
    obtain rfl : i = 0 := Nat.lt_one_iff.mp hi
    rw [Nat.zero_mul]
    decide

theorem block_div (hi : i < k.slots) : k.block p i / pgSize = p := by
  have hlt := mul_len_lt hi
  rw [block, Nat.add_assoc, Nat.add_comm, Nat.add_mul_div_right _ _ (by decide : 0 < pgSize),
    Nat.div_eq_of_lt hlt, Nat.zero_add]

theorem block_mod (hi : i < k.slots) : k.block p i % pgSize = sizeofArena + i * k.len := by
  rw [block, Nat.add_assoc, Nat.add_comm, Nat.add_mul_mod_self_right, Nat.mod_eq_of_lt (mul_len_lt hi)]

theorem len_pos (hp : 0 < k.pages) : 0 < k.len := by
  cases k with
  | small d => exact blockSize_pos d
  | big cnt =>
    change 0 < cnt * pgSize - sizeofArena
    have hp : 0 < cnt := hp
    simp only [pgSize, sizeofArena]
    omega

theorem block_inj (hp : 0 < k.pages) (h : k.block p i = k.block p j) : i = j :=
  Nat.eq_of_mul_eq_mul_right (len_pos hp) (Nat.add_left_cancel h)

theorem block_add_len_le (hp : 0 < k.pages) (hi : i < k.slots) :
    k.block p i + k.len ≤ (p + k.pages) * pgSize := by
  cases k with
  | small d =>
    have hfit := blocks_fit d
    have hmul : (i + 1) * blockSize d ≤ blocksPerArena d * blockSize d := Nat.mul_le_mul_right _ hi
    rw [Nat.succ_mul] at hmul
    change p * pgSize + sizeofArena + i * blockSize d + blockSize d ≤ (p + 1) * pgSize
    rw [Nat.succ_mul]
    omega
  | big cnt =>
    obtain rfl : i = 0 := Nat.lt_one_iff.mp hi
    have hp : 0 < cnt := hp
    change p * pgSize + sizeofArena + 0 * _ + (cnt * pgSize - sizeofArena) ≤ (p + cnt) * pgSize
    rw [Nat.add_mul, Nat.zero_mul]
    simp only [pgSize, sizeofArena]
    omega

end Kind

theorem arenaToBlock_div {d : DescId} {p i : ℕ} (hi : i < blocksPerArena d) : arenaToBlock d p i / pgSize = p :=
  Kind.block_div (k := .small d) hi

theorem arenaToBlock_inj {d : DescId} {p i j : ℕ} (h : arenaToBlock d p i = arenaToBlock d p j) : i = j :=
  Kind.block_inj (k := .small d) Nat.one_pos h

theorem bigBlock_eq (cnt p : ℕ) : p * pgSize + sizeofArena = (Kind.big cnt).block p 0 := by
  rw [Kind.block, Nat.zero_mul, Nat.add_zero]

theorem bigBlock_div (p : ℕ) : (p * pgSize + sizeofArena) / pgSize = p := by
  rw [bigBlock_eq 0]
  exact Kind.block_div Nat.one_pos

theorem ne_of_div_ne {b c p : ℕ} (hb : b / pgSize = p) (hc : c / pgSize ≠ p) : c ≠ b := by
  rintro rfl
  exact hc hb

structure Slots (kind : ℕ → Option Kind) (freeList : DescId → List ℕ) (blocks : ℕ → Option ℕ) : Prop where
  nodup : ∀ d, (freeList d).Nodup
  free : ∀ {d b}, b ∈ freeList d →
    ∃ i, kind (b / pgSize) = some (.small d) ∧ i < blocksPerArena d ∧ b = arenaToBlock d (b / pgSize) i
  alloc : ∀ {b n}, blocks b = some n →
    ∃ k i, kind (b / pgSize) = some k ∧ i < k.slots ∧ b = k.block (b / pgSize) i ∧ n ≤ k.len
  slot : ∀ {p k i}, kind p = some k → i < k.slots →
    (k.isFree freeList (k.block p i) ↔ blocks (k.block p i) = none)

namespace Slots
variable {kind kind' : ℕ → Option Kind} {freeList freeList' : DescId → List ℕ} {blocks blocks' : ℕ → Option ℕ}
  {p b n i : ℕ} {d : DescId} {k : Kind}

theorem init : Slots (fun _ => none) (fun _ => []) fun _ => none := ⟨fun _ => List.nodup_nil, nofun, nofun, nofun⟩

theorem change (h : Slots kind freeList blocks) (p : ℕ) (hkind : ∀ q, q ≠ p → kind' q = kind q)
    (hlist : ∀ d b, b / pgSize ≠ p → (b ∈ freeList' d ↔ b ∈ freeList d))
    (hblocks : ∀ b, b / pgSize ≠ p → blocks' b = blocks b) (hnodup : ∀ d, (freeList' d).Nodup)
    (hfree : ∀ d b, b ∈ freeList' d → b / pgSize = p →
      ∃ i, kind' p = some (.small d) ∧ i < blocksPerArena d ∧ b = arenaToBlock d p i)
    (halloc : ∀ b n, blocks' b = some n → b / pgSize = p →
      ∃ k i, kind' p = some k ∧ i < k.slots ∧ b = k.block p i ∧ n ≤ k.len)
    (hslot : ∀ k i, kind' p = some k → i < k.slots →
      (k.isFree freeList' (k.block p i) ↔ blocks' (k.block p i) = none)) :
    Slots kind' freeList' blocks' := by
  refine ⟨hnodup, fun {d b} hb => ?_, fun {b n} hb => ?_, fun {q k i} hq hi => ?_⟩
  · by_cases hp : b / pgSize = p
    · rw [hp]
      exact hfree d b hb hp
    · rw [hkind _ hp]
      exact h.free ((hlist d b hp).mp hb)
  · by_cases hp : b / pgSize = p
    · rw [hp]
      exact halloc b n hb hp
    · rw [hkind _ hp]
      exact h.alloc ((hblocks b hp).symm.trans hb)
  · by_cases hp : q = p
    · subst hp
      exact hslot k i hq hi
    · have hdiv : k.block q i / pgSize ≠ p := by rwa [Kind.block_div hi]
      rw [hblocks _ hdiv, ← h.slot (hkind q hp ▸ hq) hi]
      cases k with
      | small d => exact hlist d _ hdiv
      | big cnt => exact Iff.rfl

theorem blocks_eq_none (h : Slots kind freeList blocks) (hp : kind p = none) (hb : b / pgSize = p) :
    blocks b = none := by
  by_contra hne
  obtain ⟨n, hn⟩ := ne_none_iff_exists'.mp hne
  obtain ⟨k, -, hk, -⟩ := h.alloc hn
  rw [hb, hp] at hk
  exact nomatch hk

theorem not_mem_freeList (h : Slots kind freeList blocks) (hp : kind p ≠ some (.small d)) (hb : b / pgSize = p) :
    b ∉ freeList d := fun hmem => by
  obtain ⟨i, hk, -⟩ := h.free hmem
  rw [hb] at hk
  exact hp hk

theorem nodup_update (h : Slots kind freeList blocks) {l : List ℕ} (hl : l.Nodup) (d' : DescId) :
    (update freeList d l d').Nodup :=
  (Function.forall_update_iff freeList fun _ l => l.Nodup).mpr ⟨hl, fun d' _ => h.nodup d'⟩ d'

theorem mem_tail (h : Slots kind freeList blocks) {rest : List ℕ} (hl : freeList d = b :: rest) (d' : DescId)
    (c : ℕ) : c ∈ update freeList d rest d' ↔ c ≠ b ∧ c ∈ freeList d' := by
  have hnd : (b :: rest).Nodup := hl ▸ h.nodup d
  obtain ⟨-, hk, -⟩ := h.free (hl ▸ List.mem_cons_self .. : b ∈ freeList d)
  obtain rfl | hd := eq_or_ne d' d
  · rw [update_self, hl, List.mem_cons]
    constructor
    · intro hc
      exact ⟨fun heq => (List.nodup_cons.mp hnd).1 (heq ▸ hc), .inr hc⟩
    · exact fun hc => hc.2.resolve_left hc.1
  · rw [update_of_ne hd]
    refine ⟨fun hc => ⟨?_, hc⟩, fun hc => hc.2⟩
    rintro rfl
    obtain ⟨_, hk', -⟩ := h.free hc
    exact hd (Kind.small.inj (some.inj (hk'.symm.trans hk)))

theorem mem_cons (freeList : DescId → List ℕ) (d : DescId) (b : ℕ) (d' : DescId) (c : ℕ) :
    c ∈ update freeList d (b :: freeList d) d' ↔ (d' = d ∧ c = b) ∨ c ∈ freeList d' := by
  obtain rfl | hd := eq_or_ne d' d
  · simp
  · simp [hd]

theorem mem_append (freeList : DescId → List ℕ) (d : DescId) (p : ℕ) (d' : DescId) (c : ℕ) :
    c ∈ update freeList d (freeList d ++ (List.range (blocksPerArena d)).map (arenaToBlock d p)) d' ↔
      c ∈ freeList d' ∨ d' = d ∧ ∃ i, i < blocksPerArena d ∧ arenaToBlock d p i = c := by
  obtain rfl | hd := eq_or_ne d' d
  · simp
  · simp [hd]

theorem mem_foldl_erase {f : ℕ → ℕ} (is l : List ℕ) (hl : l.Nodup) :
    (is.foldl (fun l i => l.erase (f i)) l).Nodup ∧
      ∀ c, c ∈ is.foldl (fun l i => l.erase (f i)) l ↔ c ∈ l ∧ ∀ i ∈ is, c ≠ f i := by
  induction is generalizing l with
  | nil => exact ⟨hl, fun c => by simp⟩
  | cons i is ih =>
    obtain ⟨hnd, hmem⟩ := ih (l.erase (f i)) (hl.erase _)
    refine ⟨hnd, fun c => ?_⟩
    rw [List.foldl_cons, hmem, hl.mem_erase_iff]
    simp only [List.mem_cons, forall_eq_or_imp]
    tauto

theorem mem_erase (h : Slots kind freeList blocks) (hk : kind p = some (.small d)) (d' : DescId) (c : ℕ) :
    c ∈ update freeList d
        ((List.range (blocksPerArena d)).foldl (fun l i => l.erase (arenaToBlock d p i)) (freeList d)) d' ↔
      c ∈ freeList d' ∧ c / pgSize ≠ p := by
  obtain rfl | hd := eq_or_ne d' d
  · rw [update_self, (mem_foldl_erase _ _ (h.nodup d')).2]
    refine and_congr_right fun hc => ⟨fun hne hp => ?_, fun hne i hi heq => ?_⟩
    · obtain ⟨i, -, hi, hci⟩ := h.free hc
      exact hne i (List.mem_range.mpr hi) (hp ▸ hci)
    · exact hne (heq ▸ arenaToBlock_div (List.mem_range.mp hi))
  · rw [update_of_ne hd]
    refine (and_iff_left_of_imp fun hc hp => ?_).symm
    have hne : kind p ≠ some (.small d') := by
      rw [hk]
      exact fun heq => hd (Kind.small.inj (some.inj heq)).symm
    exact h.not_mem_freeList hne hp hc

theorem take (h : Slots kind freeList blocks) {rest : List ℕ} (hl : freeList d = b :: rest) (hn : n ≤ blockSize d) :
    Slots kind (update freeList d rest) (update blocks b (some n)) := by
  have hmem : b ∈ freeList d := hl ▸ List.mem_cons_self ..
  obtain ⟨j, hk, hj, hb⟩ := h.free hmem
  have hiff := h.mem_tail hl
  refine h.change (b / pgSize) (fun _ _ => rfl) (fun d' c hc => ?_) (fun c hc => ?_) ?_
    (fun d' c hc hp => ?_) (fun c m hc hp => ?_) fun k i hk' hi => ?_
  · rw [hiff]
    exact and_iff_right (ne_of_apply_ne (· / pgSize) hc)
  · exact update_of_ne (ne_of_apply_ne (· / pgSize) hc) ..
  · have hnd := h.nodup d
    rw [hl] at hnd
    exact h.nodup_update (List.nodup_cons.mp hnd).2
  · rw [← hp]
    exact h.free ((hiff d' c).mp hc).2
  · rw [update_apply] at hc
    split_ifs at hc with heq
    · obtain rfl := some.inj hc
      exact ⟨.small d, j, hk, hj, heq.trans hb, hn⟩
    · rw [← hp]
      exact h.alloc hc
  · obtain rfl : Kind.small d = k := some.inj (hk.symm.trans hk')
    rw [Kind.isFree, hiff, update_apply]
    split_ifs with heq
    · exact iff_of_false (fun hc => hc.1 heq) nofun
    · exact (and_iff_right heq).trans (h.slot hk hi)

theorem give (h : Slots kind freeList blocks) (hk : kind p = some (.small d)) (hi : i < blocksPerArena d)
    (hb : blocks (arenaToBlock d p i) ≠ none) :
    Slots kind (update freeList d (arenaToBlock d p i :: freeList d))
      (update blocks (arenaToBlock d p i) none) := by
  have hdiv : arenaToBlock d p i / pgSize = p := arenaToBlock_div hi
  have hnot : arenaToBlock d p i ∉ freeList d := fun hmem => hb ((h.slot hk hi).mp hmem)
  have hiff := mem_cons freeList d (arenaToBlock d p i)
  refine h.change p (fun _ _ => rfl) (fun d' c hc => ?_) (fun c hc => ?_) ?_
    (fun d' c hc hp => ?_) (fun c m hc hp => ?_) fun k j hk' hj => ?_
  · rw [hiff]
    exact or_iff_right fun heq => ne_of_div_ne hdiv hc heq.2
  · exact update_of_ne (ne_of_div_ne hdiv hc) ..
  · exact h.nodup_update (List.nodup_cons.mpr ⟨hnot, h.nodup d⟩)
  · obtain ⟨rfl, rfl⟩ | hold := (hiff d' c).mp hc
    · exact ⟨i, hk, hi, rfl⟩
    · rw [← hp]
      exact h.free hold
  · rw [update_apply] at hc
    split_ifs at hc with heq
    rw [← hp]
    exact h.alloc hc
  · obtain rfl : Kind.small d = k := some.inj (hk.symm.trans hk')
    rw [Kind.isFree, hiff, update_apply]
    split_ifs with heq
    · exact iff_of_true (.inl ⟨rfl, heq⟩) rfl
    · rw [or_iff_right fun hc => heq hc.2]
      exact h.slot hk hj

theorem addSmall (h : Slots kind freeList blocks) (hp : kind p = none) (d : DescId) :
    Slots (update kind p (some (.small d)))
      (update freeList d (freeList d ++ (List.range (blocksPerArena d)).map (arenaToBlock d p))) blocks := by
  have hout : ∀ d' c, c / pgSize = p → c ∉ freeList d' := fun d' c => h.not_mem_freeList (by rw [hp]; nofun)
  have hiff := mem_append freeList d p
  refine h.change p (fun q hq => update_of_ne hq ..) (fun d' c hc => ?_) (fun _ _ => rfl) ?_
    (fun d' c hc hcp => ?_) (fun c m hc hcp => ?_) fun k j hk hj => ?_
  · rw [hiff]
    refine or_iff_left ?_
    rintro ⟨-, i, hi, rfl⟩
    exact hc (arenaToBlock_div hi)
  · refine h.nodup_update (List.nodup_append'.mpr ⟨h.nodup d, ?_, fun c hc hc' => ?_⟩)
    · exact List.nodup_range.map fun _ _ heq => arenaToBlock_inj heq
    · obtain ⟨i, hi, rfl⟩ := List.mem_map.mp hc'
      exact hout d _ (arenaToBlock_div (List.mem_range.mp hi)) hc
  · obtain hold | ⟨rfl, i, hi, rfl⟩ := (hiff d' c).mp hc
    · exact absurd hold (hout d' c hcp)
    · exact ⟨i, update_self .., hi, rfl⟩
  · rw [h.blocks_eq_none hp hcp] at hc
    exact nomatch hc
  · rw [update_self] at hk
    obtain rfl := some.inj hk
    rw [h.blocks_eq_none hp (Kind.block_div hj), Kind.isFree, hiff]
    exact iff_of_true (.inr ⟨rfl, j, hj, rfl⟩) rfl

theorem addBig (h : Slots kind freeList blocks) (hp : kind p = none) {cnt : ℕ} (hn : n ≤ (Kind.big cnt).len) :
    Slots (update kind p (some (.big cnt))) freeList
      (update blocks (p * pgSize + sizeofArena) (some n)) := by
  refine h.change p (fun q hq => update_of_ne hq ..) (fun _ _ _ => Iff.rfl) (fun c hc => ?_) h.nodup
    (fun d' c hc hcp => ?_) (fun c m hc hcp => ?_) fun k j hk hj => ?_
  · exact update_of_ne (ne_of_div_ne (bigBlock_div p) hc) ..
  · exact absurd hc (h.not_mem_freeList (by rw [hp]; nofun) hcp)
  · rw [update_apply] at hc
    split_ifs at hc with heq
    · obtain rfl := some.inj hc
      exact ⟨.big cnt, 0, update_self .., Nat.one_pos, heq.trans (bigBlock_eq cnt p), hn⟩
    · rw [h.blocks_eq_none hp hcp] at hc
      exact nomatch hc
  · rw [update_self] at hk
    obtain rfl := some.inj hk
    obtain rfl : j = 0 := Nat.lt_one_iff.mp hj
    rw [← bigBlock_eq, update_self]
    exact iff_of_false id nofun

theorem dropSmall (h : Slots kind freeList blocks) (hk : kind p = some (.small d))
    (hall : ∀ i < blocksPerArena d, arenaToBlock d p i ∈ freeList d) :
    Slots (update kind p none)
      (update freeList d
        ((List.range (blocksPerArena d)).foldl (fun l i => l.erase (arenaToBlock d p i)) (freeList d))) blocks := by
  have hiff := h.mem_erase hk
  refine h.change p (fun q hq => update_of_ne hq ..) (fun d' c hc => ?_) (fun _ _ => rfl) ?_
    (fun d' c hc hcp => ?_) (fun c m hc hcp => ?_) fun k j hk' => ?_
  · rw [hiff]
    exact and_iff_left hc
  · exact h.nodup_update (mem_foldl_erase _ _ (h.nodup d)).1
  · exact absurd hcp ((hiff d' c).mp hc).2
  · obtain ⟨k, i, hk', hi, hb, -⟩ := h.alloc hc
    rw [hcp] at hk' hb
    obtain rfl : Kind.small d = k := some.inj (hk.symm.trans hk')
    have hnone := (h.slot hk hi).mp (hall i hi)
    rw [hb, hnone] at hc
    exact nomatch hc
  · rw [update_self] at hk'
    exact nomatch hk'

theorem dropBig (h : Slots kind freeList blocks) {cnt : ℕ} (hk : kind p = some (.big cnt)) :
    Slots (update kind p none) freeList (update blocks (p * pgSize + sizeofArena) none) := by
  refine h.change p (fun q hq => update_of_ne hq ..) (fun _ _ _ => Iff.rfl) (fun c hc => ?_) h.nodup
    (fun d' c hc hcp => ?_) (fun c m hc hcp => ?_) fun k j hk' => ?_
  · exact update_of_ne (ne_of_div_ne (bigBlock_div p) hc) ..
  · exact absurd hc (h.not_mem_freeList (by rw [hk]; nofun) hcp)
  · rw [update_apply] at hc
    split_ifs at hc with hne
    obtain ⟨k, i, hk', hi, hb, -⟩ := h.alloc hc
    rw [hcp] at hk' hb
    obtain rfl : Kind.big cnt = k := some.inj (hk.symm.trans hk')
    obtain rfl : i = 0 := Nat.lt_one_iff.mp hi
    exact absurd (hb.trans (bigBlock_eq cnt p).symm) hne
  · rw [update_self] at hk'
    exact nomatch hk'

end Slots

end Cs162.Threads.Malloc
