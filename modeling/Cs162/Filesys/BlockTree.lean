import Mathlib.Data.Finset.Union
import Mathlib.Data.Fintype.Card
import Cs162.Filesys.Inode
import Cs162.Lib.IndexTree

namespace Cs162.Filesys
open Lib Kernel Function

inductive Place
  | inode
  | indirect
  | dblIndirect
  | leaf (slot : IndexSlot)
  | data (i : ℕ)
deriving DecidableEq

namespace Place

def cell : Place → Option (Place × ℕ)
  | inode => none
  | indirect => some (inode, indirectBlk)
  | dblIndirect => some (inode, dblIndirectBlk)
  | leaf slot => some (dblIndirect, slot)
  | data i =>
    if i < indirectBegin then some (inode, i)
    else if i < dblIndirectBegin then some (indirect, i - indirectBegin)
    else if i < maxFileSector then
      some (leaf (indexSlot ((i - dblIndirectBegin) / blockSlots)), (i - dblIndirectBegin) % blockSlots)
    else none

def ptr (L : Layout) : Place → Bytes → ℕ → Sector
  | inode, bytes, k => (L.toInode bytes).block (blockSlot k)
  | data _, _, _ => noSector
  | _, bytes, k => L.toIndex bytes (indexSlot k)

def child : Place → ℕ → Place
  | inode, k => if k = indirectBlk then indirect else if k = dblIndirectBlk then dblIndirect else data k
  | indirect, k => data (indirectBegin + k)
  | dblIndirect, k => leaf (indexSlot k)
  | leaf slot, k => data (dblIndirectBegin + slot * blockSlots + k)
  | data _, _ => inode

theorem indexSlot_of_lt {i : ℕ} (h : i < blockSlots) : ((indexSlot i : IndexSlot) : ℕ) = i := Nat.mod_eq_of_lt h

theorem child_of_cell {c a : Place} {k : ℕ} (h : cell c = some (a, k)) : child a k = c := by
  cases c with
  | inode => cases h
  | indirect =>
    cases h
    rfl
  | dblIndirect =>
    cases h
    rfl
  | leaf slot =>
    cases h
    exact congrArg leaf (Fin.ext (indexSlot_of_lt slot.isLt))
  | data i =>
    simp only [cell] at h
    split_ifs at h with hdirect hind hmax <;> cases h
    · have hind : k ≠ (indirectBlk : ℕ) := Nat.ne_of_lt hdirect
      have hdbl : k ≠ (dblIndirectBlk : ℕ) := Nat.ne_of_lt (Nat.lt_succ_of_lt hdirect)
      rw [child, if_neg hind, if_neg hdbl]
    · exact congrArg data (by omega)
    · have hlt : (i - dblIndirectBegin) / blockSlots < blockSlots := by
        rw [Nat.div_lt_iff_lt_mul (by decide)]
        simp only [maxFileSector, dblIndirectBegin] at hmax hind ⊢
        omega
      simp only [child, indexSlot_of_lt hlt]
      have := Nat.div_add_mod (i - dblIndirectBegin) blockSlots
      exact congrArg data (by rw [Nat.mul_comm] at this; omega)

theorem cell_inj (c c' a : Place) (k : ℕ) (h : cell c = some (a, k)) (h' : cell c' = some (a, k)) : c = c' :=
  (child_of_cell h).symm.trans (child_of_cell h')

def width : Place → ℕ
  | inode => blocksNum
  | data _ => 0
  | _ => blockSlots

theorem lt_width_of_cell {c a : Place} {k : ℕ} (h : cell c = some (a, k)) : k < width a := by
  cases c with
  | inode => cases h
  | indirect =>
    cases h
    decide
  | dblIndirect =>
    cases h
    decide
  | leaf slot =>
    cases h
    exact slot.isLt
  | data i =>
    simp only [cell] at h
    split_ifs at h with hdirect hind hmax <;> cases h
    · exact Nat.lt_of_lt_of_le hdirect (by decide)
    · simp only [width, dblIndirectBegin] at hind ⊢
      omega
    · exact Nat.mod_lt _ (by decide)

theorem ne_data_of_cell {c a : Place} {k : ℕ} (h : cell c = some (a, k)) (i : ℕ) : a ≠ data i := by
  rintro rfl
  exact Nat.not_lt_zero k (lt_width_of_cell h)

theorem exists_cell {i : ℕ} (h : i < maxFileSector) : ∃ a k, cell (data i) = some (a, k) := by
  simp only [cell, h]
  split_ifs
  all_goals exact ⟨_, _, rfl⟩

theorem exists_of_slot (slot : BlockSlot) : ∃ q, cell q = some (inode, (slot : ℕ)) := by
  by_cases hdirect : slot.val < indirectBegin
  · exact ⟨data slot, by rw [cell, if_pos hdirect]⟩
  have hlt : slot.val < 125 := slot.isLt
  simp only [indirectBegin] at hdirect
  by_cases hind : slot = indirectBlk
  · exact ⟨indirect, by rw [cell, hind]⟩
  · refine ⟨dblIndirect, ?_⟩
    have hdbl : slot = dblIndirectBlk := Fin.ext (by
      have hne : slot.val ≠ 123 := fun h => hind (Fin.ext h)
      show slot.val = 124
      omega)
    rw [cell, hdbl]

def put (L : Layout) : Place → Bytes → ℕ → Sector → Bytes
  | inode, bytes, k, sector => L.ofInode ((L.toInode bytes).setBlock (blockSlot k) sector)
  | data _, bytes, _, _ => bytes
  | _, bytes, k, sector => L.ofIndex (update (L.toIndex bytes) (indexSlot k) sector)

theorem ptr_put {L : Layout} {a : Place} {bytes : Bytes} {k k' : ℕ} {sector : Sector} (hk : k < width a)
    (hk' : k' < width a) :
    ptr L a (put L a bytes k sector) k' = if k' = k then sector else ptr L a bytes k' := by
  have hmod : ∀ w, k < w → k' < w → (k' % w = k % w ↔ k' = k) := fun w h h' => by
    rw [Nat.mod_eq_of_lt h, Nat.mod_eq_of_lt h']
  cases a with
  | inode =>
    have hslot : blockSlot k' = blockSlot k ↔ k' = k := Fin.ext_iff.trans (hmod _ hk hk')
    simp only [ptr, put, L.toInode_ofInode, InodeDisk.setBlock, update_apply, hslot]
  | data => simp [width] at hk
  | indirect | dblIndirect | leaf =>
    have hslot : indexSlot k' = indexSlot k ↔ k' = k := Fin.ext_iff.trans (hmod _ hk hk')
    simp only [ptr, put, L.toIndex_ofIndex, update_apply, hslot]

theorem put_head {L : Layout} {bytes : Bytes} {k : ℕ} {sector : Sector} :
    (L.toInode (put L inode bytes k sector)).length = (L.toInode bytes).length ∧
      (L.toInode (put L inode bytes k sector)).isDir = (L.toInode bytes).isDir := by
  simp only [put, L.toInode_ofInode, InodeDisk.setBlock, and_self]

def needs (i : ℕ) : Finset Place :=
  if i < indirectBegin then {data i}
  else if i < dblIndirectBegin then {indirect, data i}
  else {dblIndirect, leaf (indexSlot ((i - dblIndirectBegin) / blockSlots)), data i}

theorem data_mem_needs {i : ℕ} : data i ∈ needs i := by
  unfold needs
  split_ifs <;> simp

def wayTo (i : ℕ) : Finset Place :=
  if i < indirectBegin then ∅
  else if i < dblIndirectBegin then {indirect}
  else {dblIndirect, leaf (indexSlot ((i - dblIndirectBegin) / blockSlots))}

theorem needs_eq (i : ℕ) : needs i = insert (data i) (wayTo i) := by
  unfold needs wayTo
  split_ifs
  · rfl
  · exact Finset.pair_comm ..
  · rw [Finset.insert_comm (data i), Finset.pair_comm (data i)]

theorem ne_data_of_mem_wayTo {i : ℕ} {p : Place} (hp : p ∈ wayTo i) (j : ℕ) : p ≠ data j := by
  unfold wayTo at hp
  rintro rfl
  split_ifs at hp <;> simp at hp

theorem direct_of_cell {i k : ℕ} (h : cell (data i) = some (inode, k)) : i < indirectBegin ∧ i = k := by
  simp only [cell] at h
  split_ifs at h with hlt <;> cases h
  exact ⟨hlt, rfl⟩

def wanted (n : ℕ) : Finset Place := (Finset.range n).biUnion needs

theorem mem_wanted {i n : ℕ} {p : Place} (hi : i < n) (hp : p ∈ needs i) : p ∈ wanted n :=
  Finset.mem_biUnion.mpr ⟨i, Finset.mem_range.mpr hi, hp⟩

theorem card_wanted_le (n : ℕ) : (wanted n).card ≤ n + blockSlots + 2 := by
  have hsub : wanted n ⊆ (Finset.range n).image data ∪ Finset.univ.image leaf ∪ {indirect, dblIndirect} := by
    intro p hp
    obtain ⟨i, hi, hp⟩ := Finset.mem_biUnion.mp hp
    unfold needs at hp
    split_ifs at hp <;> simp only [Finset.mem_insert, Finset.mem_singleton] at hp <;>
      rcases hp with rfl | rfl | rfl <;> simp [Finset.mem_range.mp hi]
  refine (Finset.card_le_card hsub).trans ((Finset.card_union_le ..).trans (Nat.add_le_add ?_ Finset.card_le_two))
  refine (Finset.card_union_le ..).trans (Nat.add_le_add (Finset.card_image_le.trans ?_) (Finset.card_image_le.trans ?_))
  · rw [Finset.card_range]
  · rw [Finset.card_fin]

theorem update_eq_some {loc : Place → Option Sector} {p q : Place} {u v : Sector} (hnone : loc p = none) :
    update loc p (some u) q = some v ↔ loc q = some v ∨ q = p ∧ v = u := by
  rw [update_apply]
  split_ifs with hq
  · subst hq
    simp [hnone, eq_comm]
  · simp [hq]

def lacking (loc : Place → Option Sector) (P : Finset Place) : ℕ := (P.filter fun p => loc p = none).card

def missing (loc : Place → Option Sector) (n : ℕ) : ℕ := ((wanted n).filter fun p => loc p = none).card

theorem lacking_eq_zero {loc : Place → Option Sector} {P : Finset Place} :
    lacking loc P = 0 ↔ ∀ p ∈ P, loc p ≠ none := by
  rw [lacking, Finset.card_eq_zero, Finset.filter_eq_empty_iff]

theorem lacking_mono {loc : Place → Option Sector} {P Q : Finset Place} (h : P ⊆ Q) : lacking loc P ≤ lacking loc Q :=
  Finset.card_le_card (Finset.filter_subset_filter _ h)

theorem lacking_union {loc loc' : Place → Option Sector} {P Q : Finset Place} (hP : ∀ p ∈ P, loc' p ≠ none)
    (hQ : ∀ p ∈ Q, p ∉ P → (loc' p = none ↔ loc p = none)) :
    lacking loc (P ∪ Q) = lacking loc P + lacking loc' Q := by
  have hsplit : ((P ∪ Q).filter fun p => loc p = none) =
      (P.filter fun p => loc p = none) ∪ Q.filter fun p => loc' p = none := by
    ext p
    simp only [Finset.mem_union, Finset.mem_filter]
    by_cases hp : p ∈ P
    · simp only [hp, true_or, true_and, hP p hp, and_false, or_false]
    · simp only [hp, false_or, false_and]
      exact and_congr_right fun hq => (hQ p hq hp).symm
  rw [lacking, hsplit, Finset.card_union_of_disjoint]
  · rfl
  · exact Finset.disjoint_left.mpr fun p hp hq => hP p (Finset.mem_filter.mp hp).1 (Finset.mem_filter.mp hq).2

theorem lacking_union_of_disjoint {loc : Place → Option Sector} {P Q : Finset Place} (h : Disjoint P Q) :
    lacking loc (P ∪ Q) = lacking loc P + lacking loc Q := by
  rw [lacking, Finset.filter_union, Finset.card_union_of_disjoint (Finset.disjoint_filter_filter h)]
  rfl

theorem lacking_singleton (loc : Place → Option Sector) (p : Place) :
    lacking loc {p} = if loc p = none then 1 else 0 := by
  rw [lacking, Finset.filter_singleton]
  split_ifs
  · exact Finset.card_singleton p
  · exact Finset.card_empty

theorem missing_update {loc : Place → Option Sector} {n : ℕ} {p : Place} {u : Sector} (hp : p ∈ wanted n)
    (hnone : loc p = none) : missing (update loc p (some u)) n + 1 = missing loc n := by
  have herase : ((wanted n).filter fun q => update loc p (some u) q = none) =
      ((wanted n).filter fun q => loc q = none).erase p := by
    ext q
    simp only [Finset.mem_filter, Finset.mem_erase, update_apply]
    by_cases hq : q = p <;> simp [hq]
  unfold missing
  rw [herase]
  exact Finset.card_erase_add_one (Finset.mem_filter.mpr ⟨hp, hnone⟩)

end Place

def blockTree (L : Layout) : IndexTree Place Sector Bytes ℕ := ⟨Place.cell, Place.ptr L, Place.cell_inj⟩

def blank (n : ℕ) : Place → Sector
  | .data i => if i < n then 0 else noSector
  | _ => noSector

theorem update_blank (n : ℕ) : update (blank n) (.data n) 0 = blank (n + 1) := by
  funext p
  by_cases hp : p = .data n
  · subst hp
    rw [update_self, blank, if_pos (Nat.lt_succ_self n)]
  rw [update_of_ne hp]
  cases p with
  | data i =>
    have hi : i ≠ n := fun h => hp (congrArg Place.data h)
    have : i < n ↔ i < n + 1 := by omega
    simp only [blank, this]
  | _ => rfl

namespace Store

structure Sized (s : Store) : Prop where
  zero : s.freeMap.bits 0 = true
  size : s.freeMap.bitCnt < 2 ^ 32

structure Blocks (L : Layout) (s : Store) (inode : Sector) (loc : Place → Option Sector) (m n : ℕ) : Prop where
  root : loc .inode = some inode
  linked : (blockTree L).Linked s.cache loc (blank n)
  data : ∀ i, loc (.data i) ≠ none ↔ i < m
  le : m ≤ n
  bound : n ≤ maxFileSector
  opened : ∀ i a k, i < n → Place.cell (.data i) = some (a, k) → loc a ≠ none
  used : ∀ p t, loc p = some t → s.freeMap.bits t = true
  valid : ∀ p t, p ≠ .inode → loc p = some t → t ≠ 0 ∧ t ≠ noSector

structure Sparse (L : Layout) (s : Store) (inode : Sector) (loc : Place → Option Sector) (n : ℕ) : Prop where
  root : loc .inode = some inode
  linked : (blockTree L).Linked s.cache loc (blank n)
  data : ∀ i, loc (.data i) ≠ none → i < n
  bound : n ≤ maxFileSector
  opened : ∀ i a k, i < n → Place.cell (.data i) = some (a, k) → loc a ≠ none
  used : ∀ p t, loc p = some t → s.freeMap.bits t = true
  valid : ∀ p t, p ≠ .inode → loc p = some t → t ≠ 0 ∧ t ≠ noSector

structure Mapped (L : Layout) (s : Store) (inode : Sector) (loc : Place → Option Sector) (b : Place → Sector) :
    Prop where
  root : loc .inode = some inode
  linked : (blockTree L).Linked s.cache loc b
  blank : ∀ p, b p = noSector ∨ b p = 0 ∧ ∃ i, p = .data i
  bound : ∀ i, loc (.data i) ≠ none → i < maxFileSector
  used : ∀ p t, loc p = some t → s.freeMap.bits t = true
  valid : ∀ p t, p ≠ .inode → loc p = some t → t ≠ 0 ∧ t ≠ noSector

structure Grows (s s' : Store) (loc loc' : Place → Option Sector) : Prop where
  keep : ∀ p t, loc p = some t → loc' p = some t
  fresh : ∀ p t, loc p = none → loc' p = some t → s.freeMap.bits t = false
  used : ∀ t : Sector, s'.freeMap.bits t = true ↔
    s.freeMap.bits t = true ∨ ∃ p, loc p = none ∧ loc' p = some t
  bitCnt : s'.freeMap.bitCnt = s.freeMap.bitCnt
  frame : ∀ t, (∀ p, loc' p ≠ some t) → s'.cache t = s.cache t

structure Extends (L : Layout) (inode : Sector) (s s' : Store) (loc loc' : Place → Option Sector) : Prop
    extends Grows s s' loc loc' where
  data : ∀ i t, loc (.data i) = some t → s'.cache t = s.cache t
  zero : ∀ i t, loc (.data i) = none → loc' (.data i) = some t → s'.cache t = zeros
  length : (L.toInode (s'.cache inode)).length = (L.toInode (s.cache inode)).length
  isDir : (L.toInode (s'.cache inode)).isDir = (L.toInode (s.cache inode)).isDir

variable {L : Layout} {s s' s'' : Store} {inode : Sector} {loc loc' loc'' : Place → Option Sector} {m n : ℕ}

namespace Grows

theorem refl : Grows s s loc loc :=
  ⟨fun _ _ h => h, fun _ _ hn hs => absurd (hn.symm.trans hs) nofun,
    fun _ => ⟨.inl, fun h => h.elim id fun ⟨_, hn, hs⟩ => absurd (hn.symm.trans hs) nofun⟩, rfl, fun _ _ => rfl⟩

theorem trans (h : Grows s s' loc loc') (h' : Grows s' s'' loc' loc'') : Grows s s'' loc loc'' := by
  have hnew : ∀ p t, loc p = none → loc'' p = some t →
      (loc' p = none ∧ loc'' p = some t) ∨ (loc p = none ∧ loc' p = some t) := fun p t hn hs => by
    rcases hl : loc' p with _ | u
    · exact .inl ⟨rfl, hs⟩
    · exact .inr ⟨hn, by rw [← Option.some.inj ((h'.keep p u hl).symm.trans hs)]⟩
  refine ⟨fun p t hp => h'.keep p t (h.keep p t hp), fun p t hn hs => ?_, fun t => ?_,
    h'.bitCnt.trans h.bitCnt, fun t ht => ?_⟩
  · obtain ⟨hn', hs'⟩ | ⟨hn', hs'⟩ := hnew p t hn hs
    · have := h'.fresh p t hn' hs'
      rw [← Bool.not_eq_true, h.used] at this
      exact Bool.not_eq_true _ ▸ fun hbit => this (.inl hbit)
    · exact h.fresh p t hn' hs'
  · rw [h'.used, h.used]
    constructor
    · rintro ((hbit | ⟨p, hn, hs⟩) | ⟨p, hn, hs⟩)
      · exact .inl hbit
      · exact .inr ⟨p, hn, h'.keep p t hs⟩
      · refine .inr ⟨p, ?_, hs⟩
        rcases hl : loc p with _ | u
        · rfl
        · exact absurd (hn.symm.trans (h.keep p u hl)) nofun
    · rintro (hbit | ⟨p, hn, hs⟩)
      · exact .inl (.inl hbit)
      · obtain hnew | hnew := hnew p t hn hs
        · exact .inr ⟨p, hnew⟩
        · exact .inl (.inr ⟨p, hnew⟩)
  · rw [h'.frame t ht, h.frame t fun p hp => ht p (h'.keep p t hp)]

theorem sized (h : Grows s s' loc loc') (hs : s.Sized) : s'.Sized :=
  ⟨(h.used 0).mpr (.inl hs.zero), h.bitCnt ▸ hs.size⟩

end Grows

namespace Extends

theorem refl : Extends L inode s s loc loc :=
  ⟨.refl, fun _ _ _ => rfl, fun _ _ hn hs => absurd (hn.symm.trans hs) nofun, rfl, rfl⟩

theorem trans (h : Extends L inode s s' loc loc') (h' : Extends L inode s' s'' loc' loc'') :
    Extends L inode s s'' loc loc'' := by
  refine ⟨h.toGrows.trans h'.toGrows, fun i t hi => ?_, fun i t hn hs => ?_, h'.length.trans h.length,
    h'.isDir.trans h.isDir⟩
  · rw [h'.data i t (h.keep _ t hi), h.data i t hi]
  · rcases hl : loc' (.data i) with _ | u
    · exact h'.zero i t hl hs
    · obtain rfl := Option.some.inj ((h'.keep _ u hl).symm.trans hs)
      rw [h'.data i u hl, h.zero i u hn hl]

end Extends

theorem freeMapAllocate_eq (hs : s.Sized) (hf : 0 < s.freeMap.freeCount) :
    ∃ u : Sector, s.freeMapAllocate = some (u, { s with freeMap := s.freeMap.setMultiple u 1 true }) ∧
      s.freeMap.bits u = false ∧ (u : ℕ) < s.freeMap.bitCnt ∧ u ≠ 0 ∧ u ≠ noSector := by
  obtain ⟨i, hscan, hi, hbit⟩ := Bitmap.exists_scanAndFlip hf
  have hlt : i < 2 ^ 32 := Nat.lt_trans hi hs.size
  have hval : ((Fin.ofNat (2 ^ 32) i : Sector) : ℕ) = i := Nat.mod_eq_of_lt hlt
  refine ⟨Fin.ofNat _ i, ?_, by rwa [hval], by rwa [hval], fun h0 => ?_, fun hno => ?_⟩
  · rw [freeMapAllocate, hscan, hval]
    rfl
  · have : i = 0 := by rw [← hval, h0]; rfl
    rw [this, hs.zero] at hbit
    cases hbit
  · have hlast : i = 2 ^ 32 - 1 := by rw [← hval, hno]; rfl
    have := hs.size
    omega

theorem freeMapAllocate_eq_none (h : s.freeMap.freeCount = 0) : s.freeMapAllocate = none := by
  rw [freeMapAllocate, Option.map_eq_none_iff, Bitmap.scanAndFlip, Option.map_eq_none_iff]
  by_contra hsome
  obtain ⟨i, hi⟩ := Option.ne_none_iff_exists'.mp hsome
  obtain ⟨-, hlt, hbit⟩ := Bitmap.scan_eq_some hi
  have hmem : i ∈ (Finset.range s.freeMap.bitCnt).filter fun i => s.freeMap.bits i = false :=
    Finset.mem_filter.mpr ⟨Finset.mem_range.mpr hlt, hbit 0 Nat.one_pos⟩
  exact absurd (Finset.card_pos.mpr ⟨i, hmem⟩) (h ▸ Nat.lt_irrefl 0)

def Enough (s : Store) (loc : Place → Option Sector) (n : ℕ) : Prop := Place.missing loc n ≤ s.freeMap.freeCount

def give (s : Store) (t u : Sector) (d e : Bytes) : Store where
  cache := update (update s.cache u e) t d
  disk := s.disk
  freeMap := s.freeMap.setMultiple u 1 true

section
variable {t u v : Sector} {d e : Bytes}

@[simp] theorem cache_write_self : (s.cacheBlockWrite t d).cache t = d := update_self ..

theorem cache_write_of_ne (h : v ≠ t) : (s.cacheBlockWrite t d).cache v = s.cache v := update_of_ne h ..

theorem Sized.write (h : s.Sized) : (s.cacheBlockWrite t d).Sized := ⟨h.zero, h.size⟩

@[simp] theorem cache_give_self : (s.give t u d e).cache t = d := update_self ..

theorem cache_give_new (h : u ≠ t) : (s.give t u d e).cache u = e :=
  (update_of_ne h ..).trans (update_self ..)

theorem cache_give_of_ne (ht : v ≠ t) (hu : v ≠ u) : (s.give t u d e).cache v = s.cache v :=
  (update_of_ne ht ..).trans (update_of_ne hu ..)

theorem give_write (h : u ≠ t) (bytes : Bytes) :
    (({ s with freeMap := s.freeMap.setMultiple u 1 true } : Store).cacheBlockWrite t d).cacheBlockWrite u bytes =
      (s.give t u d e).cacheBlockWrite u bytes := by
  simp only [cacheBlockWrite, give, update_comm h, update_idem]

theorem bits_give : (s.give t u d e).freeMap.bits v = true ↔ s.freeMap.bits v = true ∨ v = u := by
  rw [give, Bitmap.bits_setMultiple_one]
  split_ifs with h
  · simp [Fin.ext h]
  · exact ⟨.inl, fun hor => hor.resolve_right fun hvu => h (congrArg _ hvu)⟩

theorem Grows.write {p : Place} (h : loc p = some t) : Grows s (s.cacheBlockWrite t d) loc loc :=
  ⟨fun _ _ h => h, fun _ _ hn hs => absurd (hn.symm.trans hs) nofun,
    fun _ => ⟨.inl, fun h => h.elim id fun ⟨_, hn, hs⟩ => absurd (hn.symm.trans hs) nofun⟩, rfl,
    fun _ hv => cache_write_of_ne fun hvt => hv p (h.trans (congrArg some hvt.symm))⟩

theorem Extends.cacheFlush : Extends L inode s (s.cacheFlush t) loc loc :=
  ⟨⟨fun _ _ h => h, (Grows.refl (s := s)).fresh, (Grows.refl (s := s)).used, rfl, fun _ _ => rfl⟩,
    fun _ _ _ => rfl, fun _ _ hn hs => absurd (hn.symm.trans hs) nofun, rfl, rfl⟩

end

theorem Enough.free {p : Place} (h : s.Enough loc n) (hp : p ∈ Place.wanted n) (hnone : loc p = none) :
    0 < s.freeMap.freeCount := by
  have := Place.missing_update (u := 0) hp hnone
  have : Place.missing loc n ≤ s.freeMap.freeCount := h
  omega

theorem Enough.give {p : Place} {t u : Sector} {d e : Bytes} (h : s.Enough loc n) (hp : p ∈ Place.wanted n)
    (hnone : loc p = none) (hlt : (u : ℕ) < s.freeMap.bitCnt) (hbit : s.freeMap.bits u = false) :
    (s.give t u d e).Enough (update loc p (some u)) n := by
  have hmissing := Place.missing_update (u := u) hp hnone
  have hfree := Bitmap.freeCount_setMultiple hlt hbit
  have : Place.missing loc n ≤ s.freeMap.freeCount := h
  change Place.missing _ n ≤ (s.freeMap.setMultiple u 1 true).freeCount
  omega

def newBlock (L : Layout) : Place → Bytes
  | .data _ => zeros
  | _ => L.ofIndex noSectors

namespace Mapped
variable {b : Place → Sector} {a p : Place} {k : ℕ} {t u : Sector}

theorem ptr_eq (h : Mapped L s inode loc b) (hc : Place.cell p = some (a, k)) (ha : loc a = some t) :
    Place.ptr L a (s.cache t) k = (loc p).getD (b p) := h.linked.ptr p a k t hc ha

theorem up (h : Mapped L s inode loc b) (hc : Place.cell p = some (a, k)) (ht : loc p = some t) : loc a ≠ none :=
  h.linked.up p a k t hc ht

theorem ne_inode (h : Mapped L s inode loc b) (hp : p ≠ .inode) (ht : loc p = some t) : t ≠ inode :=
  fun hti => hp (h.linked.inj _ _ _ ht (hti.symm ▸ h.root))

theorem frame (h : Mapped L s inode loc b) (hcache : ∀ p t, loc p = some t → s'.cache t = s.cache t)
    (hused : ∀ p t, loc p = some t → s'.freeMap.bits t = true) : Mapped L s' inode loc b :=
  ⟨h.root, h.linked.congr hcache fun _ _ => rfl, h.blank, h.bound, hused, h.valid⟩

theorem ne_of_fresh (h : Mapped L s inode loc b) (hbit : s.freeMap.bits u = false) (q : Place) :
    loc q ≠ some u := fun hq => by
  rw [h.used q u hq] at hbit
  cases hbit

theorem give_extends (h : Mapped L s inode loc b) (hc : Place.cell p = some (a, k)) (ha : loc a = some t)
    (hnone : loc p = none) (hbit : s.freeMap.bits u = false) :
    Extends L inode s (s.give t u (Place.put L a (s.cache t) k u) (newBlock L p)) loc
      (update loc p (some u)) := by
  have hfresh := h.ne_of_fresh hbit
  have hut : u ≠ t := fun hut => hfresh a (hut ▸ ha)
  have hhead : (L.toInode ((s.give t u (Place.put L a (s.cache t) k u) (newBlock L p)).cache inode)).length =
        (L.toInode (s.cache inode)).length ∧
      (L.toInode ((s.give t u (Place.put L a (s.cache t) k u) (newBlock L p)).cache inode)).isDir =
        (L.toInode (s.cache inode)).isDir := by
    by_cases ht : inode = t
    · subst ht
      obtain rfl := h.linked.inj _ _ _ h.root ha
      rw [cache_give_self]
      exact Place.put_head
    · rw [cache_give_of_ne ht fun hu => hfresh .inode (h.root.trans (congrArg some hu))]
      exact ⟨rfl, rfl⟩
  have hnew : ∀ q v, loc q = none → update loc p (some u) q = some v → q = p ∧ v = u := fun q v hn hs =>
    ((Place.update_eq_some hnone).mp hs).resolve_left fun hq => absurd (hn.symm.trans hq) nofun
  refine ⟨⟨fun q v hq => (Place.update_eq_some hnone).mpr (.inl hq), fun q v hn hs => ?_, fun v => ?_, rfl,
    fun v hv => ?_⟩, fun i v hi => ?_, fun i v hn hs => ?_, hhead.1, hhead.2⟩
  · exact (hnew q v hn hs).2 ▸ hbit
  · rw [bits_give]
    refine or_congr_right ⟨?_, fun ⟨q, hn, hs⟩ => (hnew q v hn hs).2⟩
    rintro rfl
    exact ⟨p, hnone, update_self p _ loc⟩
  · refine cache_give_of_ne ?_ ?_
    · rintro rfl
      exact hv a ((Place.update_eq_some hnone).mpr (.inl ha))
    · rintro rfl
      exact hv p (update_self p _ loc)
  · refine cache_give_of_ne ?_ (fun hu => hfresh _ (hu ▸ hi))
    rintro rfl
    exact Place.ne_data_of_cell hc i (h.linked.inj _ _ _ ha hi)
  · obtain ⟨hp, rfl⟩ := hnew _ v hn hs
    rw [cache_give_new hut, ← hp]
    rfl

theorem give_linked (h : Mapped L s inode loc b) (hc : Place.cell p = some (a, k)) (ha : loc a = some t)
    (hnone : loc p = none) (hbit : s.freeMap.bits u = false)
    (hchild : ∀ c' k', Place.cell c' = some (p, k') → b c' = noSector) :
    (blockTree L).Linked (s.give t u (Place.put L a (s.cache t) k u) (newBlock L p)).cache
      (update loc p (some u)) b := by
  have hk := Place.lt_width_of_cell hc
  refine h.linked.alloc hc ha hnone (h.ne_of_fresh hbit) ?_ (fun c' k' hc' hne => ?_) fun c' k' hc' => ?_
  · change Place.ptr L a _ k = u
    rw [Place.ptr_put hk hk, if_pos rfl]
  · change Place.ptr L a _ k' = _
    rw [Place.ptr_put hk (Place.lt_width_of_cell hc'), if_neg hne]
    rfl
  · -- a new index block points nowhere
    rw [hchild c' k' hc']
    change Place.ptr L p (newBlock L p) k' = _
    cases p with
    | inode => exact absurd (h.root.symm.trans hnone) nofun
    | data i => rfl
    | _ => simp only [newBlock, Place.ptr, L.toIndex_ofIndex, noSectors]

theorem give_used (h : Mapped L s inode loc b) {d e : Bytes} (hnone : loc p = none) (q : Place) (v : Sector)
    (hq : update loc p (some u) q = some v) : (s.give t u d e).freeMap.bits v = true := by
  rw [bits_give]
  exact ((Place.update_eq_some hnone).mp hq).imp (h.used q v) And.right

theorem give_valid (h : Mapped L s inode loc b) (hnone : loc p = none) (hu : u ≠ 0 ∧ u ≠ noSector) (q : Place)
    (v : Sector) (hne : q ≠ .inode) (hq : update loc p (some u) q = some v) : v ≠ 0 ∧ v ≠ noSector := by
  obtain hq | ⟨-, rfl⟩ := (Place.update_eq_some hnone).mp hq
  · exact h.valid q v hne hq
  · exact hu

theorem giveData (h : Mapped L s inode loc b) {i : ℕ} (hlt : i < maxFileSector)
    (hc : Place.cell (.data i) = some (a, k)) (ha : loc a = some t) (hnone : loc (.data i) = none)
    (hbit : s.freeMap.bits u = false) (hu : u ≠ 0 ∧ u ≠ noSector) :
    Mapped L (s.give t u (Place.put L a (s.cache t) k u) (newBlock L (.data i))) inode
      (update loc (.data i) (some u)) b := by
  refine ⟨(Place.update_eq_some hnone).mpr (.inl h.root), h.give_linked hc ha hnone hbit fun c' k' hc' => ?_,
    h.blank, fun j hj => ?_, h.give_used hnone, h.give_valid hnone hu⟩
  · exact absurd rfl (Place.ne_data_of_cell hc' i)
  · rw [update_apply] at hj
    split_ifs at hj with hij
    · exact Place.data.inj hij ▸ hlt
    · exact h.bound j hj

theorem mark_linked (h : Mapped L s inode loc b) (hc : Place.cell p = some (a, k)) (ha : loc a = some t)
    (hnone : loc p = none) (v : Sector) :
    (blockTree L).Linked (s.cacheBlockWrite t (Place.put L a (s.cache t) k v)).cache loc (update b p v) := by
  have hk := Place.lt_width_of_cell hc
  have hcell : (blockTree L).cell p = some (a, k) := hc
  exact h.linked.mark (d := Place.put L a (s.cache t) k v) hcell ha hnone
    ((Place.ptr_put hk hk).trans (if_pos rfl)) fun c' k' hc' hne =>
      (Place.ptr_put hk (Place.lt_width_of_cell hc')).trans (if_neg hne)

theorem put_extends (h : Mapped L s inode loc b) (hc : Place.cell p = some (a, k)) (ha : loc a = some t) (v : Sector) :
    Extends L inode s (s.cacheBlockWrite t (Place.put L a (s.cache t) k v)) loc loc := by
  refine ⟨.write ha, fun i u hi => cache_write_of_ne ?_,
    fun i u hn hs => absurd (hs.symm.trans hn) (Option.some_ne_none u), ?_, ?_⟩
  · rintro rfl
    exact Place.ne_data_of_cell hc i (h.linked.inj _ _ _ ha hi)
  all_goals
    by_cases ht : inode = t
    · subst ht
      obtain rfl := h.linked.inj _ _ _ h.root ha
      rw [cache_write_self]
      first | exact Place.put_head.1 | exact Place.put_head.2
    · rw [cache_write_of_ne ht]

end Mapped

namespace Sparse
variable {a p : Place} {k : ℕ} {t u : Sector}

theorem data_none (h : Sparse L s inode loc n) {i : ℕ} (hi : n ≤ i) : loc (.data i) = none := by
  by_contra hsome
  exact Nat.not_lt.mpr hi (h.data i hsome)

theorem mapped (h : Sparse L s inode loc n) : Mapped L s inode loc (blank n) := by
  refine ⟨h.root, h.linked, fun p => ?_, fun i hi => Nat.lt_of_lt_of_le (h.data i hi) h.bound, h.used, h.valid⟩
  cases p with
  | data i =>
    rw [blank]
    split_ifs
    · exact .inr ⟨rfl, i, rfl⟩
    · exact .inl rfl
  | _ => exact .inl rfl

theorem ne_of_fresh (h : Sparse L s inode loc n) (hbit : s.freeMap.bits u = false) (q : Place) :
    loc q ≠ some u := h.mapped.ne_of_fresh hbit q

theorem give_extends (h : Sparse L s inode loc n) (hc : Place.cell p = some (a, k)) (ha : loc a = some t)
    (hnone : loc p = none) (hbit : s.freeMap.bits u = false) :
    Extends L inode s (s.give t u (Place.put L a (s.cache t) k u) (newBlock L p)) loc
      (update loc p (some u)) := h.mapped.give_extends hc ha hnone hbit

theorem give_linked (h : Sparse L s inode loc n) (hc : Place.cell p = some (a, k)) (ha : loc a = some t)
    (hnone : loc p = none) (hbit : s.freeMap.bits u = false) :
    (blockTree L).Linked (s.give t u (Place.put L a (s.cache t) k u) (newBlock L p)).cache
      (update loc p (some u)) (blank n) := by
  refine h.mapped.give_linked hc ha hnone hbit fun c' k' hc' => ?_
  cases c' with
  | data i => exact if_neg fun hi => h.opened i p k' hi hc' hnone
  | _ => rfl

theorem give_opened (h : Sparse L s inode loc n) {i : ℕ} (hi : i < n) {b : Place} {k' : ℕ}
    (hb : Place.cell (.data i) = some (b, k')) : update loc p (some u) b ≠ none := by
  rw [update_apply]
  split_ifs
  · exact Option.some_ne_none u
  · exact h.opened i b k' hi hb

theorem giveData (h : Sparse L s inode loc n) {i : ℕ} (hlt : i < n) (hc : Place.cell (.data i) = some (a, k))
    (ha : loc a = some t) (hnone : loc (.data i) = none) (hbit : s.freeMap.bits u = false)
    (hu : u ≠ 0 ∧ u ≠ noSector) :
    Sparse L (s.give t u (Place.put L a (s.cache t) k u) (newBlock L (.data i))) inode
      (update loc (.data i) (some u)) n := by
  refine ⟨(Place.update_eq_some hnone).mpr (.inl h.root), h.give_linked hc ha hnone hbit, fun j hj => ?_, h.bound,
    fun i b k' hi hb => h.give_opened hi hb, h.mapped.give_used hnone, h.mapped.give_valid hnone hu⟩
  rw [update_apply] at hj
  split_ifs at hj with hij
  · exact Place.data.inj hij ▸ hlt
  · exact h.data j hj

theorem ptr_eq (h : Sparse L s inode loc n) (hc : Place.cell p = some (a, k)) (ha : loc a = some t) :
    Place.ptr L a (s.cache t) k = (loc p).getD (blank n p) := h.mapped.ptr_eq hc ha

theorem up (h : Sparse L s inode loc n) (hc : Place.cell p = some (a, k)) (ht : loc p = some t) : loc a ≠ none :=
  h.mapped.up hc ht

theorem frame (h : Sparse L s inode loc n) (hcache : ∀ p t, loc p = some t → s'.cache t = s.cache t)
    (hused : ∀ p t, loc p = some t → s'.freeMap.bits t = true) : Sparse L s' inode loc n :=
  ⟨h.root, h.linked.congr hcache fun _ _ => rfl, h.data, h.bound, h.opened, hused, h.valid⟩

theorem ne_inode (h : Sparse L s inode loc n) (hp : p ≠ .inode) (ht : loc p = some t) : t ≠ inode :=
  h.mapped.ne_inode hp ht

theorem writeData (h : Sparse L s inode loc n) {i : ℕ} (ht : loc (.data i) = some t) (d : Bytes) :
    Sparse L (s.cacheBlockWrite t d) inode loc n :=
  ⟨h.root, h.linked.rewrite ht fun _ _ hc => absurd rfl (Place.ne_data_of_cell hc i), h.data, h.bound, h.opened,
    h.used, h.valid⟩

theorem writeInode (h : Sparse L s inode loc n) {d : InodeDisk}
    (hd : d.block = (L.toInode (s.cache inode)).block) :
    Sparse L (s.cacheBlockWrite inode (L.ofInode d)) inode loc n := by
  refine ⟨h.root, h.linked.rewrite h.root fun c k _ => ?_, h.data, h.bound, h.opened, h.used, h.valid⟩
  simp only [blockTree, Place.ptr, L.toInode_ofInode, hd]

theorem blocks (h : Sparse L s inode loc n) (hdata : ∀ i, loc (.data i) ≠ none ↔ i < m) (hle : m ≤ n) :
    Blocks L s inode loc m n := ⟨h.root, h.linked, hdata, hle, h.bound, h.opened, h.used, h.valid⟩

end Sparse

namespace Blocks

theorem sparse (h : Blocks L s inode loc m n) : Sparse L s inode loc n :=
  ⟨h.root, h.linked, fun i hi => Nat.lt_of_lt_of_le ((h.data i).mp hi) h.le, h.bound, h.opened, h.used, h.valid⟩

theorem data_none (h : Blocks L s inode loc m n) {i : ℕ} (hi : m ≤ i) : loc (.data i) = none := by
  by_contra hsome
  exact Nat.not_lt.mpr hi ((h.data i).mp hsome)

end Blocks
end Store
end Cs162.Filesys
