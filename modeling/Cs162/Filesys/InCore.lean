import Cs162.Filesys.BlockTree

namespace Cs162.Filesys.Store
open Lib Kernel Function Option

variable {L : Layout} {s s' : Store} {inode : Sector} {loc loc' : Place → Option Sector} {b : Place → Sector}

namespace Mapped
variable {a p : Place} {k : ℕ} {t u : Sector}

theorem blank_index (h : Mapped L s inode loc b) (hp : ∀ i, p ≠ .data i) : b p = noSector :=
  (h.blank p).resolve_right fun ⟨_, i, hi⟩ => hp i hi

theorem indirect_eq (h : Mapped L s inode loc b) :
    (L.toInode (s.cache inode)).block indirectBlk = (loc .indirect).getD noSector := by
  have hptr := h.ptr_eq (p := .indirect) rfl h.root
  rwa [h.blank_index fun _ => Place.noConfusion] at hptr

theorem dblIndirect_eq (h : Mapped L s inode loc b) :
    (L.toInode (s.cache inode)).block dblIndirectBlk = (loc .dblIndirect).getD noSector := by
  have hptr := h.ptr_eq (p := .dblIndirect) rfl h.root
  rwa [h.blank_index fun _ => Place.noConfusion] at hptr

theorem leaf_eq (h : Mapped L s inode loc b) (ht : loc .dblIndirect = some t) (slot : IndexSlot) :
    L.toIndex (s.cache t) slot = (loc (.leaf slot)).getD noSector := by
  have hslot : indexSlot slot = slot := Fin.ext (Place.indexSlot_of_lt slot.isLt)
  have hptr : L.toIndex (s.cache t) (indexSlot slot) = _ := h.ptr_eq (p := .leaf slot) rfl ht
  rwa [hslot, h.blank_index fun _ => Place.noConfusion] at hptr

theorem getD_eq_noSector (h : Mapped L s inode loc b) (hp : p ≠ .inode) :
    (loc p).getD noSector = noSector ↔ loc p = none := by
  rcases hl : loc p with _ | t
  · simp
  · simpa using (h.valid p t hp hl).2

theorem byteToSector_eq (h : Mapped L s inode loc b) {pos : ℕ}
    (hc : Place.cell (.data (pos / blockSectorSize)) = some (a, k)) :
    s.byteToSector L inode pos =
      match loc a with
      | none => (noSector, s)
      | some t =>
        if Place.ptr L a (s.cache t) k = 0 then s.fillHole t (Place.put L a (s.cache t) k)
        else (Place.ptr L a (s.cache t) k, s) := by
  simp only [Place.cell] at hc
  split_ifs at hc with hdirect hind hmax <;> cases hc
  · rw [byteToSector, if_pos hdirect, h.root]
    rfl
  · rw [byteToSector, if_neg hdirect, if_pos hind]
    simp only [h.indirect_eq, h.getD_eq_noSector (p := .indirect) Place.noConfusion]
    rcases hl : loc .indirect with _ | t
    · rfl
    · rfl
  · rw [byteToSector, if_neg hdirect, if_neg hind, if_pos hmax]
    simp only [h.dblIndirect_eq, h.getD_eq_noSector (p := .dblIndirect) Place.noConfusion]
    rcases hl : loc .dblIndirect with _ | t
    · rcases hleaf : loc (.leaf (indexSlot ((pos / blockSectorSize - dblIndirectBegin) / blockSlots))) with _ | u
      · rfl
      · exact absurd hl (h.up (p := .leaf _) rfl hleaf)
    · simp only [getD_some, h.leaf_eq hl]
      rcases hleaf : loc (.leaf (indexSlot ((pos / blockSectorSize - dblIndirectBegin) / blockSlots))) with _ | u
      · rfl
      · exact (if_neg (some_ne_none t)).trans (if_neg (h.valid _ u Place.noConfusion hleaf).2)

theorem byteToSector_located (h : Mapped L s inode loc b) {pos : ℕ}
    (ht : loc (.data (pos / blockSectorSize)) = some t) : s.byteToSector L inode pos = (t, s) := by
  obtain ⟨a, k, hc⟩ := Place.exists_cell (h.bound _ (ht ▸ some_ne_none t))
  obtain ⟨v, hv⟩ := ne_none_iff_exists'.mp (h.up hc ht)
  have hptr : Place.ptr L a (s.cache v) k = t := by rw [h.ptr_eq hc hv, ht, getD_some]
  rw [h.byteToSector_eq hc, hv]
  simp only [hptr, if_neg (h.valid _ t Place.noConfusion ht).1]

theorem byteToSector_missing (h : Mapped L s inode loc b) {pos : ℕ}
    (hnone : loc (.data (pos / blockSectorSize)) = none) (hb : b (.data (pos / blockSectorSize)) = noSector) :
    s.byteToSector L inode pos = (noSector, s) := by
  by_cases hmax : pos / blockSectorSize < maxFileSector
  · obtain ⟨a, k, hc⟩ := Place.exists_cell hmax
    rw [h.byteToSector_eq hc]
    rcases hv : loc a with _ | v
    · rfl
    · have hptr : Place.ptr L a (s.cache v) k = noSector := by rw [h.ptr_eq hc hv, hnone, getD_none, hb]
      simp only [hptr]
      exact if_neg (by decide)
  · have hind : ¬pos / blockSectorSize < dblIndirectBegin := fun hlt => hmax (hlt.trans (by decide))
    have hdirect : ¬pos / blockSectorSize < indirectBegin := fun hlt => hmax (hlt.trans (by decide))
    rw [byteToSector, if_neg hdirect, if_neg hind, if_neg hmax]

theorem giveIndex (h : Mapped L s inode loc b) (hc : Place.cell p = some (a, k)) (ha : loc a = some t)
    (hnone : loc p = none) (hdata : ∀ i, p ≠ .data i) (hbit : s.freeMap.bits u = false) (hu : u ≠ 0 ∧ u ≠ noSector)
    (hchild : ∀ c' k', Place.cell c' = some (p, k') → b c' = noSector) :
    Mapped L (s.give t u (Place.put L a (s.cache t) k u) (newBlock L p)) inode (update loc p (some u)) b where
  root := (Place.update_eq_some hnone).mpr (.inl h.root)
  linked := h.give_linked hc ha hnone hbit hchild
  blank := h.blank
  bound i hi := h.bound i (by rwa [update_of_ne (hdata i).symm] at hi)
  used := h.give_used hnone
  valid := h.give_valid hnone hu

theorem mark (h : Mapped L s inode loc b) {i : ℕ} (hc : Place.cell (.data i) = some (a, k)) (ha : loc a = some t)
    (hnone : loc (.data i) = none) {v : Sector} (hv : v = noSector ∨ v = 0) :
    Mapped L (s.cacheBlockWrite t (Place.put L a (s.cache t) k v)) inode loc (update b (.data i) v) := by
  refine ⟨h.root, h.mark_linked hc ha hnone v, fun p => ?_, h.bound, h.used, h.valid⟩
  rw [update_apply]
  split_ifs with hp
  · exact hv.imp_right fun hv => ⟨hv, i, hp⟩
  · exact h.blank p

end Mapped

attribute [ext] InodeDisk

def remembered (data : InodeDisk) (loc : Place → Option Sector) : Place → Option Sector
  | .data i => if i < indirectBegin ∧ data.block (blockSlot i) = 0 then none else loc (.data i)
  | p => loc p

def rememberedBlank (data : InodeDisk) (b : Place → Sector) : Place → Sector
  | .data i => if i < indirectBegin ∧ data.block (blockSlot i) = 0 then 0 else b (.data i)
  | p => b p

section
variable {data : InodeDisk} {a q : Place} {k : ℕ} {t : Sector}

theorem remembered_eq_some (h : remembered data loc q = some t) : loc q = some t := by
  cases q with
  | data i =>
    rw [remembered] at h
    split_ifs at h
    exact h
  | _ => exact h

theorem remembered_eq_none (h : loc q = none) : remembered data loc q = none := by
  cases q with
  | data i => rw [remembered, h, ite_self]
  | _ => exact h

theorem remembered_index (hq : ∀ i, q ≠ .data i) : remembered data loc q = loc q := by
  cases q with
  | data i => exact absurd rfl (hq i)
  | _ => rfl

theorem remembered_of_cell {c : Place} (hc : Place.cell c = some (a, k)) : remembered data loc a = loc a :=
  remembered_index (Place.ne_data_of_cell hc)

theorem remembered_of_ne (hc : Place.cell q = some (a, k)) (ha : a ≠ .inode) :
    remembered data loc q = loc q ∧ rememberedBlank data b q = b q := by
  cases q with
  | data i =>
    have hdirect : ¬ (i < indirectBegin ∧ data.block (blockSlot i) = 0) := fun hhole => ha (by
      rw [Place.cell, if_pos hhole.1] at hc
      cases hc
      rfl)
    exact ⟨if_neg hdirect, if_neg hdirect⟩
  | _ => exact ⟨rfl, rfl⟩

end

structure InCore (L : Layout) (s : Store) (inode : Sector) (data : InodeDisk) (loc : Place → Option Sector)
    (b : Place → Sector) : Prop where
  sized : s.Sized
  mapped : Mapped L s inode loc b
  orphan : ∀ c a k, Place.cell c = some (a, k) → loc a = none → b c = noSector
  copy : ∀ q k, Place.cell q = some (.inode, k) →
    data.block (blockSlot k) = (loc q).getD (b q) ∨ k < indirectBegin ∧ data.block (blockSlot k) = 0

namespace InCore
variable {data d : InodeDisk} {a p q : Place} {i k : ℕ} {t u : Sector}

theorem block_eq (h : InCore L s inode data loc b) (hc : Place.cell q = some (.inode, k)) :
    data.block (blockSlot k) = (remembered data loc q).getD (rememberedBlank data b q) := by
  have hcopy := h.copy q k hc
  cases q with
  | inode => cases hc
  | leaf slot => cases hc
  | indirect | dblIndirect =>
    cases hc
    exact hcopy.resolve_right fun hhole => absurd hhole.1 (by decide)
  | data i =>
    obtain ⟨hlt, rfl⟩ := Place.direct_of_cell hc
    simp only [remembered, rememberedBlank, hlt, true_and]
    by_cases hzero : data.block (blockSlot i) = 0
    · rw [if_pos hzero, if_pos hzero, hzero, getD_none]
    · rw [if_neg hzero, if_neg hzero]
      exact hcopy.resolve_right fun hhole => hzero hhole.2

theorem block_coherent (h : InCore L s inode data loc b)
    (hdirect : ∀ j < indirectBegin, data.block (blockSlot j) = (loc (.data j)).getD (b (.data j))) :
    data.block = (L.toInode (s.cache inode)).block := by
  funext slot
  have hslot : blockSlot slot = slot := Fin.ext (Nat.mod_eq_of_lt slot.isLt)
  obtain ⟨q, hq⟩ := Place.exists_of_slot slot
  have hptr : (L.toInode (s.cache inode)).block (blockSlot slot) = _ := h.mapped.ptr_eq hq h.mapped.root
  rw [← hslot, hptr]
  rcases h.copy q slot hq with hleft | ⟨hlt, -⟩
  · exact hleft
  · have hc : Place.cell (.data slot) = some (.inode, (slot : ℕ)) := by rw [Place.cell, if_pos hlt]
    obtain rfl := Place.cell_inj _ _ _ _ hq hc
    exact hdirect slot hlt

theorem written (h : InCore L s inode data loc b) (hd : d.block = data.block) :
    InCore L (s.cacheBlockWrite inode (L.ofInode d)) inode d (remembered data loc) (rememberedBlank data b) := by
  have hm := h.mapped
  have hsome {q : Place} {t : Sector} (hq : remembered data loc q = some t) : loc q = some t := remembered_eq_some hq
  refine ⟨h.sized.write, ⟨hm.root, ⟨fun c a k t hc ha => ?_, fun a b t ha hb => hm.linked.inj a b t (hsome ha) (hsome hb),
    fun c a k t hc ht => ?_⟩, fun p => ?_, fun i hi => ?_, fun q t hq => hm.used q t (hsome hq),
    fun q t hne hq => hm.valid q t hne (hsome hq)⟩, fun c a k hc ha => ?_, fun q k hc => .inl ?_⟩
  · by_cases hai : a = .inode
    · subst hai
      obtain rfl := some.inj (hm.root.symm.trans ha)
      rw [← h.block_eq hc, ← hd]
      change (L.toInode ((s.cacheBlockWrite inode (L.ofInode d)).cache inode)).block (blockSlot k) = _
      rw [cache_write_self, L.toInode_ofInode]
    · have hcache : (s.cacheBlockWrite inode (L.ofInode d)).cache t = s.cache t :=
        cache_write_of_ne (hm.ne_inode hai (hsome ha))
      have hsame : remembered data loc c = loc c ∧ rememberedBlank data b c = b c := remembered_of_ne hc hai
      rw [hcache, hsame.1, hsame.2]
      exact hm.ptr_eq hc (hsome ha)
  · rw [remembered_of_cell hc]
    exact hm.up hc (hsome ht)
  · cases p with
    | data i =>
      rw [rememberedBlank]
      split_ifs
      · exact .inr ⟨rfl, i, rfl⟩
      · exact hm.blank _
    | _ => exact hm.blank _
  · obtain ⟨t, ht⟩ := ne_none_iff_exists'.mp hi
    exact hm.bound i (hsome ht ▸ some_ne_none t)
  · rw [remembered_of_cell hc] at ha
    have hai : a ≠ .inode := by
      rintro rfl
      cases hm.root.symm.trans ha
    have hsame : remembered data loc c = loc c ∧ rememberedBlank data b c = b c := remembered_of_ne hc hai
    rw [hsame.2]
    exact h.orphan c a k hc ha
  · rw [hd]
    exact h.block_eq hc

theorem setZero (h : InCore L s inode data loc b) (hi : i < indirectBegin) :
    InCore L s inode (data.setBlock (blockSlot i) 0) loc b := by
  refine ⟨h.sized, h.mapped, h.orphan, fun q k hc => ?_⟩
  have hk : (blockSlot k : ℕ) = k := Nat.mod_eq_of_lt (Place.lt_width_of_cell hc)
  have hi' : (blockSlot i : ℕ) = i := Nat.mod_eq_of_lt (hi.trans (by decide))
  rw [InodeDisk.setBlock]
  by_cases hki : k = i
  · rw [hki]
    exact .inr ⟨hi, update_self ..⟩
  · have hne : blockSlot k ≠ blockSlot i := fun heq => hki (by rw [← hk, heq, hi'])
    simp only [update_of_ne hne]
    exact h.copy q k hc

theorem mark (h : InCore L s inode data loc b) (hc : Place.cell (.data i) = some (a, k)) (ha : loc a = some t)
    (hnone : loc (.data i) = none) {v : Sector} (hv : v = noSector ∨ v = 0)
    (hzero : a = .inode → data.block (blockSlot k) = 0) :
    InCore L (s.cacheBlockWrite t (Place.put L a (s.cache t) k v)) inode data loc (update b (.data i) v) := by
  refine ⟨h.sized.write, h.mapped.mark hc ha hnone hv, fun c a' k' hc' ha' => ?_, fun q k' hc' => ?_⟩
  · have hne : c ≠ .data i := by
      rintro rfl
      obtain ⟨rfl, -⟩ := Prod.mk.inj (some.inj (hc.symm.trans hc'))
      cases ha.symm.trans ha'
    rw [update_of_ne hne]
    exact h.orphan c a' k' hc' ha'
  · by_cases hq : q = .data i
    · subst hq
      obtain ⟨rfl, rfl⟩ := Prod.mk.inj (some.inj (hc.symm.trans hc'))
      obtain ⟨hlt, rfl⟩ := Place.direct_of_cell hc
      exact .inr ⟨hlt, hzero rfl⟩
    · rw [update_of_ne hq]
      exact h.copy q k' hc'

end InCore

structure Opened (L : Layout) (s s' : Store) (u : Sector) (index : Index) : Prop where
  read : L.toIndex (s'.cache u) = index
  write : ∀ bytes, s.cacheBlockWrite u bytes = s'.cacheBlockWrite u bytes
  same : s = s' ∨ index = noSectors

inductive Lapsed (L : Layout) (s : Store) (inode : Sector) (data : InodeDisk) (loc : Place → Option Sector)
    (b : Place → Sector) : Store → (Place → Option Sector) → (Place → Sector) → Prop
  | kept : Lapsed L s inode data loc b s loc b
  | written : Lapsed L s inode data loc b (s.cacheBlockWrite inode (L.ofInode data)) (remembered data loc)
      (rememberedBlank data b)

structure Gets (L : Layout) (inode : Sector) (s s' : Store) (loc loc' : Place → Option Sector) (P : Finset Place) : Prop
    extends Extends L inode s s' loc loc' where
  located : ∀ p ∈ P, loc' p ≠ none
  same : ∀ p, p ∉ P → loc' p = loc p
  free : s'.freeMap.freeCount + Place.lacking loc P = s.freeMap.freeCount
  device : ∀ p t, loc p = none → loc' p = some t → (t : ℕ) < s.freeMap.bitCnt

theorem Gets.refl {P : Finset Place} (h : ∀ p ∈ P, loc p ≠ none) : Gets L inode s s loc loc P where
  toExtends := .refl
  located := h
  same _ _ := rfl
  free := by rw [Place.lacking_eq_zero.mpr h, Nat.add_zero]
  device _ t hn hs := absurd (hs.symm.trans hn) (some_ne_none t)

theorem Gets.trans {s'' : Store} {loc'' : Place → Option Sector} {P Q : Finset Place}
    (h : Gets L inode s s' loc loc' P) (h' : Gets L inode s' s'' loc' loc'' Q) :
    Gets L inode s s'' loc loc'' (P ∪ Q) := by
  refine ⟨h.toExtends.trans h'.toExtends, fun p hp => ?_, fun p hp => ?_, ?_, fun p t hn hs => ?_⟩
  · rcases Finset.mem_union.mp hp with hp | hp
    · obtain ⟨t, ht⟩ := ne_none_iff_exists'.mp (h.located p hp)
      exact h'.keep p t ht ▸ some_ne_none t
    · exact h'.located p hp
  · rw [Finset.mem_union, not_or] at hp
    rw [h'.same p hp.2, h.same p hp.1]
  · have hfree := h.free
    have hfree' := h'.free
    rw [Place.lacking_union h.located fun p _ hp => by rw [h.same p hp]]
    omega
  · rcases hl : loc' p with _ | u
    · exact h.bitCnt ▸ h'.device p t hl hs
    · obtain rfl := some.inj ((h'.keep p u hl).symm.trans hs)
      exact h.device p u hn hl

namespace Lapsed
variable {data : InodeDisk} {s1 : Store} {loc1 : Place → Option Sector} {b1 : Place → Sector}

theorem freeMap (h : Lapsed L s inode data loc b s1 loc1 b1) : s1.freeMap = s.freeMap := by
  cases h with
  | kept => rfl
  | written => rfl

theorem index (h : Lapsed L s inode data loc b s1 loc1 b1) {p : Place} (hp : ∀ i, p ≠ .data i) : loc1 p = loc p := by
  cases h with
  | kept => rfl
  | written => exact remembered_index hp

theorem sector (h : Lapsed L s inode data loc b s1 loc1 b1) (j : ℕ) :
    loc1 (.data j) = loc (.data j) ∧ b1 (.data j) = b (.data j) ∨
      loc1 (.data j) = none ∧ b1 (.data j) = 0 ∧ j < indirectBegin ∧ data.block (blockSlot j) = 0 := by
  cases h with
  | kept => exact .inl ⟨rfl, rfl⟩
  | written =>
    rw [remembered, rememberedBlank]
    split_ifs with hzero
    · exact .inr ⟨rfl, rfl, hzero⟩
    · exact .inl ⟨rfl, rfl⟩

end Lapsed

namespace InCore
variable {data : InodeDisk} {a p : Place} {i k : ℕ} {t u : Sector}

theorem giveIndex (h : InCore L s inode data loc b) (hc : Place.cell p = some (a, k)) (ha : loc a = some t)
    (hnone : loc p = none) (hdata : ∀ i, p ≠ .data i) (hbit : s.freeMap.bits u = false)
    (hlt : (u : ℕ) < s.freeMap.bitCnt) (hu : u ≠ 0 ∧ u ≠ noSector) {d : InodeDisk}
    (hcopy : ∀ q k', Place.cell q = some (.inode, k') → d.block (blockSlot k') =
      (update loc p (some u) q).getD (b q) ∨ k' < indirectBegin ∧ d.block (blockSlot k') = 0) :
    InCore L (s.give t u (Place.put L a (s.cache t) k u) (newBlock L p)) inode d (update loc p (some u)) b ∧
      Gets L inode s (s.give t u (Place.put L a (s.cache t) k u) (newBlock L p)) loc
        (update loc p (some u)) {p} := by
  have hext := h.mapped.give_extends hc ha hnone hbit
  refine ⟨⟨hext.sized h.sized, h.mapped.giveIndex hc ha hnone hdata hbit hu fun c' k' hc' =>
    h.orphan c' p k' hc' hnone, fun c a' k' hc' ha' => ?_, hcopy⟩, hext, fun q hq => ?_, fun q hq => ?_, ?_,
    fun q v hn hs => ?_⟩
  · refine h.orphan c a' k' hc' ?_
    by_contra hsome
    obtain ⟨v, hv⟩ := ne_none_iff_exists'.mp hsome
    cases ((Place.update_eq_some hnone).mpr (.inl hv)).symm.trans ha'
  · rw [Finset.mem_singleton.mp hq, update_self]
    exact some_ne_none u
  · exact update_of_ne (fun hqp => hq (Finset.mem_singleton.mpr hqp)) ..
  · rw [Place.lacking_singleton, if_pos hnone]
    exact Bitmap.freeCount_setMultiple hlt hbit
  · obtain hq | ⟨-, rfl⟩ := (Place.update_eq_some hnone).mp hs
    · exact absurd (hq.symm.trans hn) (some_ne_none v)
    · exact hlt

theorem slot_eq (h : InCore L s inode data loc b) {slot : BlockSlot}
    (hc : Place.cell p = some (.inode, (slot : ℕ))) (hdata : ∀ i, p ≠ .data i) :
    data.block slot = (loc p).getD noSector := by
  have hslot : blockSlot slot = slot := Fin.ext (Nat.mod_eq_of_lt slot.isLt)
  have hblock := h.copy p slot hc
  rw [hslot, h.mapped.blank_index hdata] at hblock
  refine hblock.resolve_right fun hhole => ?_
  cases p with
  | inode | leaf _ => cases hc
  | indirect | dblIndirect =>
    obtain ⟨-, hval⟩ := Prod.mk.inj (some.inj hc)
    exact absurd (hval ▸ hhole.1) (by decide)
  | data i => exact hdata i rfl

theorem openIndex_eq (h : InCore L s inode data loc b) {slot : BlockSlot}
    (hc : Place.cell p = some (.inode, (slot : ℕ))) (hdata : ∀ i, p ≠ .data i)
    (hfree : loc p = none → 0 < s.freeMap.freeCount) :
    ∃ s1 loc1 b1 s0 s' data' index loc' u, Lapsed L s inode data loc b s1 loc1 b1 ∧
      s.openIndex L inode data slot = some (s0, data', index) ∧ Opened L s0 s' u index ∧
      InCore L s' inode data' loc' b1 ∧ Gets L inode s1 s' loc1 loc' {p} ∧ loc' p = some u ∧
      (data' = data ∨ data' = data.setBlock slot u) ∧ data'.block slot = u ∧
      (loc p = none → loc1 = remembered data loc) := by
  have hslot : blockSlot slot = slot := Fin.ext (Nat.mod_eq_of_lt slot.isLt)
  have hptr := h.slot_eq hc hdata
  have hinode : p ≠ .inode := by
    rintro rfl
    cases hc
  rcases hl : loc p with _ | u
  · obtain ⟨u, halloc, hbit, hlt, hu⟩ := freeMapAllocate_eq h.sized (hfree hl)
    have h1 := h.written (d := data) rfl
    have hnone : remembered data loc p = none := remembered_eq_none hl
    have hinu : u ≠ inode := fun hin => h.mapped.ne_of_fresh hbit .inode (h.mapped.root.trans (congrArg some hin.symm))
    have hput : Place.put L .inode ((s.cacheBlockWrite inode (L.ofInode data)).cache inode) slot u =
        L.ofInode (data.setBlock slot u) := by
      rw [Place.put, hslot, cache_write_self, L.toInode_ofInode]
    have hread : L.toIndex (newBlock L p) = noSectors := by
      cases p with
      | data i => exact absurd rfl (hdata i)
      | _ => exact L.toIndex_ofIndex _
    have hcopy : ∀ q k', Place.cell q = some (.inode, k') → (data.setBlock slot u).block (blockSlot k') =
        (update (remembered data loc) p (some u) q).getD (rememberedBlank data b q) ∨
          k' < indirectBegin ∧ (data.setBlock slot u).block (blockSlot k') = 0 := fun q k' hc' => by
      rw [InodeDisk.setBlock, ← hslot]
      by_cases hqp : q = p
      · subst hqp
        obtain ⟨-, rfl⟩ := Prod.mk.inj (some.inj (hc.symm.trans hc'))
        simp only [update_self, getD_some, true_or]
      · have hne : blockSlot k' ≠ blockSlot slot := fun heq => hqp (Place.cell_inj q p .inode k' hc' (by
          have hk' : (blockSlot k' : ℕ) = k' := Nat.mod_eq_of_lt (Place.lt_width_of_cell hc')
          rw [hc, ← hk', heq, hslot]))
        simp only [update_of_ne hqp, update_of_ne hne]
        exact .inl (h.block_eq hc')
    obtain ⟨hcore, hgets⟩ := h1.giveIndex hc h1.mapped.root hnone hdata hbit hlt hu hcopy
    refine ⟨_, _, _, ({ s with freeMap := s.freeMap.setMultiple u 1 true } : Store).cacheBlockWrite inode
      (L.ofInode (data.setBlock slot u)), _, data.setBlock slot u, noSectors, _, u, .written, ?_, ⟨?_, fun bytes => ?_,
      .inr rfl⟩, hcore, hgets, update_self .., .inr rfl, update_self .., fun _ => rfl⟩
    · rw [openIndex, if_neg (by rw [hptr, hl]; exact not_not_intro rfl), halloc]
      rfl
    · rw [cache_give_new hinu, hread]
    · rw [hput, ← give_write hinu]
      simp only [cacheBlockWrite, update_idem]
  · rw [hl, getD_some] at hptr
    refine ⟨s, loc, b, s, s, data, _, loc, u, .kept, ?_, ⟨rfl, fun _ => rfl, .inl rfl⟩, h, .refl fun q hq => ?_, hl,
      .inl rfl, hptr, fun hno => absurd hno.symm (some_ne_none u).symm⟩
    · rw [openIndex, if_pos (hptr ▸ (h.mapped.valid p u hinode hl).2), hptr]
    · rw [Finset.mem_singleton.mp hq, hl]
      exact some_ne_none u

theorem openLeaf_eq {s0 : Store} {index : Index} (h : InCore L s inode data loc b) (slot : IndexSlot)
    (ht : loc .dblIndirect = some t) (ho : Opened L s0 s t index)
    (hfree : loc (.leaf slot) = none → 0 < s.freeMap.freeCount) :
    ∃ s1 s' index' leaf loc' u, s0.openLeaf L t index slot = some (s1, index', leaf) ∧ Opened L s1 s' u leaf ∧
      InCore L s' inode data loc' b ∧ Gets L inode s s' loc loc' {.leaf slot} ∧ loc' (.leaf slot) = some u ∧
      index' slot = u := by
  have hslot : indexSlot slot = slot := Fin.ext (Nat.mod_eq_of_lt slot.isLt)
  have hc : Place.cell (.leaf slot) = some (.dblIndirect, (slot : ℕ)) := rfl
  have hptr : index slot = (loc (.leaf slot)).getD noSector := ho.read ▸ h.mapped.leaf_eq ht slot
  rcases hl : loc (.leaf slot) with _ | u
  · have hmap : s0.freeMap = s.freeMap := by
      have hzeros := congrArg Store.freeMap (ho.write zeros)
      exact hzeros
    obtain ⟨u, halloc, hbit, hlt, hu⟩ := freeMapAllocate_eq (s := s0) ⟨hmap ▸ h.sized.zero, hmap ▸ h.sized.size⟩
      (hmap ▸ hfree hl)
    rw [hmap] at hbit hlt
    have hut : u ≠ t := fun hut => h.mapped.ne_of_fresh hbit .dblIndirect (ht.trans (congrArg some hut.symm))
    have hput : Place.put L .dblIndirect (s.cache t) slot u = L.ofIndex (update index slot u) := by
      change L.ofIndex (update (L.toIndex (s.cache t)) (indexSlot slot) u) = _
      rw [ho.read, hslot]
    have hwrite : ∀ d, ({ s0 with freeMap := s0.freeMap.setMultiple u 1 true } : Store).cacheBlockWrite t d =
        ({ s with freeMap := s.freeMap.setMultiple u 1 true } : Store).cacheBlockWrite t d := fun d =>
      congrArg (fun x : Store => { x with freeMap := x.freeMap.setMultiple u 1 true }) (ho.write d)
    have hcopy : ∀ q k', Place.cell q = some (.inode, k') → data.block (blockSlot k') =
        (update loc (.leaf slot) (some u) q).getD (b q) ∨
          k' < indirectBegin ∧ data.block (blockSlot k') = 0 := fun q k' hc' => by
      have hne : q ≠ .leaf slot := by
        rintro rfl
        cases hc'
      rw [update_of_ne hne]
      exact h.copy q k' hc'
    obtain ⟨hcore, hgets⟩ := h.giveIndex hc ht hl (fun _ => Place.noConfusion) hbit hlt hu hcopy
    refine ⟨({ s0 with freeMap := s0.freeMap.setMultiple u 1 true } : Store).cacheBlockWrite t
        (L.ofIndex (update index slot u)), _, update index slot u, noSectors, _, u, ?_,
      ⟨?_, fun bytes => ?_, .inr rfl⟩, hcore, hgets, update_self .., update_self ..⟩
    · rw [openLeaf, if_neg (by rw [hptr, hl]; exact not_not_intro rfl), halloc]
      rfl
    · rw [cache_give_new hut]
      exact L.toIndex_ofIndex _
    · rw [hwrite, ← hput]
      exact give_write hut bytes
  · have hu := h.mapped.valid _ u Place.noConfusion hl
    rw [hl, getD_some] at hptr
    -- an index block that points to a leaf is not a new one
    obtain rfl : s0 = s := ho.same.resolve_right fun hnew => hu.2 (by rw [← hptr, hnew]; rfl)
    refine ⟨s0, s0, index, _, loc, u, ?_, ⟨rfl, fun _ => rfl, .inl rfl⟩, h, .refl fun q hq => ?_, hl, hptr⟩
    · rw [openLeaf, if_pos (hptr ▸ hu.2), hptr]
    · rw [Finset.mem_singleton.mp hq, hl]
      exact some_ne_none u

theorem markIndex {s0 : Store} {index : Index} (h : InCore L s inode data loc b)
    (hc : Place.cell (.data i) = some (a, k)) (hne : a ≠ .inode) (ha : loc a = some t)
    (hnone : loc (.data i) = none) (hb : b (.data i) = noSector) (ho : Opened L s0 s t index) :
    s0.cacheBlockWrite t (L.ofIndex (markHole index (indexSlot k))) =
      s.cacheBlockWrite t (Place.put L a (s.cache t) k 0) := by
  have hptr := h.mapped.ptr_eq hc ha
  rw [hnone, getD_none, hb] at hptr
  have hmark : markHole index (indexSlot k) = update (L.toIndex (s.cache t)) (indexSlot k) 0 := by
    rw [ho.read, markHole, if_pos]
    rw [← ho.read, ← hptr]
    cases a with
    | inode => exact absurd rfl hne
    | data i => exact absurd rfl (Place.ne_data_of_cell hc i)
    | _ => rfl
  rw [ho.write, hmark]
  cases a with
  | inode => exact absurd rfl hne
  | data i => exact absurd rfl (Place.ne_data_of_cell hc i)
  | _ => rfl

end InCore

structure SameCopy (data data' : InodeDisk) (i : ℕ) : Prop where
  direct : ∀ j < indirectBegin, j ≠ i → data'.block (blockSlot j) = data.block (blockSlot j)
  marked : i < indirectBegin → data'.block (blockSlot i) = 0
  length : data'.length = data.length
  isDir : data'.isDir = data.isDir

theorem SameCopy.setBlock {data : InodeDisk} {slot : BlockSlot} {i : ℕ} {u : Sector} (hslot : indirectBegin ≤ slot.val)
    (hi : indirectBegin ≤ i) : SameCopy data (data.setBlock slot u) i where
  direct j hj _ := by
    have hne : blockSlot j ≠ slot := fun heq => by
      have hval : (blockSlot j : ℕ) = j := Nat.mod_eq_of_lt (hj.trans (by decide))
      rw [← heq, hval] at hslot
      omega
    exact update_of_ne hne ..
  marked hlt := absurd hlt (Nat.not_lt.mpr hi)
  length := rfl
  isDir := rfl

theorem SameCopy.refl {data : InodeDisk} {i : ℕ} (hi : indirectBegin ≤ i) : SameCopy data data i :=
  ⟨fun _ _ _ => rfl, fun hlt => absurd hlt (Nat.not_lt.mpr hi), rfl, rfl⟩

namespace InCore
variable {data : InodeDisk} {i : ℕ}

theorem inodeExpandSector_eq (h : InCore L s inode data loc b) (hmax : i < maxFileSector)
    (hnone : loc (.data i) = none) (hb : b (.data i) = noSector)
    (hfree : Place.lacking loc (Place.wayTo i) ≤ s.freeMap.freeCount) :
    ∃ s1 loc1 b1 s' data' loc', Lapsed L s inode data loc b s1 loc1 b1 ∧
      s.inodeExpandSector L inode data i = (true, s', data') ∧
      InCore L s' inode data' loc' (update b1 (.data i) 0) ∧
      Gets L inode s1 s' loc1 loc' (Place.wayTo i) ∧ SameCopy data data' i ∧
      (i < indirectBegin ∨ i < dblIndirectBegin ∧ loc .indirect = none → loc1 = remembered data loc) := by
  by_cases hdirect : i < indirectBegin
  · have hc : Place.cell (.data i) = some (.inode, i) := by rw [Place.cell, if_pos hdirect]
    have h1 := h.written (d := data) rfl
    have hmark := (h1.setZero hdirect).mark hc h1.mapped.root (remembered_eq_none hnone) (.inr rfl) fun _ =>
      update_self ..
    have hway : Place.wayTo i = ∅ := by rw [Place.wayTo, if_pos hdirect]
    have hdata : (if data.block (blockSlot i) = noSector then data.setBlock (blockSlot i) 0 else data) =
        data.setBlock (blockSlot i) 0 := by
      split_ifs with hno
      · rfl
      · have hzero := (h.copy _ i hc).resolve_left fun hleft => hno (by rw [hleft, hnone, getD_none, hb])
        simp only [InodeDisk.setBlock]
        rw [← hzero.2, update_eq_self]
    refine ⟨_, _, _, _, data.setBlock (blockSlot i) 0, _, .written, ?_, hmark, ⟨h1.mapped.put_extends hc h1.mapped.root 0,
      fun p hp => ?_, fun _ _ => rfl, ?_, fun _ t hn hs => absurd (hs.symm.trans hn) (some_ne_none t)⟩,
      ⟨fun j hj hji => ?_, fun _ => update_self .., rfl, rfl⟩, fun _ => rfl⟩
    · rw [inodeExpandSector, if_pos hdirect]
      simp only [hdata, Place.put, cache_write_self, L.toInode_ofInode]
      simp only [cacheBlockWrite, update_idem]
    · rw [hway] at hp
      exact absurd hp (Finset.notMem_empty p)
    · rw [hway, Place.lacking, Finset.filter_empty, Finset.card_empty, Nat.add_zero]
      rfl
    · refine update_of_ne (fun heq => hji ?_) ..
      have hval {k : ℕ} (hk : k < indirectBegin) : (blockSlot k : ℕ) = k := Nat.mod_eq_of_lt (hk.trans (by decide))
      rw [← hval hj, heq, hval hdirect]
  have hge : indirectBegin ≤ i := Nat.not_lt.mp hdirect
  by_cases hind : i < dblIndirectBegin
  · have hc : Place.cell (.data i) = some (.indirect, i - indirectBegin) := by
      rw [Place.cell, if_neg hdirect, if_pos hind]
    have hway : Place.wayTo i = {.indirect} := by rw [Place.wayTo, if_neg hdirect, if_pos hind]
    rw [hway, Place.lacking_singleton] at hfree
    obtain ⟨s1, loc1, b1, s0, s2, data2, index, loc2, u, hlapsed, hopen, ho, h2, hgets, hu, hdata, hblock, hwritten⟩ :=
      h.openIndex_eq (p := .indirect) rfl (fun _ => Place.noConfusion) fun hl => by
        rw [if_pos hl] at hfree
        exact hfree
    have hsame : loc2 (.data i) = none ∧ b1 (.data i) = noSector := by
      rw [hgets.same _ fun hmem => Place.noConfusion (Finset.mem_singleton.mp hmem)]
      rcases hlapsed.sector i with ⟨hloc, hb1⟩ | ⟨-, -, hlt, -⟩
      · exact ⟨hloc.trans hnone, hb1.trans hb⟩
      · exact absurd hlt hdirect
    have hmark := h2.mark hc hu hsame.1 (.inr rfl) fun hinode => Place.noConfusion hinode
    refine ⟨s1, loc1, b1, _, data2, loc2, hlapsed, ?_, hmark, ⟨hgets.toExtends.trans (h2.mapped.put_extends hc hu 0),
      hway ▸ hgets.located, hway ▸ hgets.same, hway ▸ hgets.free, hgets.device⟩, ?_,
      fun hor => hwritten (hor.resolve_left hdirect).2⟩
    · rw [inodeExpandSector, if_neg hdirect, if_pos hind, hopen]
      simp only [hblock]
      rw [h2.markIndex hc Place.noConfusion hu hsame.1 hsame.2 ho]
    · rcases hdata with rfl | rfl
      · exact .refl hge
      · exact .setBlock (by decide) hge
  · obtain ⟨slot, hslot⟩ : ∃ slot, slot = indexSlot ((i - dblIndirectBegin) / blockSlots) := ⟨_, rfl⟩
    have hc : Place.cell (.data i) = some (.leaf slot, (i - dblIndirectBegin) % blockSlots) := by
      rw [Place.cell, if_neg hdirect, if_neg hind, if_pos hmax, hslot]
    have hway : Place.wayTo i = {.dblIndirect} ∪ {.leaf slot} := by
      rw [Place.wayTo, if_neg hdirect, if_neg hind, hslot]
      rfl
    have hdisjoint : Disjoint ({.dblIndirect} : Finset Place) {.leaf slot} :=
      Finset.disjoint_singleton.mpr Place.noConfusion
    rw [hway, Place.lacking_union_of_disjoint hdisjoint, Place.lacking_singleton, Place.lacking_singleton] at hfree
    obtain ⟨s1, loc1, b1, s0, s2, data2, index, loc2, u, hlapsed, hopen, ho, h2, hgets, hu, hdata, hblock, -⟩ :=
      h.openIndex_eq (p := .dblIndirect) rfl (fun _ => Place.noConfusion) fun hl => by
        rw [if_pos hl] at hfree
        omega
    have hleaf : loc2 (.leaf slot) = loc (.leaf slot) := by
      rw [hgets.same _ fun hmem => Place.noConfusion (Finset.mem_singleton.mp hmem),
        hlapsed.index fun _ => Place.noConfusion]
    obtain ⟨s₃, s₄, index', leaf, loc₄, v, hopen', ho', h₄, hgets', hv, hindex⟩ :=
      h2.openLeaf_eq slot hu ho fun hl => by
        have hcount := hgets.free
        rw [Place.lacking_singleton, hlapsed.freeMap, hlapsed.index fun _ => Place.noConfusion] at hcount
        rw [hleaf] at hl
        rw [if_pos hl] at hfree
        omega
    have hsame : loc₄ (.data i) = none ∧ b1 (.data i) = noSector := by
      rw [hgets'.same _ fun hmem => Place.noConfusion (Finset.mem_singleton.mp hmem),
        hgets.same _ fun hmem => Place.noConfusion (Finset.mem_singleton.mp hmem)]
      rcases hlapsed.sector i with ⟨hloc, hb1⟩ | ⟨-, -, hlt, -⟩
      · exact ⟨hloc.trans hnone, hb1.trans hb⟩
      · exact absurd hlt hdirect
    have hboth := hgets.trans hgets'
    have hmark := h₄.mark hc hv hsame.1 (.inr rfl) fun hinode => Place.noConfusion hinode
    refine ⟨s1, loc1, b1, _, data2, loc₄, hlapsed, ?_, hmark, ⟨hboth.toExtends.trans (h₄.mapped.put_extends hc hv 0),
      hway ▸ hboth.located, hway ▸ hboth.same, hway ▸ hboth.free, hboth.device⟩, ?_,
      fun hor => absurd (hor.resolve_left hdirect).1 hind⟩
    · rw [inodeExpandSector, if_neg hdirect, if_neg hind, if_pos hmax, hopen]
      simp only [hblock, ← hslot, hopen', hindex]
      rw [h₄.markIndex hc Place.noConfusion hv hsame.1 hsame.2 ho']
    · rcases hdata with rfl | rfl
      · exact .refl hge
      · exact .setBlock (by decide) hge

end InCore

end Cs162.Filesys.Store
