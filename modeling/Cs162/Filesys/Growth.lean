import Cs162.Filesys.ZeroLoop

namespace Cs162.Filesys.Store
open Lib Kernel

variable {L : Layout} {s : Store} {inode t u : Sector} {data : InodeDisk} {loc : Place → Option Sector}
  {N size offset p : ℕ}

theorem byteAt_remembered (ht : remembered data loc (.data (p / blockSectorSize)) = some t) :
    s.byteAt (remembered data loc) p = s.byteAt loc p := by
  simp only [byteAt, ht, remembered_eq_some ht]

theorem enough_of_remembered (hoffset : offset = data.length)
    (hfree : Place.missing (remembered data loc) (bytesToSectors (offset + size)) < s.freeMap.freeCount) :
    s.Enough loc (bytesToSectors data.length) := by
  have hle : bytesToSectors data.length ≤ bytesToSectors (offset + size) := Nat.div_le_div_right (by omega)
  exact (Place.missing_le_missing hle fun _ => remembered_eq_none).trans hfree.le

structure OpenFile (L : Layout) (s : Store) (inode : Sector) (data : InodeDisk) (loc : Place → Option Sector) :
    Prop where
  sized : s.Sized
  blocks : Sparse L s inode loc (bytesToSectors data.length)
  index : loc .indirect ≠ none → indirectBegin < bytesToSectors data.length
  copy : ∀ slot, data.block slot = (L.toInode (s.cache inode)).block slot ∨
    slot.val < indirectBegin ∧ data.block slot = 0 ∧ loc (.data slot) ≠ none

namespace OpenFile

theorem ofHolds {f : ByteFile} (h : Holds L s inode data loc N f)
    (hindex : loc .indirect ≠ none → indirectBegin < bytesToSectors data.length) : OpenFile L s inode data loc :=
  ⟨h.content.sized, h.length ▸ h.content.blocks.sparse, hindex, fun _ => .inl (h.coherent ▸ rfl)⟩

theorem cacheFlush (h : OpenFile L s inode data loc) (t : Sector) :
    OpenFile L (s.cacheFlush t) inode data loc :=
  ⟨⟨h.sized.zero, h.sized.size⟩, h.blocks.frame (fun _ _ _ => rfl) h.blocks.used, h.index, h.copy⟩

theorem inCore (h : OpenFile L s inode data loc) :
    InCore L s inode data loc (blank (bytesToSectors data.length)) :=
  h.blocks.inCore h.sized fun slot => (h.copy slot).imp_right fun hhole => ⟨hhole.1, hhole.2.1⟩

theorem rememberedBlank_eq (h : OpenFile L s inode data loc) :
    rememberedBlank data (blank (bytesToSectors data.length)) = blank (bytesToSectors data.length) := by
  funext q
  cases q with
  | data i =>
    rw [rememberedBlank]
    split_ifs with hzero
    · refine (if_pos ?_).symm
      have hval : (blockSlot i : ℕ) = i := Nat.mod_eq_of_lt (hzero.1.trans (by decide))
      have hc : Place.cell (.data i) = some (.inode, i) := by rw [Place.cell, if_pos hzero.1]
      rcases h.copy (blockSlot i) with heq | ⟨-, -, hsome⟩
      · have hptr : (L.toInode (s.cache inode)).block (blockSlot i) = _ := h.blocks.ptr_eq hc h.blocks.root
        rw [← heq, hzero.2] at hptr
        by_contra hi
        rw [h.blocks.data_none (Nat.not_lt.mp hi), Option.getD_none, blank, if_neg hi] at hptr
        cases hptr
      · rw [hval] at hsome
        exact h.blocks.data i hsome
    · rfl
  | _ => rfl

theorem block_eq (h : OpenFile L s inode data loc) {q : Place} {k : ℕ} (hc : Place.cell q = some (.inode, k)) :
    data.block (blockSlot k) = (remembered data loc q).getD (blank (bytesToSectors data.length) q) := by
  rw [← h.rememberedBlank_eq]
  exact h.inCore.block_eq hc

theorem sparse (h : OpenFile L s inode data loc) {d : InodeDisk} (hd : d.block = data.block) :
    Sparse L (s.cacheBlockWrite inode (L.ofInode d)) inode (remembered data loc) (bytesToSectors data.length) := by
  have hm := (h.inCore.written hd).mapped
  rw [h.rememberedBlank_eq] at hm
  refine ⟨hm.root, hm.linked, fun i hi => ?_, h.blocks.bound, fun i a k hi hc => ?_, hm.used, hm.valid⟩
  · obtain ⟨t, ht⟩ := Option.ne_none_iff_exists'.mp hi
    exact h.blocks.data i (remembered_eq_some ht ▸ Option.some_ne_none t)
  · rw [remembered_of_cell hc]
    exact h.blocks.opened i a k hi hc

theorem inodeReadAt_eq (h : OpenFile L s inode data loc) (he : s.Enough loc (bytesToSectors data.length))
    {count pos : ℕ} (hpos : pos + count ≤ data.length) :
    (s.inodeReadAt L inode data count pos).1 = (List.range count).map fun k => s.byteAt loc (pos + k) :=
  Shows.inodeReadAt_eq ⟨h.blocks, h.sized, he, fun _ _ => rfl⟩ le_rfl hpos

theorem inodeExpandZero_eq (h : OpenFile L s inode data loc) (hoffset : offset = data.length) (hsize : 0 < size)
    (hmax : offset + size ≤ maxFileLen)
    (hfree : Place.missing (remembered data loc) (bytesToSectors (offset + size)) < s.freeMap.freeCount) :
    ∃ s' data' loc', s.inodeExpandZero L inode data size offset = (s', data') ∧
      (data'.length : ℕ) = offset + size ∧
      Shows L s' inode loc' (bytesToSectors (offset + size)) (offset + size)
        (s.bytesAfter (remembered data loc) size offset) := by
  have hlt : (offset + size) % 2 ^ 32 = offset + size :=
    Nat.mod_eq_of_lt (Nat.lt_of_le_of_lt hmax (by decide))
  have hsectors : bytesToSectors (offset + size) ≤ maxFileSector := by
    simp only [maxFileLen, bytesToSectors, blockSectorSize] at hmax ⊢
    omega
  have hblocks := h.sparse (d := data.setLength (offset + size)) rfl
  have hsync : data.setLength (offset + size) = L.toInode
      ((s.cacheBlockWrite inode (L.ofInode (data.setLength (offset + size)))).cache inode) := by
    rw [cache_write_self, L.toInode_ofInode]
  rw [← hoffset] at hblocks
  obtain ⟨s', data', loc', hloop, hshows⟩ := expandZeroLoop_eq hsectors hsync hblocks h.sized.write hfree
    (hoffset ▸ h.index) hsize (Holds.length_le_sectors _) hlt.ge
  refine ⟨s', data'.setLength (offset + size), loc', ?_, hlt, hshows.congr fun p _ => ?_⟩
  · simp only [inodeExpandZero, hloop]
  · exact bytesAfter_write fun i hi => h.blocks.ne_inode Place.noConfusion (remembered_eq_some hi) rfl

end OpenFile

theorem inodeExpandZero_length_le (hoffset : offset ≤ maxFileLen) :
    ((s.inodeExpandZero L inode data size offset).2.length : ℕ) ≤ maxFileLen :=
  (Nat.mod_le _ _).trans (expandZeroLoop_le size _ _ size offset hoffset)

def inodeExpandZeroUnlessDenied (L : Layout) (s : Store) (inode : Sector) (data : InodeDisk)
    (denyWriteCnt size offset : ℕ) : ℕ × Store × InodeDisk :=
  if denyWriteCnt ≠ 0 then (0, s, data)
  else
    let (s₁, data₁) := s.inodeExpandZero L inode data size offset
    (data₁.length - offset, s₁, data₁)

structure Grown (L : Layout) (inode : Sector) (size offset : ℕ) (s : Store) (data : InodeDisk) (s' : Store)
    (data' : InodeDisk) : Prop where
  kept : ∀ count pos, pos + count ≤ offset →
    (s'.inodeReadAt L inode data' count pos).1 = (s.inodeReadAt L inode data count pos).1
  zero : ∀ count pos, offset ≤ pos → pos + count ≤ offset + size →
    (s'.inodeReadAt L inode data' count pos).1 = List.replicate count 0
  length : (data'.length : ℕ) = offset + size

theorem OpenFile.grown_inodeExpandZero_iff (h : OpenFile L s inode data loc) (hoffset : offset = data.length)
    (hsize : 0 < size) (hmax : offset + size ≤ maxFileLen)
    (hfree : Place.missing (remembered data loc) (bytesToSectors (offset + size)) < s.freeMap.freeCount) :
    Grown L inode size offset s data (s.inodeExpandZero L inode data size offset).1
        (s.inodeExpandZero L inode data size offset).2 ↔
      ∀ p < offset, s.bytesAfter (remembered data loc) size offset p = s.byteAt loc p := by
  obtain ⟨s', data', loc', hexpand, hlen, hshows⟩ := h.inodeExpandZero_eq hoffset hsize hmax hfree
  rw [← hlen] at hshows
  have hbefore : ∀ count pos, pos + count ≤ offset → (s.inodeReadAt L inode data count pos).1 =
      (List.range count).map fun k => s.byteAt loc (pos + k) :=
    fun count pos hpos => h.inodeReadAt_eq (enough_of_remembered hoffset hfree) (hoffset ▸ hpos)
  have hafter : ∀ count pos, pos + count ≤ offset + size → (s'.inodeReadAt L inode data' count pos).1 =
      (List.range count).map fun k => s.bytesAfter (remembered data loc) size offset (pos + k) :=
    fun count pos hpos => hshows.inodeReadAt_eq le_rfl (hlen.symm ▸ hpos)
  rw [hexpand]
  constructor
  · intro hgrown p hp
    have hone := hgrown.kept 1 p hp
    rw [hafter 1 p (by omega), hbefore 1 p hp] at hone
    exact List.head_eq_of_cons_eq hone
  · intro hsame
    refine ⟨fun count pos hpos => ?_, fun count pos hle hpos => ?_, hlen⟩
    · rw [hafter count pos (by omega), hbefore count pos hpos]
      refine List.map_congr_left fun k hk => hsame _ ?_
      have := List.mem_range.mp hk
      omega
    · have hzero : ∀ k, s.bytesAfter (remembered data loc) size offset (pos + k) = 0 :=
        fun k => if_pos (Nat.le_add_right_of_le hle)
      simp only [hafter count pos hpos, hzero, List.map_const', List.length_range]

structure Intact (s : Store) (data : InodeDisk) (loc : Place → Option Sector) (size offset : ℕ) : Prop where
  holes : ∀ p < offset, p / blockSectorSize < offset / blockSectorSize ∨ Forgets size offset →
    remembered data loc (.data (p / blockSectorSize)) = none → s.byteAt loc p = 0
  flushed : ∀ t, remembered data loc (.data (offset / blockSectorSize)) = some t →
    ∀ k < offset % blockSectorSize, s.disk t k = s.cache t k
  fresh : ∀ u, s.nextFree = some u → ¬Forgets size offset →
    remembered data loc (.data (offset / blockSectorSize)) = none →
      ∀ k < offset % blockSectorSize, s.disk u k = s.byteAt loc (offset / blockSectorSize * blockSectorSize + k)

theorem bytesAfter_of_lt (hp : p < offset) : s.bytesAfter loc size offset p =
    if p / blockSectorSize = offset / blockSectorSize then s.lastByte loc size offset (p % blockSectorSize)
    else s.byteAt loc p := if_neg (Nat.not_le.mpr hp)

theorem bytesAfter_last {k : ℕ} (hk : k < offset % blockSectorSize) :
    s.bytesAfter loc size offset (offset / blockSectorSize * blockSectorSize + k) =
      s.lastByte loc size offset k := by
  have hmod : offset % blockSectorSize < blockSectorSize := Nat.mod_lt _ (by decide)
  have hoff := div_mul_add_mod offset
  rw [bytesAfter_of_lt (by omega), div_eq_of_lt (hk.trans hmod), if_pos rfl, mod_eq_of_lt (hk.trans hmod)]

theorem intact_iff (hu : s.nextFree = some u) :
    s.Intact data loc size offset ↔
      ∀ p < offset, s.bytesAfter (remembered data loc) size offset p = s.byteAt loc p := by
  have hoff := div_mul_add_mod offset
  have hmod : offset % blockSectorSize < blockSectorSize := Nat.mod_lt _ (by decide)
  constructor
  · intro h p hp
    rw [bytesAfter_of_lt hp]
    by_cases hsame : p / blockSectorSize = offset / blockSectorSize
    · have hpos : p = offset / blockSectorSize * blockSectorSize + p % blockSectorSize := by
        rw [← hsame, div_mul_add_mod]
      have hk : p % blockSectorSize < offset % blockSectorSize := by omega
      rw [if_pos hsame]
      unfold lastByte
      match hl : remembered data loc (.data (offset / blockSectorSize)) with
      | some t =>
        have hbyte := byteAt_located (s := s) (remembered_eq_some hl) (hk.trans hmod)
        rw [← hpos] at hbyte
        rw [hbyte]
        exact h.flushed t hl _ hk
      | none =>
        simp only [hu]
        by_cases hforget : Forgets size offset
        · rw [if_pos hforget, h.holes p hp (.inr hforget) (hsame ▸ hl)]
        · rw [if_neg hforget, h.fresh u hu hforget hl _ hk, ← hpos]
    · rw [if_neg hsame]
      match hl : remembered data loc (.data (p / blockSectorSize)) with
      | some t => exact byteAt_remembered hl
      | none =>
        have hlt := Nat.lt_of_le_of_ne (Nat.div_le_div_right hp.le) hsame
        rw [byteAt_hole hl, h.holes p hp (.inl hlt) hl]
  · intro h
    refine ⟨fun p hp hor hl => ?_, fun t hl k hk => ?_, fun v hv hforget hl k hk => ?_⟩
    · rw [← h p hp, bytesAfter_of_lt hp]
      by_cases hsame : p / blockSectorSize = offset / blockSectorSize
      · rw [if_pos hsame]
        rw [hsame] at hl
        simp only [lastByte, hl, hu]
        exact if_pos (hor.resolve_left fun hlt => hlt.ne hsame)
      · rw [if_neg hsame, byteAt_hole hl]
    · rw [← byteAt_located (remembered_eq_some hl) (hk.trans hmod), ← h _ (by omega), bytesAfter_last hk]
      simp only [lastByte, hl]
    · rw [← h _ (by omega), bytesAfter_last hk]
      simp only [lastByte, hl, hv, if_neg hforget]

theorem grown_iff (L : Layout) (s : Store) (inode : Sector) (data : InodeDisk) (loc : Place → Option Sector)
    (denyWriteCnt size offset : ℕ) (h : OpenFile L s inode data loc) (hoffset : offset = data.length)
    (hsize : 0 < size)
    (hfree : Place.missing (remembered data loc) (bytesToSectors (offset + size)) < s.freeMap.freeCount) :
    Grown L inode size offset s data (s.inodeExpandZeroUnlessDenied L inode data denyWriteCnt size offset).2.1
        (s.inodeExpandZeroUnlessDenied L inode data denyWriteCnt size offset).2.2 ↔
      denyWriteCnt = 0 ∧ offset + size ≤ maxFileLen ∧ s.Intact data loc size offset := by
  obtain ⟨u, halloc, -⟩ := freeMapAllocate_eq h.sized (Nat.zero_lt_of_lt hfree)
  have hu : s.nextFree = some u := by rw [nextFree, halloc, Option.map_some]
  by_cases hdeny : denyWriteCnt ≠ 0
  · rw [inodeExpandZeroUnlessDenied, if_pos hdeny]
    refine iff_of_false (fun hgrown => ?_) fun hcond => hdeny hcond.1
    exact absurd (hoffset.trans hgrown.length) (by omega)
  have hle : offset ≤ maxFileLen := by
    rw [hoffset]
    exact (Holds.length_le_sectors _).trans (Nat.mul_le_mul_right _ h.blocks.bound)
  rw [inodeExpandZeroUnlessDenied, if_neg hdeny, intact_iff hu]
  simp only [not_not.mp hdeny, true_and]
  by_cases hmax : offset + size ≤ maxFileLen
  · rw [h.grown_inodeExpandZero_iff hoffset hsize hmax hfree]
    exact ⟨fun hsame => ⟨hmax, hsame⟩, And.right⟩
  · refine iff_of_false (fun hgrown => hmax ?_) fun hcond => hmax hcond.1
    exact hgrown.length ▸ inodeExpandZero_length_le hle

def oneByte : OpenInode :=
  ((inodeCalls diskLayout 2).step
    (((freshStore 8).inodeCreate diskLayout 2 0 false none).2.1.inodeOpen diskLayout 2)
    (.write (fun _ => 7) 1 0)).2

theorem openFile_oneByte :
    OpenFile diskLayout oneByte.store 2 oneByte.data (oneByte.store.sectorAt diskLayout 2) := by
  obtain ⟨s₁, loc₁, hcreate, h₁, -⟩ := @Holds.ofCreate diskLayout (freshStore 8) 2 0 1 false ⟨rfl, by decide⟩ rfl
    (by decide) (by decide) (by decide)
  obtain ⟨s₂, data₂, loc₂, hwrite, h₂, -⟩ := h₁.inodeWriteAt_eq (by decide) (fun _ => 7) (Nat.zero_le _)
    (show 0 + 1 ≤ 1 * blockSectorSize by decide)
  have hone : oneByte = ⟨s₂, data₂⟩ := by simp only [oneByte, inodeCalls, inodeOpen, hcreate, hwrite]
  have hloc : oneByte.store.sectorAt diskLayout 2 = loc₂ := by
    rw [hone]
    exact h₂.content.blocks.sparse.mapped.sectorAt_eq
  have hindex : oneByte.store.sectorAt diskLayout 2 .indirect = none := by decide +kernel
  rw [← hloc] at h₂
  rw [hone] at h₂ hindex ⊢
  exact .ofHolds h₂ fun hsome => absurd hindex hsome

theorem grown_flushedByte :
    Grown diskLayout 2 600 1 (oneByte.store.cacheFlush 3) oneByte.data
      ((oneByte.store.cacheFlush 3).inodeExpandZeroUnlessDenied diskLayout 2 oneByte.data 0 600 1).2.1
      ((oneByte.store.cacheFlush 3).inodeExpandZeroUnlessDenied diskLayout 2 oneByte.data 0 600 1).2.2 := by
  have hlast : remembered oneByte.data (oneByte.store.sectorAt diskLayout 2) (.data 0) = some 3 := by
    decide +kernel
  refine (grown_iff diskLayout (oneByte.store.cacheFlush 3) 2 oneByte.data _ 0 600 1
    (openFile_oneByte.cacheFlush 3) (by decide +kernel) (by decide) (by decide +kernel)).mpr
    ⟨rfl, by decide, fun p hp _ hnone => ?_, fun t ht k _ => ?_, fun _ _ _ hnone => ?_⟩
  · rw [Nat.lt_one_iff.mp hp] at hnone
    exact absurd (hnone.symm.trans hlast) nofun
  · obtain rfl := Option.some.inj (ht.symm.trans hlast)
    exact congrFun (Function.update_self 3 (oneByte.store.cache 3) oneByte.store.disk) k
  · exact absurd (hnone.symm.trans hlast) nofun

theorem not_grown_oneByte :
    OpenFile diskLayout oneByte.store 2 oneByte.data (oneByte.store.sectorAt diskLayout 2) ∧
      (oneByte.data.length : ℕ) = 1 ∧
      Place.missing (remembered oneByte.data (oneByte.store.sectorAt diskLayout 2)) (bytesToSectors (1 + 1)) <
        oneByte.store.freeMap.freeCount ∧
      (oneByte.store.inodeReadAt diskLayout 2 oneByte.data 1 0).1 = [7] ∧
      ¬Grown diskLayout 2 1 1 oneByte.store oneByte.data
        (oneByte.store.inodeExpandZeroUnlessDenied diskLayout 2 oneByte.data 0 1 1).2.1
        (oneByte.store.inodeExpandZeroUnlessDenied diskLayout 2 oneByte.data 0 1 1).2.2 :=
  ⟨openFile_oneByte, by decide +kernel, by decide +kernel, by decide +kernel, fun h =>
    absurd (h.kept 1 0 le_rfl) (by decide +kernel)⟩

end Cs162.Filesys.Store
