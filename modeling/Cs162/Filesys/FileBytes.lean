import Mathlib.Order.Interval.Finset.Nat
import Cs162.Filesys.InodeBlocks
import Cs162.Lib.Machine

namespace Cs162.Filesys
open Lib Kernel

structure ByteFile where
  length : ℕ
  bytes : ℕ → UInt8

namespace ByteFile

def ofLength (length : ℕ) : ByteFile := ⟨length, fun _ => 0⟩

def write (f : ByteFile) (buffer : Bytes) (size offset : ℕ) : ByteFile :=
  ⟨max f.length (offset + size), Store.overwrite f.bytes offset size buffer⟩

def read (f : ByteFile) (size offset : ℕ) : List UInt8 :=
  (List.range (min size (f.length - offset))).map fun k => f.bytes (offset + k)

end ByteFile

namespace Store
variable {L : Layout} {s s' : Store} {inode t : Sector} {loc loc' : Place → Option Sector} {m N : ℕ}
  {bytes : ℕ → UInt8}

theorem div_mul_add_mod (offset : ℕ) :
    offset / blockSectorSize * blockSectorSize + offset % blockSectorSize = offset := by
  rw [Nat.mul_comm]
  exact Nat.div_add_mod offset blockSectorSize

theorem div_eq_of_lt {i k : ℕ} (hk : k < blockSectorSize) : (i * blockSectorSize + k) / blockSectorSize = i := by
  rw [Nat.mul_comm, Nat.mul_add_div (by decide), Nat.div_eq_of_lt hk, Nat.add_zero]

theorem mod_eq_of_lt {i k : ℕ} (hk : k < blockSectorSize) : (i * blockSectorSize + k) % blockSectorSize = k := by
  rw [Nat.mul_comm, Nat.mul_add_mod, Nat.mod_eq_of_lt hk]

def byteAt (s : Store) (loc : Place → Option Sector) (p : ℕ) : UInt8 :=
  match loc (.data (p / blockSectorSize)) with
  | some t => s.cache t (p % blockSectorSize)
  | none => 0

theorem byteAt_located {i k : ℕ} (ht : loc (.data i) = some t) (hk : k < blockSectorSize) :
    s.byteAt loc (i * blockSectorSize + k) = s.cache t k := by
  simp only [byteAt, div_eq_of_lt hk, mod_eq_of_lt hk, ht]

theorem byteAt_hole {p : ℕ} (h : loc (.data (p / blockSectorSize)) = none) : s.byteAt loc p = 0 := by
  simp only [byteAt, h]

theorem byteAt_write_of_ne {d : Bytes} (h : ∀ i, loc (.data i) ≠ some t) (p : ℕ) :
    (s.cacheBlockWrite t d).byteAt loc p = s.byteAt loc p := by
  unfold byteAt
  match hu : loc (.data (p / blockSectorSize)) with
  | some u => exact congrFun (cache_write_of_ne fun hut => h _ (hut ▸ hu)) _
  | none => rfl

theorem Extends.byteAt_eq (h : Extends L inode s s' loc loc') (p : ℕ) : s'.byteAt loc' p = s.byteAt loc p := by
  unfold byteAt
  match hl : loc (.data (p / blockSectorSize)) with
  | some t => simp only [h.keep _ t hl, h.data _ t hl]
  | none =>
    match hl' : loc' (.data (p / blockSectorSize)) with
    | some t => simp only [h.zero _ t hl hl', zeros]
    | none => rfl

namespace Sparse
variable {n p : ℕ}

theorem byteAt_past (h : Sparse L s inode loc n) (hp : n * blockSectorSize ≤ p) : s.byteAt loc p = 0 :=
  byteAt_hole (h.data_none ((Nat.le_div_iff_mul_le (by decide)).mpr hp))

theorem byteAt_writeData (h : Sparse L s inode loc n) {i : ℕ} (ht : loc (.data i) = some t) (d : Bytes) (p : ℕ) :
    (s.cacheBlockWrite t d).byteAt loc p =
      if p / blockSectorSize = i then d (p % blockSectorSize) else s.byteAt loc p := by
  unfold byteAt
  split_ifs with hp
  · simp only [hp, ht, cache_write_self]
  · match hu : loc (.data (p / blockSectorSize)) with
    | some u =>
      have hut : u ≠ t := fun hut => hp (Place.data.inj (h.linked.inj _ _ _ hu (hut.symm ▸ ht)))
      exact congrFun (cache_write_of_ne hut) _
    | none => rfl

theorem byteToSector_inside (h : Sparse L s inode loc n) (hs : s.Sized)
    (he : (∃ i < n, loc (.data i) = none) → s.Enough loc n) {pos : ℕ} (hpos : pos / blockSectorSize < n) :
    ∃ t s' loc', s.byteToSector L inode pos = (t, s') ∧ loc' (.data (pos / blockSectorSize)) = some t ∧
      Sparse L s' inode loc' n ∧ Extends L inode s s' loc loc' ∧
      ((∃ i < n, loc' (.data i) = none) → s'.Enough loc' n) ∧
      ((∀ i < n, loc (.data i) ≠ none) → s' = s) := by
  match ht : loc (.data (pos / blockSectorSize)) with
  | some t => exact ⟨t, s, loc, h.byteToSector_located ht, ht, h, .refl, he, fun _ => rfl⟩
  | none =>
    obtain ⟨-, -, -, u, -, s', -, -, -, hbyte, -, -, h', hext, he'⟩ :=
      h.byteToSector_hole hs (he ⟨_, hpos, ht⟩) rfl ht hpos hpos
    exact ⟨u, s', _, hbyte, Function.update_self .., h', hext, fun _ => he', fun hall => absurd ht (hall _ hpos)⟩

theorem readLoop_eq {length : ℕ} (hlen : length ≤ n * blockSectorSize) :
    ∀ fuel (s : Store) loc size offset, Sparse L s inode loc n → s.Sized →
      ((∃ i < n, loc (.data i) = none) → s.Enough loc n) → size ≤ fuel →
      ∃ s', readLoop L inode length fuel s size offset =
          ((List.range (min size (length - offset))).map fun k => s.byteAt loc (offset + k), s') ∧
        ((∀ i < n, loc (.data i) ≠ none) → s' = s) := by
  intro fuel
  induction fuel with
  | zero =>
    intro s loc size offset _ _ _ hsize
    refine ⟨s, ?_, fun _ => rfl⟩
    rw [Nat.le_zero.mp hsize, Nat.zero_min]
    rfl
  | succ fuel ih =>
    intro s loc size offset h hs he hsize
    rw [readLoop]
    by_cases hzero : size = 0
    · rw [if_pos hzero, hzero, Nat.zero_min]
      exact ⟨s, rfl, fun _ => rfl⟩
    rw [if_neg hzero]
    by_cases hm : offset / blockSectorSize < n
    · obtain ⟨t, s1, loc1, hbyte, ht, h1, hext, he1, hsame⟩ := h.byteToSector_inside hs he hm
      simp only [hbyte]
      by_cases hend : length ≤ offset
      · have hchunk : chunkSize length size offset = 0 := by
          rw [chunkSize, Nat.sub_eq_zero_of_le hend, Nat.zero_min, Nat.min_zero]
        have hleft : min size (length - offset) = 0 := by
          rw [Nat.sub_eq_zero_of_le hend, Nat.min_zero]
        rw [if_pos (.inr hchunk), hleft]
        exact ⟨s1, rfl, hsame⟩
      · have hofs : offset % blockSectorSize < blockSectorSize := Nat.mod_lt _ (by decide)
        obtain ⟨c, hc⟩ : ∃ c, chunkSize length size offset = c := ⟨_, rfl⟩
        have hc' := hc
        rw [chunkSize] at hc'
        have hsplit : min size (length - offset) = c + min (size - c) (length - (offset + c)) := by omega
        obtain ⟨s2, hrest, hsame2⟩ := ih s1 loc1 (size - c) (offset + c) h1 (hext.sized hs) he1 (by omega)
        rw [hc, if_neg (not_or.mpr ⟨(h1.valid _ t Place.noConfusion ht).2, by omega⟩), hrest, hsplit,
          List.range_add, List.map_append, List.map_map]
        refine ⟨s2, Prod.ext (congrArg₂ _ (List.map_congr_left fun k hk => ?_)
          (List.map_congr_left fun k _ => ?_)) rfl, fun hall => ?_⟩
        · have hk := List.mem_range.mp hk
          rw [← hext.byteAt_eq, ← byteAt_located ht (by omega), ← Nat.add_assoc, div_mul_add_mod]
        · simp only [Function.comp, hext.byteAt_eq, Nat.add_assoc]
        · have hs1 := hsame hall
          subst hs1
          refine hsame2 fun i hi => ?_
          obtain ⟨u, hu⟩ := Option.ne_none_iff_exists'.mp (hall i hi)
          exact hext.keep _ u hu ▸ Option.some_ne_none u
    · have hpast : n * blockSectorSize ≤ offset :=
        (Nat.le_div_iff_mul_le (by decide)).mp (Nat.not_lt.mp hm)
      have hleft : min size (length - offset) = 0 := by omega
      simp only [h.byteToSector_past (Nat.not_lt.mp hm), hleft, true_or, if_true]
      exact ⟨s, rfl, fun _ => rfl⟩

end Sparse

structure Content (L : Layout) (s : Store) (inode : Sector) (loc : Place → Option Sector) (m N : ℕ)
    (bytes : ℕ → UInt8) : Prop where
  blocks : Blocks L s inode loc m m
  sized : s.Sized
  enough : s.Enough loc N
  data : ∀ i t, loc (.data i) = some t → ∀ k < blockSectorSize, s.cache t k = bytes (i * blockSectorSize + k)
  zero : ∀ p, m * blockSectorSize ≤ p → bytes p = 0

namespace Content

theorem located (h : Content L s inode loc m N bytes) {i : ℕ} (hi : i < m) : ∃ t, loc (.data i) = some t :=
  Option.ne_none_iff_exists'.mp ((h.blocks.data i).mpr hi)

theorem byteAt_eq (h : Content L s inode loc m N bytes) (p : ℕ) : s.byteAt loc p = bytes p := by
  have hmod : p % blockSectorSize < blockSectorSize := Nat.mod_lt _ (by decide)
  unfold byteAt
  match ht : loc (.data (p / blockSectorSize)) with
  | some t => exact (h.data _ t ht _ hmod).trans (congrArg bytes (div_mul_add_mod p))
  | none =>
    refine (h.zero p ((Nat.le_div_iff_mul_le (by decide)).mp ?_)).symm
    exact Nat.not_lt.mp fun hlt => (h.blocks.data _).mpr hlt ht

theorem readLoop_eq (h : Content L s inode loc m N bytes) {length : ℕ} (hlen : length ≤ m * blockSectorSize)
    {fuel size : ℕ} (hsize : size ≤ fuel) (offset : ℕ) :
    readLoop L inode length fuel s size offset =
      ((List.range (min size (length - offset))).map fun k => bytes (offset + k), s) := by
  have hall : ∀ i < m, loc (.data i) ≠ none := fun i hi => (h.blocks.data i).mpr hi
  obtain ⟨s', hread, hsame⟩ := Sparse.readLoop_eq hlen fuel s loc size offset h.blocks.sparse h.sized
    (fun ⟨i, hi, hnone⟩ => absurd hnone (hall i hi)) hsize
  rw [hread, hsame hall]
  simp only [h.byteAt_eq]

theorem extend (h : Content L s inode loc m N bytes) {m' : ℕ} (hb : Blocks L s' inode loc' m' m') (hm : m ≤ m')
    (hext : Extends L inode s s' loc loc') (he : s'.Enough loc' N) : Content L s' inode loc' m' N bytes := by
  refine ⟨hb, hext.sized h.sized, he, fun i t ht k hk => ?_, fun p hp => h.zero p ?_⟩
  · by_cases hi : i < m
    · obtain ⟨u, hu⟩ := h.located hi
      obtain rfl := Option.some.inj ((hext.keep _ u hu).symm.trans ht)
      rw [hext.data i u hu, h.data i u hu k hk]
    · rw [hext.zero i t (h.blocks.data_none (Nat.not_lt.mp hi)) ht, h.zero]
      · rfl
      · exact (Nat.mul_le_mul_right _ (Nat.not_lt.mp hi)).trans (Nat.le_add_right _ k)
  · exact (Nat.mul_le_mul_right _ hm).trans hp

theorem sectorToWrite_eq (h : Content L s inode loc m N bytes) (hmax : N ≤ maxFileSector) {offset : ℕ}
    (hm : offset / blockSectorSize ≤ m) (hN : offset / blockSectorSize < N) :
    ∃ sector s' loc', s.sectorToWrite L inode (L.toInode (s.cache inode)) offset =
        (some sector, s', L.toInode (s'.cache inode)) ∧
      Content L s' inode loc' (max m (offset / blockSectorSize + 1)) N bytes ∧
      loc' (.data (offset / blockSectorSize)) = some sector ∧ Extends L inode s s' loc loc' := by
  obtain hlt | heq := Nat.lt_or_eq_of_le hm
  · obtain ⟨t, ht⟩ := h.located hlt
    refine ⟨t, s, loc, ?_, (Nat.max_eq_left hlt).symm ▸ h, ht, .refl⟩
    rw [sectorToWrite, h.blocks.sparse.byteToSector_located ht]
    exact if_neg (h.blocks.valid _ t Place.noConfusion ht).2
  · obtain ⟨s1, loc1, hexpand, h1, hext1, he1⟩ := h.blocks.inodeExpandSector_eq h.sized h.enough
      (heq ▸ Nat.lt_of_lt_of_le hN hmax) (heq ▸ hN)
    obtain ⟨u, s2, hbyte, h2, hext2, he2⟩ :=
      h1.byteToSector_hole (hext1.sized h.sized) he1 heq (Nat.lt_succ_self m) (heq ▸ hN)
    refine ⟨u, s2, _, ?_, ?_, heq.symm ▸ Function.update_self .., hext1.trans hext2⟩
    · rw [sectorToWrite, h.blocks.sparse.byteToSector_past heq.ge]
      simp only [if_true, heq, hexpand, hbyte]
    · rw [heq, Nat.max_eq_right (Nat.le_succ m)]
      exact h.extend h2 (Nat.le_succ m) (hext1.trans hext2) he2

theorem writeData (h : Content L s inode loc m N bytes) {i : ℕ} (ht : loc (.data i) = some t) {new : Bytes}
    {bytes' : ℕ → UInt8} (hnew : ∀ k < blockSectorSize, new k = bytes' (i * blockSectorSize + k))
    (hother : ∀ p, p / blockSectorSize ≠ i → bytes' p = bytes p) :
    Content L (s.cacheBlockWrite t new) inode loc m N bytes' := by
  have hb := h.blocks
  refine ⟨(hb.sparse.writeData ht new).blocks hb.data hb.le, h.sized.write, h.enough, fun j u hu k hk => ?_,
    fun p hp => ?_⟩
  · by_cases hj : j = i
    · subst hj
      obtain rfl := Option.some.inj (ht.symm.trans hu)
      rw [cache_write_self, hnew k hk]
    · have hut : u ≠ t := fun hut => hj (Place.data.inj (hb.linked.inj _ _ _ hu (hut.symm ▸ ht)))
      rw [cache_write_of_ne hut, h.data j u hu k hk, hother _ ((div_eq_of_lt hk).symm ▸ hj)]
  · have hi : i < m := (hb.data i).mp (ht ▸ Option.some_ne_none t)
    have hdiv : m ≤ p / blockSectorSize := (Nat.le_div_iff_mul_le (by decide)).mpr hp
    rw [hother p (by omega), h.zero p hp]

theorem writeInode (h : Content L s inode loc m N bytes) {d : InodeDisk}
    (hd : d.block = (L.toInode (s.cache inode)).block) :
    Content L (s.cacheBlockWrite inode (L.ofInode d)) inode loc m N bytes := by
  have hb := h.blocks
  refine ⟨(hb.sparse.writeInode hd).blocks hb.data hb.le, h.sized.write, h.enough, fun j u hu k hk => ?_, h.zero⟩
  rw [cache_write_of_ne (hb.sparse.ne_inode Place.noConfusion hu), h.data j u hu k hk]

theorem ne_inode (h : Content L s inode loc m N bytes) {i : ℕ} (ht : loc (.data i) = some t) : inode ≠ t :=
  (h.blocks.sparse.ne_inode Place.noConfusion ht).symm

theorem overwrite_append (old : Bytes) (offset c r : ℕ) (buffer : Bytes) (written : ℕ) :
    overwrite (overwrite old offset c fun k => buffer (written + k)) (offset + c) r
        (fun k => buffer (written + c + k)) =
      overwrite old offset (c + r) fun k => buffer (written + k) := by
  funext p
  unfold overwrite
  by_cases hlow : p < offset + c
  · by_cases hoff : offset ≤ p
    · rw [if_neg (by omega), if_pos (by omega), if_pos (by omega)]
    · rw [if_neg (by omega), if_neg (by omega), if_neg (by omega)]
  · by_cases hhigh : p < offset + c + r
    · rw [if_pos (by omega), if_pos (by omega)]
      exact congrArg buffer (by omega)
    · rw [if_neg (by omega), if_neg (by omega), if_neg (by omega)]

theorem writeChunk (h : Content L s inode loc m N bytes) {offset chunk : ℕ} (new : Bytes)
    (ht : loc (.data (offset / blockSectorSize)) = some t)
    (hchunk : chunk ≤ blockSectorSize - offset % blockSectorSize) :
    Content L (s.cacheBlockWrite t
      (if offset % blockSectorSize = 0 ∧ chunk = blockSectorSize then new
        else overwrite (if 0 < offset % blockSectorSize ∨ chunk < blockSectorSize - offset % blockSectorSize
          then s.cache t else zeros) (offset % blockSectorSize) chunk new))
      inode loc m N (overwrite bytes offset chunk new) := by
  have hoff := div_mul_add_mod offset
  have hmod : offset % blockSectorSize < blockSectorSize := Nat.mod_lt _ (by decide)
  refine h.writeData ht (fun k hk => ?_) fun p hp => ?_
  · have hcache := h.data _ t ht k hk
    generalize offset / blockSectorSize * blockSectorSize = start at hoff hcache ⊢
    have hrange : (offset ≤ start + k ∧ start + k < offset + chunk) ↔
        offset % blockSectorSize ≤ k ∧ k < offset % blockSectorSize + chunk := by omega
    have hsub : start + k - offset = k - offset % blockSectorSize := by omega
    by_cases hfull : offset % blockSectorSize = 0 ∧ chunk = blockSectorSize
    · rw [if_pos hfull, overwrite, if_pos (hrange.mpr (by omega)), hsub, hfull.1]
      rfl
    · rw [if_neg hfull, if_pos (by omega)]
      simp only [overwrite, hrange, hsub, hcache]
  · rw [overwrite, if_neg]
    rintro ⟨hlow, hhigh⟩
    refine hp (Nat.div_eq_of_lt_le ?_ ?_)
    · omega
    · rw [Nat.succ_mul]
      omega

theorem writeLoop_eq (hmax : N ≤ maxFileSector) (buffer : Bytes) :
    ∀ n (s : Store) loc m bytes size offset written, Content L s inode loc m N bytes → size ≤ n →
      offset ≤ m * blockSectorSize → offset + size ≤ N * blockSectorSize →
      offset + size ≤ ((L.toInode (s.cache inode)).length : ℕ) →
      ∃ s' loc', writeLoop L inode buffer n s (L.toInode (s.cache inode)) size offset written =
          (written + size, s', L.toInode (s'.cache inode)) ∧
        Content L s' inode loc' (max m (bytesToSectors (offset + size))) N
          (overwrite bytes offset size fun k => buffer (written + k)) ∧
        Grows s s' loc loc' ∧
        (L.toInode (s'.cache inode)).length = (L.toInode (s.cache inode)).length ∧
        (L.toInode (s'.cache inode)).isDir = (L.toInode (s.cache inode)).isDir := by
  intro n
  have hstop : ∀ (s : Store) loc m bytes offset written, Content L s inode loc m N bytes →
      offset ≤ m * blockSectorSize → Content L s inode loc (max m (bytesToSectors (offset + 0))) N
        (overwrite bytes offset 0 fun k => buffer (written + k)) := by
    intro s loc m bytes offset written h hoff
    have hm : max m (bytesToSectors (offset + 0)) = m := by
      simp only [bytesToSectors, blockSectorSize] at hoff ⊢
      omega
    have hbytes : overwrite bytes offset 0 (fun k => buffer (written + k)) = bytes :=
      funext fun p => if_neg (by omega)
    rwa [hm, hbytes]
  induction n with
  | zero =>
    intro s loc m bytes size offset written h hsize hoff _ _
    obtain rfl := Nat.le_zero.mp hsize
    exact ⟨s, loc, rfl, hstop s loc m bytes offset written h hoff, .refl, rfl, rfl⟩
  | succ n ih =>
    intro s loc m bytes size offset written h hsize hoff hN hlen
    rw [writeLoop]
    by_cases hzero : size = 0
    · subst hzero
      exact ⟨s, loc, rfl, hstop s loc m bytes offset written h hoff, .refl, rfl, rfl⟩
    rw [if_neg hzero]
    have hmod : offset % blockSectorSize < blockSectorSize := Nat.mod_lt _ (by decide)
    have hdivmod := div_mul_add_mod offset
    have hdiv : offset / blockSectorSize ≤ m := Nat.div_le_of_le_mul (by rwa [Nat.mul_comm])
    have hdivN : offset / blockSectorSize < N := (Nat.div_lt_iff_lt_mul (by decide)).mpr (by omega)
    obtain ⟨sector, s1, loc1, hto, h1, ht, hext⟩ := h.sectorToWrite_eq hmax hdiv hdivN
    obtain ⟨c, hc⟩ : ∃ c, chunkSize (L.toInode (s1.cache inode)).length size offset = c := ⟨_, rfl⟩
    have hc' := hc
    rw [chunkSize, hext.length] at hc'
    have hwrite := h1.writeChunk (fun k => buffer (written + k)) ht (show c ≤ _ by omega)
    have hm : max (max m (offset / blockSectorSize + 1)) (bytesToSectors (offset + c + (size - c))) =
        max m (bytesToSectors (offset + size)) := by
      simp only [bytesToSectors, blockSectorSize] at hc' ⊢
      omega
    have hinode := h1.ne_inode ht
    simp only [hto, hc]
    rw [if_neg (by omega)]
    generalize hs2 : s1.cacheBlockWrite sector _ = s2 at hwrite ⊢
    have hcache : s2.cache inode = s1.cache inode := hs2 ▸ cache_write_of_ne hinode
    have hoff' : offset + c ≤ max m (offset / blockSectorSize + 1) * blockSectorSize := by
      refine Nat.le_trans ?_ (Nat.mul_le_mul_right _ (Nat.le_max_right m _))
      rw [Nat.succ_mul]
      omega
    obtain ⟨s3, loc3, hloop, h3, hgrow, hlen3, hdir3⟩ := ih s2 loc1 _ _ (size - c) (offset + c) (written + c) hwrite
      (by omega) hoff' (by omega) (by rw [hcache, hext.length]; omega)
    rw [hm, overwrite_append, Nat.add_sub_cancel' (by omega)] at h3
    refine ⟨s3, loc3, ?_, h3, (hext.toGrows.trans (hs2 ▸ .write ht)).trans hgrow, ?_, ?_⟩
    · rw [← hcache, hloop]
      exact Prod.ext (by omega) rfl
    · rw [hlen3, hcache, hext.length]
    · rw [hdir3, hcache, hext.isDir]

end Content

structure Holds (L : Layout) (s : Store) (inode : Sector) (data : InodeDisk) (loc : Place → Option Sector) (N : ℕ)
    (f : ByteFile) : Prop where
  content : Content L s inode loc (bytesToSectors f.length) N f.bytes
  coherent : data = L.toInode (s.cache inode)
  length : (data.length : ℕ) = f.length

namespace Holds
variable {data : InodeDisk} {f : ByteFile} {size offset : ℕ}

theorem length_le_sectors (length : ℕ) : length ≤ bytesToSectors length * blockSectorSize := by
  simp only [bytesToSectors, blockSectorSize]
  omega

theorem inodeReadAt_eq (h : Holds L s inode data loc N f) :
    s.inodeReadAt L inode data size offset = (f.read size offset, s) := by
  rw [inodeReadAt, h.length]
  exact h.content.readLoop_eq (length_le_sectors f.length) le_rfl offset

theorem inodeWriteAt_eq (h : Holds L s inode data loc N f) (hmax : N ≤ maxFileSector) (buffer : Bytes)
    (hoff : offset ≤ f.length) (hN : offset + size ≤ N * blockSectorSize) :
    ∃ s' data' loc', s.inodeWriteAt L inode data buffer size offset = (size, s', data') ∧
      Holds L s' inode data' loc' N (f.write buffer size offset) ∧ Grows s s' loc loc' ∧
      data'.isDir = data.isDir := by
  have hlt : offset + size < 2 ^ 32 := by
    refine Nat.lt_of_le_of_lt (hN.trans (Nat.mul_le_mul_right _ hmax)) (by decide)
  -- the length is set before the loop
  obtain ⟨s1, d1, hd1, h1, hlen1, hdir1, hgrow1, hset⟩ : ∃ s1 d1, d1 = L.toInode (s1.cache inode) ∧
      Content L s1 inode loc (bytesToSectors f.length) N f.bytes ∧
      (d1.length : ℕ) = max f.length (offset + size) ∧ d1.isDir = data.isDir ∧ Grows s s1 loc loc ∧
      (if (data.length : ℕ) < offset + size then
        (s.cacheBlockWrite inode (L.ofInode (data.setLength (offset + size))), data.setLength (offset + size))
        else (s, data)) = (s1, d1) := by
    by_cases hgrow : (data.length : ℕ) < offset + size
    · refine ⟨_, data.setLength (offset + size), ?_,
        h.content.writeInode (d := data.setLength (offset + size)) ?_, ?_, rfl, .write h.content.blocks.root,
        if_pos hgrow⟩
      · rw [cache_write_self, L.toInode_ofInode]
      · rw [InodeDisk.setLength, h.coherent]
      · rw [h.length] at hgrow
        exact (Nat.mod_eq_of_lt hlt).trans (Nat.max_eq_right hgrow.le).symm
    · refine ⟨s, data, h.coherent, h.content, ?_, rfl, .refl, if_neg hgrow⟩
      rw [h.length] at hgrow ⊢
      exact (Nat.max_eq_left (Nat.not_lt.mp hgrow)).symm
  subst hd1
  obtain ⟨s2, loc2, hloop, h2, hgrow2, hlen2, hdir2⟩ := Content.writeLoop_eq hmax buffer size s1 loc _ _ size offset 0
    h1 le_rfl (hoff.trans (length_le_sectors f.length)) hN (by rw [hlen1]; exact Nat.le_max_right ..)
  have hsectors : max (bytesToSectors f.length) (bytesToSectors (offset + size)) =
      bytesToSectors (max f.length (offset + size)) := by
    simp only [bytesToSectors, blockSectorSize]
    omega
  simp only [hsectors, Nat.zero_add] at h2
  refine ⟨_, _, loc2, ?_, ⟨h2.writeInode (d := L.toInode (s2.cache inode)) rfl, ?_, ?_⟩,
    (hgrow1.trans hgrow2).trans (.write h2.blocks.root), hdir2.trans hdir1⟩
  · rw [inodeWriteAt, if_neg (by rw [h.length]; exact Nat.not_lt.mpr hoff)]
    simp only [hset, hloop, Nat.zero_add]
  · rw [cache_write_self, L.toInode_ofInode]
  · rw [hlen2, hlen1]
    rfl

theorem ofCreate {length n : ℕ} (isDir : Bool) (hs : s.Sized) (hbit : s.freeMap.bits inode = true)
    (hn : bytesToSectors length ≤ n) (hmax : n ≤ maxFileSector)
    (he : (Place.wanted n).card ≤ s.freeMap.freeCount) :
    ∃ s' loc, s.inodeCreate L inode length isDir none = (true, s', none) ∧
      Holds L s' inode (L.toInode (s'.cache inode)) loc n (.ofLength length) ∧
      Grows (s.cacheBlockWrite inode (L.ofInode ⟨Fin.ofNat _ length, isDir, fun _ => noSector⟩)) s'
        (onlyInode inode) loc := by
  have hlen : length ≤ maxFileLen :=
    (length_le_sectors length).trans (Nat.mul_le_mul_right _ (hn.trans hmax))
  obtain ⟨s', loc, hcreate, hb, hext, henough⟩ := inodeCreate_eq (L := L) isDir hs hbit hlen hn hmax he
  refine ⟨s', loc, hcreate, ⟨⟨hb, hext.sized ⟨hs.zero, hs.size⟩, henough, fun i t ht k _ => ?_, fun _ _ => rfl⟩,
    rfl, ?_⟩, hext.toGrows⟩
  · rw [hext.zero i t rfl ht]
    rfl
  · rw [hext.length, cache_write_self, L.toInode_ofInode]
    exact Nat.mod_eq_of_lt (Nat.lt_of_le_of_lt hlen (by decide))

end Holds
end Store

inductive FileCall
  | write (buffer : Bytes) (size offset : ℕ)
  | read (size offset : ℕ)

inductive FileAnswer
  | written (count length : ℕ)
  | bytes (list : List UInt8)
deriving DecidableEq

namespace FileCall

def InRange : FileCall → Prop
  | write _ size offset => offset + size ≤ maxFileLen
  | read size offset => offset + size ≤ maxFileLen

def GapFree (length : ℕ) : FileCall → Prop
  | write _ _ offset => offset ≤ length
  | read _ _ => True

instance : DecidablePred InRange
  | write _ _ _ => inferInstanceAs (Decidable (_ ≤ _))
  | read _ _ => inferInstanceAs (Decidable (_ ≤ _))

instance (length : ℕ) : DecidablePred (GapFree length)
  | write _ _ _ => inferInstanceAs (Decidable (_ ≤ _))
  | read _ _ => isTrue trivial

end FileCall

structure OpenInode where
  store : Store
  data : InodeDisk

def Store.inodeOpen (L : Layout) (s : Store) (inode : Sector) : OpenInode := ⟨s, L.toInode (s.cache inode)⟩

def inodeCalls (L : Layout) (inode : Sector) : Machine OpenInode FileCall FileAnswer where
  step
    | o, .write buffer size offset =>
      let (count, s, data) := o.store.inodeWriteAt L inode o.data buffer size offset
      (.written count data.length, ⟨s, data⟩)
    | o, .read size offset =>
      let (list, s) := o.store.inodeReadAt L inode o.data size offset
      (.bytes list, ⟨s, o.data⟩)

def byteCalls : Machine ByteFile FileCall FileAnswer where
  step
    | f, .write buffer size offset => (.written size (f.write buffer size offset).length, f.write buffer size offset)
    | f, .read size offset => (.bytes (f.read size offset), f)

theorem inodeCalls_eq_byteCalls (L : Layout) (s : Store) (inode : Sector) (length : ℕ) (isDir : Bool)
    (hs : s.Sized) (hbit : s.freeMap.bits inode = true)
    (hfree : maxFileSector + blockSlots + 2 ≤ s.freeMap.freeCount)
    (hcreate : (s.inodeCreate L inode length isDir none).1 = true) (calls : List FileCall)
    (hcalls : ∀ c ∈ calls, c.InRange)
    (hgap : (inodeCalls L inode).Along (fun o c => c.GapFree o.data.length)
      ((s.inodeCreate L inode length isDir none).2.1.inodeOpen L inode) calls) :
    (inodeCalls L inode).outputs ((s.inodeCreate L inode length isDir none).2.1.inodeOpen L inode) calls =
      byteCalls.outputs (.ofLength length) calls := by
  obtain ⟨s', loc, heq, h, -⟩ := Store.Holds.ofCreate (L := L) isDir hs hbit
    (Store.le_maxFileSector_of_inodeCreate hcreate) le_rfl ((Place.card_wanted_le _).trans hfree)
  rw [heq] at hgap ⊢
  refine Machine.outputs_eq_of_along (R := fun o f => ∃ loc, Store.Holds L o.store inode o.data loc maxFileSector f)
    ?_ ⟨loc, h⟩ hcalls hgap
  intro o f c hrange hstart ⟨loc, h⟩
  cases c with
  | write buffer size offset =>
    obtain ⟨s1, data1, loc1, hwrite, h1, -, -⟩ := h.inodeWriteAt_eq le_rfl buffer (h.length ▸ hstart) hrange
    simp only [inodeCalls, byteCalls, hwrite]
    exact ⟨congrArg _ h1.length, loc1, h1⟩
  | read size offset =>
    simp only [inodeCalls, byteCalls, h.inodeReadAt_eq, true_and]
    exact ⟨loc, h⟩

def freshStore (bitCnt : ℕ) : Store := ⟨fun _ => zeros, fun _ => zeros, ⟨bitCnt, fun i => decide (i < 3)⟩⟩

theorem le_freeCount_freshStore (bitCnt : ℕ) : bitCnt - 3 ≤ (freshStore bitCnt).freeMap.freeCount := by
  rw [← Nat.card_Ico]
  refine Finset.card_le_card fun i hi => ?_
  rw [Finset.mem_Ico] at hi
  simp [freshStore, hi.2, hi.1]

theorem inodeCalls_eq_byteCalls_append :
    (inodeCalls diskLayout 2).outputs
        (((freshStore 20000).inodeCreate diskLayout 2 1 false none).2.1.inodeOpen diskLayout 2)
        [.write (fun _ => 7) 2 1, .read 4 0] =
      [.written 2 3, .bytes [0, 7, 7]] :=
  inodeCalls_eq_byteCalls diskLayout (freshStore 20000) 2 1 false ⟨rfl, by decide⟩ rfl
    ((by decide : _ ≤ 20000 - 3).trans (le_freeCount_freshStore 20000)) (by decide +kernel) _ (by decide)
    (by decide +kernel)

theorem gap_write_lost :
    maxFileSector + blockSlots + 2 ≤ (freshStore 20000).freeMap.freeCount ∧
      (inodeCalls diskLayout 2).outputs
          (((freshStore 20000).inodeCreate diskLayout 2 0 false none).2.1.inodeOpen diskLayout 2)
          [.write (fun _ => 7) 1 1, .read 1 1] = [.written 1 2, .bytes [0]] ∧
      byteCalls.outputs (.ofLength 0) [.write (fun _ => 7) 1 1, .read 1 1] = [.written 1 2, .bytes [7]] :=
  ⟨(by decide : _ ≤ 20000 - 3).trans (le_freeCount_freshStore 20000), by decide +kernel, by decide +kernel⟩

end Cs162.Filesys
