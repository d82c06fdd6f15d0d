import Cs162.Filesys.Sectors

namespace Cs162.Filesys.Store
open Lib Kernel Function Option

variable {L : Layout} {s s' : Store} {inode t u : Sector} {data : InodeDisk} {loc : Place → Option Sector}
  {n N size offset p : ℕ}

structure Shows (L : Layout) (s : Store) (inode : Sector) (loc : Place → Option Sector) (N length : ℕ)
    (bytes : ℕ → UInt8) : Prop where
  blocks : Sparse L s inode loc (bytesToSectors length)
  sized : s.Sized
  enough : s.Enough loc N
  bytes : ∀ p < length, s.byteAt loc p = bytes p

namespace Shows
variable {bytes bytes' : ℕ → UInt8}

theorem congr {length : ℕ} (h : Shows L s inode loc N length bytes)
    (hbytes : ∀ p < length, bytes p = bytes' p) : Shows L s inode loc N length bytes' :=
  ⟨h.blocks, h.sized, h.enough, fun p hp => (h.bytes p hp).trans (hbytes p hp)⟩

theorem inodeReadAt_eq (h : Shows L s inode loc N data.length bytes) (hN : bytesToSectors data.length ≤ N)
    {count pos : ℕ} (hpos : pos + count ≤ data.length) :
    (s.inodeReadAt L inode data count pos).1 = (List.range count).map fun k => bytes (pos + k) := by
  obtain ⟨s', hread, -⟩ := Sparse.readLoop_eq (Holds.length_le_sectors data.length) count s loc count pos
    h.blocks h.sized (fun _ => (Place.missing_le_missing hN fun _ hp => hp).trans h.enough) le_rfl
  have hcount : min count ((data.length : ℕ) - pos) = count := by omega
  rw [inodeReadAt, hread, hcount]
  refine List.map_congr_left fun k hk => h.bytes _ ?_
  have := List.mem_range.mp hk
  omega

end Shows

theorem expandZeroLoop_zero (fuel : ℕ) : expandZeroLoop L inode fuel s data 0 offset = (s, data, offset) := by
  cases fuel <;> rfl

theorem chunkSize_of_le {length : ℕ} (h : offset + size ≤ length) :
    chunkSize length size offset = min size (blockSectorSize - offset % blockSectorSize) := by
  unfold chunkSize
  omega

theorem expandZeroLoop_aligned (hmax : N ≤ maxFileSector) :
    ∀ fuel (s : Store) loc n size, Sparse L s inode loc n → s.Sized → s.Enough loc N → size ≤ fuel →
      n * blockSectorSize + size ≤ N * blockSectorSize →
      n * blockSectorSize + size ≤ (L.toInode (s.cache inode)).length →
      ∃ s' data' loc', expandZeroLoop L inode fuel s (L.toInode (s.cache inode)) size (n * blockSectorSize) =
          (s', data', n * blockSectorSize + size) ∧
        Shows L s' inode loc' N (n * blockSectorSize + size) (s.byteAt loc) := by
  intro fuel
  have hstop : ∀ (fuel : ℕ) (s : Store) loc n, Sparse L s inode loc n → s.Sized → s.Enough loc N →
      ∃ s' data' loc', expandZeroLoop L inode fuel s (L.toInode (s.cache inode)) 0 (n * blockSectorSize) =
          (s', data', n * blockSectorSize + 0) ∧
        Shows L s' inode loc' N (n * blockSectorSize + 0) (s.byteAt loc) := by
    intro fuel s loc n h hs he
    have hn : bytesToSectors (n * blockSectorSize) = n := by
      simp only [bytesToSectors, blockSectorSize]
      omega
    rw [Nat.add_zero]
    exact ⟨s, _, loc, expandZeroLoop_zero fuel, hn.symm ▸ h, hs, he, fun _ _ => rfl⟩
  induction fuel with
  | zero =>
    intro s loc n size h hs he hsize _ _
    obtain rfl := Nat.le_zero.mp hsize
    exact hstop 0 s loc n h hs he
  | succ fuel ih =>
    intro s loc n size h hs he hsize hN hlen
    by_cases hzero : size = 0
    · subst hzero
      exact hstop _ s loc n h hs he
    have hdiv : n * blockSectorSize / blockSectorSize = n := Nat.mul_div_cancel n (by decide)
    have hmod : n * blockSectorSize % blockSectorSize = 0 := Nat.mul_mod_left n blockSectorSize
    have hnN : n < N := by
      simp only [blockSectorSize] at hN
      omega
    obtain ⟨s1, loc1, hexpand, h1, hext1, he1, hsame⟩ :=
      h.inodeExpandSector_eq hs he (Nat.lt_of_lt_of_le hnN hmax) hnN
    have hs1 := hext1.sized hs
    have hchunk : chunkSize (L.toInode (s1.cache inode)).length size (n * blockSectorSize) =
        min size blockSectorSize := by
      rw [hext1.length, chunkSize_of_le hlen, hmod, Nat.sub_zero]
    rw [expandZeroLoop, if_neg hzero]
    simp only [h.byteToSector_past hdiv.ge, if_true, hdiv, hexpand, hmod, hchunk]
    rw [if_neg (by simp only [Bool.true_eq_false, false_or, blockSectorSize]; omega)]
    by_cases hfull : blockSectorSize ≤ size
    · have hmin : min size blockSectorSize = blockSectorSize := Nat.min_eq_right hfull
      have hsucc : n * blockSectorSize + blockSectorSize = (n + 1) * blockSectorSize := (Nat.succ_mul ..).symm
      have htotal : (n + 1) * blockSectorSize + (size - blockSectorSize) = n * blockSectorSize + size := by
        rw [← hsucc]
        omega
      have hpos : 0 < blockSectorSize := by decide
      rw [hmin, if_pos ⟨trivial, rfl⟩, hsucc]
      obtain ⟨s2, data2, loc2, hloop, h2⟩ := ih s1 loc1 (n + 1) (size - blockSectorSize) h1 hs1 he1 (by omega)
        (htotal.trans_le hN) (by rw [hext1.length]; exact htotal.trans_le hlen)
      rw [htotal] at hloop h2
      exact ⟨s2, data2, loc2, hloop, h2.congr fun p _ => hext1.byteAt_eq p⟩
    · have hlt : size < blockSectorSize := Nat.not_le.mp hfull
      have hmin : min size blockSectorSize = size := Nat.min_eq_left hlt.le
      have hnone : loc1 (.data n) = none := (hsame n).trans (h.data_none le_rfl)
      obtain ⟨-, -, -, u, -, s2, -, -, -, hbyte, -, -, h2, hext2, he2⟩ :=
        h1.byteToSector_hole hs1 he1 hdiv hnone (Nat.lt_succ_self n) hnN
      rw [hmin, if_neg (by omega)]
      simp only [true_or, if_true, hbyte, Nat.sub_self, expandZeroLoop_zero]
      have hu : update loc1 (.data n) (some u) (.data n) = some u := update_self ..
      have hn : bytesToSectors (n * blockSectorSize + size) = n + 1 := by
        simp only [bytesToSectors, blockSectorSize] at hlt ⊢
        omega
      refine ⟨_, _, _, rfl, hn.symm ▸ h2.writeData hu _, (hext2.sized hs1).write, he2, fun p hp => ?_⟩
      rw [h2.byteAt_writeData hu]
      by_cases hpn : p / blockSectorSize = n
      · -- the new part of the sector is zeros, as what is past the end was
        have hpast : n * blockSectorSize ≤ p := (Nat.le_div_iff_mul_le (by decide)).mp hpn.ge
        have hofs := div_mul_add_mod p
        rw [hpn] at hofs
        rw [if_pos hpn, h.byteAt_past hpast, overwrite, if_pos (by omega)]
        rfl
      · rw [if_neg hpn, hext2.byteAt_eq, hext1.byteAt_eq]

theorem expandZeroLoop_rest (hmax : N ≤ maxFileSector) {fuel : ℕ}
    (h : Sparse L s inode loc (bytesToSectors offset)) (hs : s.Sized) (he : s.Enough loc N) (hsize : size ≤ fuel)
    (hN : offset + size ≤ N * blockSectorSize)
    (hmore : size = 0 ∨ offset % blockSectorSize = 0 ∧ data = L.toInode (s.cache inode) ∧
      offset + size ≤ data.length) :
    ∃ s' data' loc', expandZeroLoop L inode fuel s data size offset = (s', data', offset + size) ∧
      Shows L s' inode loc' N (offset + size) (s.byteAt loc) := by
  obtain rfl | ⟨hmod, rfl, hlen⟩ := hmore
  · exact ⟨s, data, loc, expandZeroLoop_zero fuel, h, hs, he, fun _ _ => rfl⟩
  · have hoff : bytesToSectors offset * blockSectorSize = offset := by
      simp only [bytesToSectors, blockSectorSize] at hmod ⊢
      omega
    rw [← hoff] at hN hlen ⊢
    exact expandZeroLoop_aligned hmax fuel s loc _ size h hs he hsize hN hlen

theorem expandZeroLoop_partial {fuel : ℕ} {s1 : Store} (hofs : 0 < offset % blockSectorSize) (hsize : 0 < size)
    (hbyte : s.byteToSector L inode offset = (t, s1)) (ht : t ≠ 0 ∧ t ≠ noSector)
    (hlen : offset + size ≤ data.length) {c : ℕ}
    (hc : c = min size (blockSectorSize - offset % blockSectorSize)) :
    expandZeroLoop L inode (fuel + 1) s data size offset =
      expandZeroLoop L inode fuel
        (s1.cacheBlockWrite t (overwrite (s1.disk t) (offset % blockSectorSize) c zeros)) data (size - c)
        (offset + c) := by
  have hmod : offset % blockSectorSize < blockSectorSize := Nat.mod_lt _ (by decide)
  have hcpos : 0 < c := by omega
  rw [expandZeroLoop, if_neg hsize.ne']
  simp only [hbyte, if_neg ht.2, chunkSize_of_le hlen, ← hc]
  rw [if_neg (by simp [hcpos.ne']), if_neg (fun hfull => hofs.ne' hfull.1)]
  simp only [not_or.mpr ⟨ht.2, ht.1⟩, if_false, hofs, true_or, if_true]

theorem Sparse.byteAt_behind (h : Sparse L s inode loc (bytesToSectors offset)) (hle : offset ≤ p)
    (hp : offset % blockSectorSize = 0 ∨ p / blockSectorSize ≠ offset / blockSectorSize) :
    s.byteAt loc p = 0 := by
  refine h.byteAt_past ?_
  simp only [bytesToSectors, blockSectorSize] at *
  omega

theorem Sparse.byteAt_written (h : Sparse L s inode loc (bytesToSectors offset))
    (ht : loc (.data (offset / blockSectorSize)) = some t) (old : Bytes) {c : ℕ}
    (hc : c = min size (blockSectorSize - offset % blockSectorSize)) (hp : p < offset + size) :
    (s.cacheBlockWrite t (overwrite old (offset % blockSectorSize) c zeros)).byteAt loc p =
      if offset ≤ p then 0
      else if p / blockSectorSize = offset / blockSectorSize then old (p % blockSectorSize)
      else s.byteAt loc p := by
  have hpmod : p % blockSectorSize < blockSectorSize := Nat.mod_lt _ (by decide)
  have hpdiv := div_mul_add_mod p
  have hodiv := div_mul_add_mod offset
  rw [h.byteAt_writeData ht]
  by_cases hsame : p / blockSectorSize = offset / blockSectorSize
  · rw [hsame] at hpdiv
    rw [if_pos hsame, if_pos hsame, overwrite]
    by_cases hle : offset ≤ p
    · rw [if_pos hle, if_pos (by omega)]
      rfl
    · rw [if_neg hle, if_neg (by omega)]
  · rw [if_neg hsame, if_neg hsame]
    by_cases hle : offset ≤ p
    · rw [if_pos hle, h.byteAt_behind hle (.inr hsame)]
    · rw [if_neg hle]

theorem expandZeroLoop_inside (hmax : N ≤ maxFileSector) {s1 : Store}
    (hbyte : s.byteToSector L inode offset = (t, s1)) (ht : loc (.data (offset / blockSectorSize)) = some t)
    (h : Sparse L s1 inode loc (bytesToSectors offset)) (hs : s1.Sized) (he : s1.Enough loc N)
    (hofs : 0 < offset % blockSectorSize) (hsize : 0 < size) (hN : offset + size ≤ N * blockSectorSize)
    (hlen : offset + size ≤ data.length)
    (hdata : offset % blockSectorSize + size ≤ blockSectorSize ∨ data = L.toInode (s1.cache inode)) :
    ∃ s' data' loc', expandZeroLoop L inode size s data size offset = (s', data', offset + size) ∧
      Shows L s' inode loc' N (offset + size) fun p =>
        if offset ≤ p then 0
        else if p / blockSectorSize = offset / blockSectorSize then s1.disk t (p % blockSectorSize)
        else s1.byteAt loc p := by
  obtain ⟨c, hc⟩ : ∃ c, c = min size (blockSectorSize - offset % blockSectorSize) := ⟨_, rfl⟩
  obtain ⟨fuel, hfuel⟩ : ∃ fuel, size = fuel + 1 := ⟨size - 1, by omega⟩
  have hsectors : bytesToSectors (offset + c) = bytesToSectors offset := by
    simp only [bytesToSectors, blockSectorSize] at *
    omega
  have hmod : offset % blockSectorSize < blockSectorSize := Nat.mod_lt _ (by decide)
  have htotal : offset + c + (size - c) = offset + size := by omega
  have hinode : (s1.cacheBlockWrite t (overwrite (s1.disk t) (offset % blockSectorSize) c zeros)).cache inode =
      s1.cache inode := cache_write_of_ne (h.ne_inode Place.noConfusion ht).symm
  have hmore : size - c = 0 ∨ (offset + c) % blockSectorSize = 0 ∧
      data = L.toInode ((s1.cacheBlockWrite t
        (overwrite (s1.disk t) (offset % blockSectorSize) c zeros)).cache inode) ∧
      offset + c + (size - c) ≤ data.length := by
    rw [hinode, htotal]
    by_cases hlast : offset % blockSectorSize + size ≤ blockSectorSize
    · exact .inl (by omega)
    · refine .inr ⟨?_, hdata.resolve_left hlast, hlen⟩
      simp only [blockSectorSize] at hc hlast ⊢
      omega
  obtain ⟨s', data', loc', hloop, hshows⟩ := expandZeroLoop_rest hmax
    (hsectors.symm ▸ h.writeData ht (overwrite (s1.disk t) (offset % blockSectorSize) c zeros)) hs.write he
    (show size - c ≤ fuel by omega) (htotal.trans_le hN) hmore
  rw [htotal] at hloop hshows
  refine ⟨s', data', loc', ?_, hshows.congr fun p hp => h.byteAt_written ht _ hc hp⟩
  rw [← hloop, ← expandZeroLoop_partial hofs hsize hbyte (h.valid _ t Place.noConfusion ht) hlen hc, ← hfuel]

theorem inodeExpandSector_rewritten {i : ℕ} (hi : i < indirectBegin ∨
      i = indirectBegin ∧ data.block indirectBlk = noSector ∧ s.freeMapAllocate ≠ none) :
    s.inodeExpandSector L inode data i =
      (s.cacheBlockWrite inode (L.ofInode data)).inodeExpandSector L inode data i := by
  obtain hdirect | ⟨rfl, hblock, hfree⟩ := hi
  · simp only [inodeExpandSector, if_pos hdirect, cacheBlockWrite, update_idem]
  · have hind : indirectBegin < dblIndirectBegin := by decide
    simp only [freeMapAllocate, ne_eq, map_eq_none_iff] at hfree
    obtain ⟨p, hp⟩ := ne_none_iff_exists'.mp hfree
    simp only [inodeExpandSector, if_neg (Nat.lt_irrefl indirectBegin), if_pos hind, openIndex, freeMapAllocate,
      if_neg (not_not_intro hblock), cacheBlockWrite, hp, map_some, update_idem]

theorem expandZeroLoop_rewritten {fuel : ℕ} (hsize : 0 < size) (hle : size ≤ fuel)
    (hbyte : s.byteToSector L inode offset = (noSector, s))
    (hbyte' : (s.cacheBlockWrite inode (L.ofInode data)).byteToSector L inode offset =
      (noSector, s.cacheBlockWrite inode (L.ofInode data)))
    (hi : offset / blockSectorSize < indirectBegin ∨ offset / blockSectorSize = indirectBegin ∧
      data.block indirectBlk = noSector ∧ s.freeMapAllocate ≠ none) :
    expandZeroLoop L inode fuel s data size offset =
      expandZeroLoop L inode fuel (s.cacheBlockWrite inode (L.ofInode data)) data size offset := by
  obtain ⟨fuel, rfl⟩ : ∃ f, fuel = f + 1 := ⟨fuel - 1, by omega⟩
  rw [expandZeroLoop, expandZeroLoop, if_neg hsize.ne', if_neg hsize.ne']
  simp only [hbyte, hbyte', if_true, inodeExpandSector_rewritten hi]

theorem Sparse.forget (h : Sparse L s inode loc n) (hs : s.Sized)
    (he : Place.missing loc N < s.freeMap.freeCount) (hdata : data = L.toInode (s.cache inode))
    (hdirect : p / blockSectorSize < indirectBegin) (hnone : loc (.data (p / blockSectorSize)) = none)
    (hn : p / blockSectorSize < n) (hN : p / blockSectorSize < N) :
    ∃ u s1, s.byteToSector L inode p = (u, s1) ∧ (u ≠ 0 ∧ u ≠ noSector) ∧
      ∀ d s2, s2 = s1.cacheBlockWrite u d →
        (∀ q, n ≤ q / blockSectorSize → s2.byteToSector L inode q = (noSector, s2)) ∧ s2.Sized ∧
        s2.Enough loc N ∧ Sparse L (s2.cacheBlockWrite inode (L.ofInode data)) inode loc n ∧
        ∀ q, (s2.cacheBlockWrite inode (L.ofInode data)).byteAt loc q = s.byteAt loc q := by
  obtain ⟨a, k, v, u, s₀, s1, hcell, hv, halloc, hbyte, hgive, hbit, h1, hext, -⟩ :=
    h.byteToSector_hole hs he.le rfl hnone hn hN
  rw [Place.cell, if_pos hdirect] at hcell
  cases hcell
  obtain rfl := some.inj (h.root.symm.trans hv)
  have hu : update loc (.data (p / blockSectorSize)) (some u) (.data (p / blockSectorSize)) = some u :=
    update_self ..
  have hfresh : ∀ q v, loc q = some v → v ≠ u := fun q v hq hvu => h.ne_of_fresh hbit q (hvu ▸ hq)
  refine ⟨u, s1, hbyte, h1.valid _ u Place.noConfusion hu, fun d s2 hs2 => ?_⟩
  have hother : ∀ q v, loc q = some v → v ≠ inode →
      (s2.cacheBlockWrite inode (L.ofInode data)).cache v = s.cache v := fun q v hq hvi => by
    rw [cache_write_of_ne hvi, hs2, cache_write_of_ne (hfresh q v hq), hgive,
      cache_give_of_ne hvi (hfresh q v hq)]
  have henough : s2.Enough loc N := by
    obtain ⟨u', halloc', -, hlt, -⟩ := freeMapAllocate_eq hs (Nat.zero_lt_of_lt he)
    obtain ⟨rfl, -⟩ := Prod.mk.inj (some.inj (halloc'.symm.trans halloc))
    have hcount := Bitmap.freeCount_setMultiple hlt hbit
    rw [hs2, hgive]
    change _ ≤ (s.freeMap.setMultiple u' 1 true).freeCount
    omega
  have hsparse : Sparse L (s2.cacheBlockWrite inode (L.ofInode data)) inode loc n := by
    refine (h.writeInode (congrArg InodeDisk.block hdata)).frame (fun q v hq => ?_) fun q v hq => ?_
    · by_cases hvi : v = inode
      · rw [hvi, cache_write_self, cache_write_self]
      · rw [hother q v hq hvi, cache_write_of_ne hvi]
    · rw [hs2]
      exact (hext.used v).mpr (.inl (h.used q v hq))
  refine ⟨fun q hq => (hs2 ▸ h1.writeData hu d).byteToSector_past hq, hs2 ▸ (hext.sized hs).write, henough,
    hsparse, fun q => ?_⟩
  unfold byteAt
  rcases hv : loc (.data (q / blockSectorSize)) with _ | v
  · rfl
  · exact congrFun (hother _ v hv (h.ne_inode Place.noConfusion hv)) _

theorem expandZeroLoop_forgotten (hmax : N ≤ maxFileSector) (hdata : data = L.toInode (s.cache inode))
    (h : Sparse L s inode loc (bytesToSectors offset)) (hs : s.Sized)
    (he : Place.missing loc N < s.freeMap.freeCount)
    (hindex : loc .indirect ≠ none → indirectBegin < bytesToSectors offset)
    (hofs : 0 < offset % blockSectorSize) (hdirect : offset / blockSectorSize < indirectBegin)
    (hnone : loc (.data (offset / blockSectorSize)) = none)
    (hmore : blockSectorSize < offset % blockSectorSize + size) (hN : offset + size ≤ N * blockSectorSize)
    (hlen : offset + size ≤ data.length) :
    ∃ s' data' loc', expandZeroLoop L inode size s data size offset = (s', data', offset + size) ∧
      Shows L s' inode loc' N (offset + size) (s.byteAt loc) := by
  have hmod : offset % blockSectorSize < blockSectorSize := Nat.mod_lt _ (by decide)
  have hoff := div_mul_add_mod offset
  obtain ⟨c, hc⟩ : ∃ c, c = blockSectorSize - offset % blockSectorSize := ⟨_, rfl⟩
  obtain ⟨m, hm⟩ : ∃ m, m = offset / blockSectorSize + 1 := ⟨_, rfl⟩
  have hnext : offset + c = m * blockSectorSize := by
    rw [hm, Nat.succ_mul]
    omega
  have hsectors : bytesToSectors offset = m ∧ bytesToSectors (offset + c) = m := by
    simp only [bytesToSectors, blockSectorSize] at *
    omega
  have htotal : offset + c + (size - c) = offset + size := by omega
  have hmN : m < N := by
    simp only [blockSectorSize] at hnext htotal hN hmore hc hmod
    omega
  rw [hsectors.1] at h hindex
  obtain ⟨u, s1, hbyte, hu, hafter⟩ := h.forget hs he hdata hdirect hnone (by omega) (by omega)
  -- the store when the sector behind is to be marked
  obtain ⟨s2, hs2⟩ : ∃ s2, s2 =
      s1.cacheBlockWrite u (overwrite (s1.disk u) (offset % blockSectorSize) c zeros) := ⟨_, rfl⟩
  obtain ⟨hpast, hsized, henough, h2, hbytes⟩ := hafter _ s2 hs2
  have hfirst : m < indirectBegin ∨ m = indirectBegin ∧ data.block indirectBlk = noSector ∧
      s2.freeMapAllocate ≠ none := by
    obtain hlt | heq := Nat.lt_or_eq_of_le (hm.trans_le hdirect)
    · exact .inl hlt
    · have hind : loc .indirect = none := by
        by_contra hsome
        exact (hindex hsome).ne' heq
      have hwanted : Place.indirect ∈ Place.wanted N := Place.mem_wanted hmN (by rw [heq]; decide)
      obtain ⟨_, halloc, -⟩ := freeMapAllocate_eq hsized (henough.free hwanted hind)
      refine .inr ⟨heq, ?_, halloc ▸ some_ne_none _⟩
      rw [hdata, h.indirect_eq, hind, getD_none]
  have hdiv : (offset + c) / blockSectorSize = m := hnext ▸ Nat.mul_div_cancel m (by decide)
  have hrest : (offset + c) % blockSectorSize = 0 := hnext ▸ Nat.mul_mod_left ..
  have hsync : data = L.toInode ((s2.cacheBlockWrite inode (L.ofInode data)).cache inode) := by
    rw [cache_write_self, L.toInode_ofInode]
  obtain ⟨fuel, hfuel⟩ : ∃ fuel, size = fuel + 1 := ⟨size - 1, by omega⟩
  obtain ⟨s', data', loc', hloop, hshows⟩ := expandZeroLoop_rest hmax (hsectors.2.symm ▸ h2) hsized.write henough
    (show size - c ≤ fuel by omega) (htotal.trans_le hN) (.inr ⟨hrest, hsync, htotal.trans_le hlen⟩)
  rw [htotal] at hloop hshows
  refine ⟨s', data', loc', ?_, hshows.congr fun p _ => hbytes p⟩
  calc expandZeroLoop L inode size s data size offset
      = expandZeroLoop L inode fuel s2 data (size - c) (offset + c) := by
        rw [hs2, ← expandZeroLoop_partial hofs (by omega) hbyte hu hlen (by omega), ← hfuel]
    _ = expandZeroLoop L inode fuel (s2.cacheBlockWrite inode (L.ofInode data)) data (size - c) (offset + c) :=
        expandZeroLoop_rewritten (by omega) (by omega) (hpast _ hdiv.ge) (h2.byteToSector_past hdiv.ge)
          (hdiv.symm ▸ hfirst)
    _ = (s', data', offset + size) := hloop

def nextFree (s : Store) : Option Sector := s.freeMapAllocate.map Prod.fst

def Forgets (size offset : ℕ) : Prop :=
  offset / blockSectorSize < indirectBegin ∧ blockSectorSize < offset % blockSectorSize + size

instance : Decidable (Forgets size offset) := inferInstanceAs (Decidable (_ ∧ _))

def lastByte (s : Store) (loc : Place → Option Sector) (size offset k : ℕ) : UInt8 :=
  match loc (.data (offset / blockSectorSize)), s.nextFree with
  | some t, _ => s.disk t k
  | none, some u => if Forgets size offset then 0 else s.disk u k
  | none, none => 0

def bytesAfter (s : Store) (loc : Place → Option Sector) (size offset p : ℕ) : UInt8 :=
  if offset ≤ p then 0
  else if p / blockSectorSize = offset / blockSectorSize then s.lastByte loc size offset (p % blockSectorSize)
  else s.byteAt loc p

theorem nextFree_write {d : Bytes} : (s.cacheBlockWrite t d).nextFree = s.nextFree := by
  simp only [nextFree, freeMapAllocate, map_map]
  rfl

theorem bytesAfter_write {d : Bytes} (h : ∀ i, loc (.data i) ≠ some t) :
    (s.cacheBlockWrite t d).bytesAfter loc size offset p = s.bytesAfter loc size offset p := by
  simp only [bytesAfter, lastByte, byteAt_write_of_ne h, nextFree_write]
  rfl

theorem expandZeroLoop_hole (hmax : N ≤ maxFileSector) (hdata : data = L.toInode (s.cache inode))
    (h : Sparse L s inode loc (bytesToSectors offset)) (hs : s.Sized)
    (he : Place.missing loc N < s.freeMap.freeCount)
    (hindex : loc .indirect ≠ none → indirectBegin < bytesToSectors offset)
    (hofs : 0 < offset % blockSectorSize) (hnone : loc (.data (offset / blockSectorSize)) = none) (hsize : 0 < size)
    (hN : offset + size ≤ N * blockSectorSize) (hlen : offset + size ≤ data.length) :
    ∃ s' data' loc', expandZeroLoop L inode size s data size offset = (s', data', offset + size) ∧
      Shows L s' inode loc' N (offset + size) (s.bytesAfter loc size offset) := by
  have hsector : offset / blockSectorSize < bytesToSectors offset ∧ offset / blockSectorSize < N := by
    simp only [bytesToSectors, blockSectorSize] at *
    omega
  obtain ⟨a, k, v, u, s₀, s1, hcell, hv, halloc, hbyte, hgive, hbit, h1, hext, he1⟩ :=
    h.byteToSector_hole hs he.le rfl hnone hsector.1 hsector.2
  have hnext : s.nextFree = some u := by rw [nextFree, halloc, map_some]
  by_cases hforget : Forgets size offset
  · obtain ⟨s', data', loc', hloop, hshows⟩ := expandZeroLoop_forgotten hmax hdata h hs he hindex hofs hforget.1
      hnone hforget.2 hN hlen
    refine ⟨s', data', loc', hloop, hshows.congr fun p _ => ?_⟩
    simp only [bytesAfter, lastByte, hnone, hnext, if_pos hforget]
    by_cases hsame : p / blockSectorSize = offset / blockSectorSize
    · rw [if_pos hsame, ite_self, byteAt_hole (hsame ▸ hnone)]
    · rw [if_neg hsame]
      by_cases hle : offset ≤ p
      · rw [if_pos hle, h.byteAt_behind hle (.inr hsame)]
      · rw [if_neg hle]
  · have hu : update loc (.data (offset / blockSectorSize)) (some u)
        (.data (offset / blockSectorSize)) = some u := update_self ..
    have hsync : offset % blockSectorSize + size ≤ blockSectorSize ∨ data = L.toInode (s1.cache inode) := by
      obtain hdirect | hlast := Decidable.not_and_iff_not_or_not.mp hforget
      · -- the block is entered in an index block, and not in the inode
        have hai : a ≠ .inode := by
          rintro rfl
          rw [Place.cell, if_neg hdirect] at hcell
          split_ifs at hcell <;> cases hcell
        have hiu : inode ≠ u := fun hiu => h.ne_of_fresh hbit .inode (h.root.trans (congrArg some hiu))
        refine .inr ?_
        rw [hgive, cache_give_of_ne (h.ne_inode hai hv).symm hiu, hdata]
      · exact .inl (Nat.not_lt.mp hlast)
    obtain ⟨s', data', loc', hloop, hshows⟩ := expandZeroLoop_inside hmax hbyte hu h1 (hext.sized hs) he1 hofs
      hsize hN hlen hsync
    refine ⟨s', data', loc', hloop, hshows.congr fun p _ => ?_⟩
    simp only [bytesAfter, lastByte, hnone, hnext, if_neg hforget, hext.byteAt_eq]
    rw [hgive]
    rfl

theorem expandZeroLoop_eq (hmax : N ≤ maxFileSector) (hdata : data = L.toInode (s.cache inode))
    (h : Sparse L s inode loc (bytesToSectors offset)) (hs : s.Sized)
    (he : Place.missing loc N < s.freeMap.freeCount)
    (hindex : loc .indirect ≠ none → indirectBegin < bytesToSectors offset) (hsize : 0 < size)
    (hN : offset + size ≤ N * blockSectorSize) (hlen : offset + size ≤ data.length) :
    ∃ s' data' loc', expandZeroLoop L inode size s data size offset = (s', data', offset + size) ∧
      Shows L s' inode loc' N (offset + size) (s.bytesAfter loc size offset) := by
  by_cases hofs : offset % blockSectorSize = 0
  · obtain ⟨s', data', loc', hloop, hshows⟩ :=
      expandZeroLoop_rest hmax h hs he.le le_rfl hN (.inr ⟨hofs, hdata, hlen⟩)
    refine ⟨s', data', loc', hloop, hshows.congr fun p _ => ?_⟩
    unfold bytesAfter
    by_cases hle : offset ≤ p
    · rw [if_pos hle, h.byteAt_behind hle (.inl hofs)]
    · rw [if_neg hle, if_neg]
      simp only [blockSectorSize] at *
      omega
  · have hofs : 0 < offset % blockSectorSize := Nat.pos_of_ne_zero hofs
    rcases ht : loc (.data (offset / blockSectorSize)) with _ | t
    · exact expandZeroLoop_hole hmax hdata h hs he hindex hofs ht hsize hN hlen
    · obtain ⟨s', data', loc', hloop, hshows⟩ := expandZeroLoop_inside hmax (h.byteToSector_located ht) ht h hs
        he.le hofs hsize hN hlen (.inr hdata)
      refine ⟨s', data', loc', hloop, hshows.congr fun p _ => ?_⟩
      simp only [bytesAfter, lastByte, ht]

theorem expandZeroLoop_le : ∀ fuel (s : Store) (data : InodeDisk) size offset, offset ≤ maxFileLen →
    (expandZeroLoop L inode fuel s data size offset).2.2 ≤ maxFileLen := by
  intro fuel
  induction fuel with
  | zero =>
    intro s data size offset h
    exact h
  | succ fuel ih =>
    intro s data size offset h
    rw [expandZeroLoop]
    by_cases hzero : size = 0
    · rw [if_pos hzero]
      exact h
    rw [if_neg hzero]
    by_cases hsector : offset / blockSectorSize < maxFileSector
    · have hnext : ∀ length, offset + chunkSize length size offset ≤ maxFileLen := fun length => by
        have hoff := div_mul_add_mod offset
        have hmod : offset % blockSectorSize < blockSectorSize := Nat.mod_lt _ (by decide)
        have hle : (offset / blockSectorSize + 1) * blockSectorSize ≤ maxFileLen := Nat.mul_le_mul_right _ hsector
        rw [Nat.succ_mul] at hle
        unfold chunkSize
        omega
      obtain ⟨sector, s1⟩ := s.byteToSector L inode offset
      dsimp only
      generalize (if sector = noSector then s1.inodeExpandSector L inode data (offset / blockSectorSize)
        else (true, s1, data)) = round
      obtain ⟨marked, s2, data2⟩ := round
      dsimp only
      by_cases hstop : marked = false ∨ chunkSize data2.length size offset = 0
      · rw [if_pos hstop]
        exact h
      rw [if_neg hstop]
      by_cases hfull : offset % blockSectorSize = 0 ∧ chunkSize data2.length size offset = blockSectorSize
      · rw [if_pos hfull]
        exact ih _ _ _ _ (hnext _)
      · rw [if_neg hfull]
        exact ih _ _ _ _ (hnext _)
    · -- there is no slot for the sector, so it can be neither found nor marked
      have hind : ¬offset / blockSectorSize < dblIndirectBegin := fun hlt => hsector (hlt.trans (by decide))
      have hdirect : ¬offset / blockSectorSize < indirectBegin := fun hlt => hsector (hlt.trans (by decide))
      simp only [byteToSector, inodeExpandSector, if_neg hdirect, if_neg hind, if_neg hsector, if_true, true_or]
      exact h

end Cs162.Filesys.Store
