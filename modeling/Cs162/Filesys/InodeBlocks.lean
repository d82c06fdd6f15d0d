import Cs162.Filesys.InCore

namespace Cs162.Filesys.Store
open Lib Kernel Function Option

variable {L : Layout} {s : Store} {inode : Sector} {loc : Place → Option Sector} {m n : ℕ}

namespace Sparse
variable {a p : Place} {k N : ℕ} {t u : Sector} {data : InodeDisk}

theorem indirect_eq (h : Sparse L s inode loc n) :
    (L.toInode (s.cache inode)).block indirectBlk = (loc .indirect).getD noSector := h.mapped.indirect_eq

theorem dblIndirect_eq (h : Sparse L s inode loc n) :
    (L.toInode (s.cache inode)).block dblIndirectBlk = (loc .dblIndirect).getD noSector := h.mapped.dblIndirect_eq

theorem byteToSector_located (h : Sparse L s inode loc n) {pos : ℕ}
    (ht : loc (.data (pos / blockSectorSize)) = some t) : s.byteToSector L inode pos = (t, s) :=
  h.mapped.byteToSector_located ht

theorem byteToSector_past (h : Sparse L s inode loc n) {pos : ℕ} (hn : n ≤ pos / blockSectorSize) :
    s.byteToSector L inode pos = (noSector, s) :=
  h.mapped.byteToSector_missing (h.data_none hn) (if_neg (Nat.not_lt.mpr hn))

theorem byteToSector_hole (h : Sparse L s inode loc n) (hs : s.Sized) (he : s.Enough loc N) {pos i : ℕ}
    (hpos : pos / blockSectorSize = i) (hnone : loc (.data i) = none) (hlt : i < n) (hN : i < N) :
    ∃ a k v u s₀ s', Place.cell (.data i) = some (a, k) ∧ loc a = some v ∧ s.freeMapAllocate = some (u, s₀) ∧
      s.byteToSector L inode pos = (u, s') ∧ s' = s.give v u (Place.put L a (s.cache v) k u) zeros ∧
      s.freeMap.bits u = false ∧ Sparse L s' inode (update loc (.data i) (some u)) n ∧
      Extends L inode s s' loc (update loc (.data i) (some u)) ∧
      s'.Enough (update loc (.data i) (some u)) N := by
  have hwanted : Place.data i ∈ Place.wanted N := Place.mem_wanted hN Place.data_mem_needs
  obtain ⟨a, k, hc⟩ := Place.exists_cell (Nat.lt_of_lt_of_le hlt h.bound)
  obtain ⟨v, hv⟩ := ne_none_iff_exists'.mp (h.opened i a k hlt hc)
  obtain ⟨u, halloc, hbit, hltu, hu⟩ := freeMapAllocate_eq hs (he.free hwanted hnone)
  have hptr : Place.ptr L a (s.cache v) k = 0 := by
    rw [h.ptr_eq hc hv, hnone, getD_none, blank, if_pos hlt]
  refine ⟨a, k, v, u, _, _, hc, hv, halloc, ?_, rfl, hbit, h.giveData hlt hc hv hnone hbit hu,
    h.give_extends hc hv hnone hbit, he.give hwanted hnone hltu hbit⟩
  rw [h.mapped.byteToSector_eq (hpos.symm ▸ hc), hv]
  simp only [if_pos hptr, fillHole, inodeAllocZeros, halloc]
  rfl

theorem inCore (h : Sparse L s inode loc n) (hs : s.Sized)
    (hcopy : ∀ slot, data.block slot = (L.toInode (s.cache inode)).block slot ∨
      slot.val < indirectBegin ∧ data.block slot = 0) : InCore L s inode data loc (blank n) := by
  refine ⟨hs, h.mapped, fun c a k hc ha => ?_, fun q k hc => ?_⟩
  · cases c with
    | data i => exact if_neg fun hi => h.opened i a k hi hc ha
    | _ => rfl
  · have hptr : (L.toInode (s.cache inode)).block (blockSlot k) = _ := h.ptr_eq hc h.root
    have hk : (blockSlot k : ℕ) = k := Nat.mod_eq_of_lt (Place.lt_width_of_cell hc)
    rw [← hptr, ← hk]
    exact hk.symm ▸ hcopy (blockSlot k)

theorem remembered_eq (h : Sparse L s inode loc n) :
    remembered (L.toInode (s.cache inode)) loc = loc ∧
      rememberedBlank (L.toInode (s.cache inode)) (blank n) = blank n := by
  have hhole {i : ℕ} (hi : i < indirectBegin ∧ (L.toInode (s.cache inode)).block (blockSlot i) = 0) :
      loc (.data i) = none ∧ blank n (.data i) = 0 := by
    have hc : Place.cell (.data i) = some (.inode, i) := by rw [Place.cell, if_pos hi.1]
    have hptr : (L.toInode (s.cache inode)).block (blockSlot i) = _ := h.ptr_eq hc h.root
    rw [hi.2] at hptr
    rcases hl : loc (.data i) with _ | t
    · rw [hl, getD_none] at hptr
      exact ⟨rfl, hptr.symm⟩
    · rw [hl, getD_some] at hptr
      exact absurd hptr.symm (h.valid _ t Place.noConfusion hl).1
  constructor <;> funext p <;> cases p <;> try rfl
  · rw [remembered]
    split_ifs with hi
    · exact (hhole hi).1.symm
    · rfl
  · rw [rememberedBlank]
    split_ifs with hi
    · exact (hhole hi).2.symm
    · rfl

theorem writeInode_extends (h : Sparse L s inode loc n) :
    Extends L inode s (s.cacheBlockWrite inode (L.ofInode (L.toInode (s.cache inode)))) loc loc := by
  refine ⟨.write h.root, fun i t ht => cache_write_of_ne (h.ne_inode Place.noConfusion ht),
    fun i t hnone hsome => ?_, ?_, ?_⟩
  · cases hnone.symm.trans hsome
  all_goals rw [cache_write_self, L.toInode_ofInode]

theorem inodeExpandSector_eq (h : Sparse L s inode loc n) (hs : s.Sized) (he : s.Enough loc N)
    (hmax : n < maxFileSector) (hN : n < N) :
    ∃ s' loc', s.inodeExpandSector L inode (L.toInode (s.cache inode)) n =
        (true, s', L.toInode (s'.cache inode)) ∧
      Sparse L s' inode loc' (n + 1) ∧ Extends L inode s s' loc loc' ∧ s'.Enough loc' N ∧
      ∀ i, loc' (.data i) = loc (.data i) := by
  have hcore : InCore L s inode (L.toInode (s.cache inode)) loc (blank n) := h.inCore hs fun _ => .inl rfl
  have hway : Place.wayTo n ⊆ Place.wanted N := fun p hp =>
    Place.mem_wanted hN (Place.needs_eq n ▸ Finset.mem_insert_of_mem hp)
  have henough : Place.lacking loc (Place.wanted N) ≤ s.freeMap.freeCount := he
  obtain ⟨s1, loc1, b1, s', data', loc', hlapsed, hexpand, hcore', hgets, hcopy, -⟩ :=
    hcore.inodeExpandSector_eq hmax (h.data_none le_rfl) (if_neg (Nat.lt_irrefl n))
      ((Place.lacking_mono hway).trans henough)
  obtain ⟨rfl, rfl, hext⟩ : loc1 = loc ∧ b1 = blank n ∧ Extends L inode s s1 loc loc := by
    cases hlapsed with
    | kept => exact ⟨rfl, rfl, .refl⟩
    | written => exact ⟨h.remembered_eq.1, h.remembered_eq.2, h.writeInode_extends⟩
  rw [update_blank] at hcore'
  have hm := hcore'.mapped
  have hsame : ∀ i, loc' (.data i) = loc1 (.data i) := fun i =>
    hgets.same _ fun hmem => Place.ne_data_of_mem_wayTo hmem i rfl
  have hkeep : ∀ p, loc1 p ≠ none → loc' p ≠ none := fun p hp => by
    obtain ⟨t, ht⟩ := ne_none_iff_exists'.mp hp
    exact hgets.keep p t ht ▸ some_ne_none t
  have hsparse : Sparse L s' inode loc' (n + 1) := by
    refine ⟨hm.root, hm.linked, fun i hi => ?_, hmax, fun i a k hi hc => ?_, hm.used, hm.valid⟩
    · rw [hsame] at hi
      exact Nat.lt_succ_of_lt (h.data i hi)
    · rcases Nat.lt_succ_iff_lt_or_eq.mp hi with hi | rfl
      · exact hkeep a (h.opened i a k hi hc)
      · exact fun hnone => absurd (hcore'.orphan _ a k hc hnone) (by rw [blank, if_pos (Nat.lt_succ_self i)]; decide)
  have hread : data' = L.toInode (s'.cache inode) := by
    refine InodeDisk.ext ?_ ?_ (hcore'.block_coherent fun j hj => ?_)
    · rw [hgets.length, hext.length, hcopy.length]
    · rw [hgets.isDir, hext.isDir, hcopy.isDir]
    · by_cases hjn : j = n
      · rw [hjn, hcopy.marked (hjn ▸ hj), hsame, h.data_none le_rfl, getD_none, blank,
          if_pos (Nat.lt_succ_self n)]
      · have hc : Place.cell (.data j) = some (.inode, j) := by rw [Place.cell, if_pos hj]
        have hptr : (L.toInode (s.cache inode)).block (blockSlot j) = _ := h.ptr_eq hc h.root
        have hblank : blank (n + 1) (.data j) = blank n (.data j) := by
          rw [← update_blank, update_of_ne fun heq => hjn (Place.data.inj heq)]
        rw [hcopy.direct j hj hjn, hptr, hsame, hblank]
  refine ⟨s', loc', hread ▸ hexpand, hsparse, hext.trans hgets.toExtends, ?_, hsame⟩
  have hrest := Place.lacking_union (Q := Place.wanted N) hgets.located fun p _ hp => by rw [hgets.same p hp]
  rw [Finset.union_eq_right.mpr hway] at hrest
  have hfree := hgets.free
  rw [hlapsed.freeMap] at hfree
  show Place.lacking loc' (Place.wanted N) ≤ _
  omega

end Sparse

namespace Blocks
variable {N : ℕ}

theorem byteToSector_hole (h : Blocks L s inode loc m n) (hs : s.Sized) (he : s.Enough loc N) {pos : ℕ}
    (hpos : pos / blockSectorSize = m) (hlt : m < n) (hN : m < N) :
    ∃ u s', s.byteToSector L inode pos = (u, s') ∧
      Blocks L s' inode (update loc (.data m) (some u)) (m + 1) n ∧
      Extends L inode s s' loc (update loc (.data m) (some u)) ∧
      s'.Enough (update loc (.data m) (some u)) N := by
  obtain ⟨-, -, -, u, -, s', -, -, -, hbyte, -, -, hsparse, hext, henough⟩ :=
    h.sparse.byteToSector_hole hs he hpos (h.data_none le_rfl) hlt hN
  refine ⟨u, s', hbyte, hsparse.blocks (fun i => ?_) hlt, hext, henough⟩
  rw [update_apply]
  split_ifs with hi
  · cases hi
    simp
  · rw [h.data]
    have : i ≠ m := fun him => hi (him ▸ rfl)
    omega

theorem inodeExpandSector_eq (h : Blocks L s inode loc m n) (hs : s.Sized) (he : s.Enough loc N)
    (hmax : n < maxFileSector) (hN : n < N) :
    ∃ s' loc', s.inodeExpandSector L inode (L.toInode (s.cache inode)) n =
        (true, s', L.toInode (s'.cache inode)) ∧
      Blocks L s' inode loc' m (n + 1) ∧ Extends L inode s s' loc loc' ∧ s'.Enough loc' N := by
  obtain ⟨s', loc', hexpand, hsparse, hext, henough, hsame⟩ := h.sparse.inodeExpandSector_eq hs he hmax hN
  exact ⟨s', loc', hexpand, hsparse.blocks (fun i => hsame i ▸ h.data i) (Nat.le_succ_of_le h.le), hext, henough⟩

theorem cacheFlush (h : Blocks L s inode loc m n) (t : Sector) : Blocks L (s.cacheFlush t) inode loc m n :=
  ⟨h.root, h.linked, h.data, h.le, h.bound, h.opened, h.used, h.valid⟩

theorem flushSectors_eq (h : Blocks L s inode loc m n) (hs : s.Sized) (he : s.Enough loc N) (hN : n ≤ N) :
    ∀ j ≤ n, ∃ loc', Blocks L (s.flushSectors L inode j) inode loc' (max m j) n ∧
      Extends L inode s (s.flushSectors L inode j) loc loc' ∧ (s.flushSectors L inode j).Enough loc' N := by
  intro j hj
  induction j with
  | zero => exact ⟨loc, (Nat.max_zero m).symm ▸ h.cacheFlush inode, .cacheFlush, he⟩
  | succ j ih =>
    obtain ⟨loc1, h1, hext1, he1⟩ := ih (Nat.le_of_succ_le hj)
    have hpos : j * blockSectorSize / blockSectorSize = j := Nat.mul_div_cancel j (by decide)
    rw [flushSectors]
    by_cases hjm : j < m
    · obtain ⟨t, ht⟩ := ne_none_iff_exists'.mp ((h1.data j).mpr (by omega))
      have hmax : max m (j + 1) = max m j := by omega
      have hsector : loc1 (.data (j * blockSectorSize / blockSectorSize)) = some t := hpos.symm ▸ ht
      simp only [h1.sparse.byteToSector_located hsector, if_neg (h1.valid _ t Place.noConfusion ht).2]
      exact ⟨loc1, hmax ▸ h1.cacheFlush t, hext1.trans .cacheFlush, he1⟩
    · have hmax : max m j = j := by omega
      have hmax' : max m (j + 1) = j + 1 := by omega
      rw [hmax] at h1
      obtain ⟨u, s2, hbyte, h2, hext2, he2⟩ := h1.byteToSector_hole (hext1.sized hs) he1 hpos hj (by omega)
      have hu := h2.valid (.data j) u Place.noConfusion (update_self _ _ loc1)
      simp only [hbyte, if_neg hu.2]
      exact ⟨_, hmax'.symm ▸ h2.cacheFlush u, (hext1.trans hext2).trans .cacheFlush, he2⟩

theorem expandSectors_eq (h : Blocks L s inode loc 0 0) (hs : s.Sized) (he : s.Enough loc N)
    (hN : N ≤ maxFileSector) :
    ∀ j ≤ N, ∃ s' loc', s.expandSectors L inode (L.toInode (s.cache inode)) j =
        (true, s', L.toInode (s'.cache inode)) ∧
      Blocks L s' inode loc' 0 j ∧ Extends L inode s s' loc loc' ∧ s'.Enough loc' N := by
  intro j hj
  induction j with
  | zero => exact ⟨s, loc, rfl, h, .refl, he⟩
  | succ j ih =>
    obtain ⟨s1, loc1, hexpand, h1, hext1, he1⟩ := ih (Nat.le_of_succ_le hj)
    obtain ⟨s2, loc2, hsector, h2, hext2, he2⟩ :=
      h1.inodeExpandSector_eq (hext1.sized hs) he1 (Nat.lt_of_lt_of_le hj hN) hj
    refine ⟨s2, loc2, ?_, h2, hext1.trans hext2, he2⟩
    rw [expandSectors, hexpand]
    exact hsector

end Blocks

theorem le_maxFileSector_of_expandSectors {data : InodeDisk} :
    ∀ j, (s.expandSectors L inode data j).1 = true → j ≤ maxFileSector
  | 0, _ => Nat.zero_le _
  | j + 1, h => by
    by_contra hlt
    have hmax : ¬j < maxFileSector := fun hj => hlt hj
    have hind : ¬j < dblIndirectBegin := fun hj => hmax (hj.trans (by decide))
    have hdirect : ¬j < indirectBegin := fun hj => hmax (hj.trans (by decide))
    rw [expandSectors] at h
    rcases hprev : s.expandSectors L inode data j with ⟨_ | _, s1, data1⟩
    · simp only [hprev, Bool.false_eq_true] at h
    · simp only [hprev, inodeExpandSector, if_neg hdirect, if_neg hind, if_neg hmax, Bool.false_eq_true] at h

theorem le_maxFileSector_of_inodeCreate {length : ℕ} {isDir : Bool} {opened : Option InodeDisk}
    (h : (s.inodeCreate L inode length isDir opened).1 = true) : bytesToSectors length ≤ maxFileSector := by
  rw [inodeCreate] at h
  split_ifs at h with hzero
  · exact hzero ▸ Nat.zero_le _
  · simp only at h
    split at h
    · rename_i hexpand
      exact le_maxFileSector_of_expandSectors _ (congrArg Prod.fst hexpand)
    · cases h

def onlyInode (inode : Sector) : Place → Option Sector
  | .inode => some inode
  | _ => none

theorem Blocks.ofNew (hbit : s.freeMap.bits inode = true) (length : Fin (2 ^ 32)) (isDir : Bool) :
    Blocks L (s.cacheBlockWrite inode (L.ofInode ⟨length, isDir, fun _ => noSector⟩)) inode (onlyInode inode) 0 0 := by
  have honly : ∀ p t, onlyInode inode p = some t → p = .inode ∧ t = inode := fun p t hp => by
    cases p with
    | inode => exact ⟨rfl, (some.inj hp).symm⟩
    | _ => cases hp
  refine ⟨rfl, ⟨fun c a k t hc ha => ?_, fun a b t ha hb => ?_, fun c a k t hc hct => ?_⟩, fun i => ?_, le_rfl,
    Nat.zero_le _, fun i a k hi => absurd hi (Nat.not_lt_zero i), fun p t hp => ?_, fun p t hne hp => ?_⟩
  · obtain ⟨rfl, rfl⟩ := honly a t ha
    have hnone : (onlyInode t c).getD (blank 0 c) = noSector := by
      cases c with
      | inode => cases hc
      | _ => rfl
    rw [hnone, cache_write_self]
    simp only [blockTree, Place.ptr, L.toInode_ofInode]
  · rw [(honly a t ha).1, (honly b t hb).1]
  · obtain ⟨rfl, -⟩ := honly c t hct
    cases hc
  · exact ⟨fun h => absurd rfl h, fun hi => absurd hi (Nat.not_lt_zero i)⟩
  · obtain ⟨-, rfl⟩ := honly p t hp
    exact hbit
  · exact absurd (honly p t hp).1 hne

theorem missing_onlyInode (n : ℕ) : Place.missing (onlyInode inode) n = (Place.wanted n).card := by
  refine congrArg Finset.card (Finset.filter_true_of_mem fun p hp => ?_)
  obtain ⟨i, -, hi⟩ := Finset.mem_biUnion.mp hp
  cases p with
  | inode =>
    unfold Place.needs at hi
    split_ifs at hi <;> simp at hi
  | _ => rfl

theorem inodeCreate_eq {length : ℕ} (isDir : Bool) (hs : s.Sized) (hbit : s.freeMap.bits inode = true)
    (hlen : length ≤ maxFileLen) (hN : bytesToSectors length ≤ n) (hmax : n ≤ maxFileSector)
    (he : (Place.wanted n).card ≤ s.freeMap.freeCount) :
    ∃ s' loc, s.inodeCreate L inode length isDir none = (true, s', none) ∧
      Blocks L s' inode loc (bytesToSectors length) (bytesToSectors length) ∧
      Extends L inode (s.cacheBlockWrite inode (L.ofInode ⟨Fin.ofNat _ length, isDir, fun _ => noSector⟩)) s'
        (onlyInode inode) loc ∧ s'.Enough loc n := by
  have h := Blocks.ofNew (L := L) hbit (Fin.ofNat _ length) isDir
  have he' : (s.cacheBlockWrite inode (L.ofInode ⟨Fin.ofNat _ length, isDir, fun _ => noSector⟩)).Enough
      (onlyInode inode) n := (missing_onlyInode n).trans_le he
  rw [inodeCreate]
  by_cases hzero : bytesToSectors length = 0
  · rw [hzero, if_pos rfl]
    exact ⟨_, _, rfl, h, .refl, he'⟩
  obtain ⟨s2, loc2, hexpand, h2, hext2, he2⟩ := h.expandSectors_eq ⟨hs.zero, hs.size⟩ he' hmax _ hN
  obtain ⟨loc₃, h₃, hext₃, he₃⟩ := h2.flushSectors_eq (hext2.sized ⟨hs.zero, hs.size⟩) he2 hN _ le_rfl
  have hlength : ((L.toInode (s2.cache inode)).length : ℕ) = length := by
    rw [hext2.length, cache_write_self, L.toInode_ofInode]
    exact Nat.mod_eq_of_lt (Nat.lt_of_le_of_lt hlen (by decide))
  rw [Nat.zero_max] at h₃
  refine ⟨_, loc₃, ?_, h₃, hext2.trans hext₃, he₃⟩
  simp only [if_neg hzero, getD_none, hexpand, inodeFlush, hlength, map_none]
end Cs162.Filesys.Store
