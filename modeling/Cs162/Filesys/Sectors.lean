import Cs162.Filesys.FileBytes

namespace Cs162.Filesys
open Lib Kernel Option

namespace Place

def depth : Place → ℕ
  | inode => 0
  | indirect | dblIndirect => 1
  | leaf _ => 2
  | data _ => 3

theorem depth_lt_of_cell {c a : Place} {k : ℕ} (h : cell c = some (a, k)) : depth a < depth c := by
  cases c with
  | inode => cases h
  | indirect | dblIndirect | leaf =>
    cases h
    simp [depth]
  | data i =>
    simp only [cell] at h
    split_ifs at h <;> cases h <;> simp [depth]

theorem wanted_subset {m n : ℕ} (h : m ≤ n) : wanted m ⊆ wanted n :=
  Finset.biUnion_subset_biUnion_of_subset_left _ (Finset.range_subset_range.mpr h)

theorem missing_le_missing {loc loc' : Place → Option Sector} {m n : ℕ} (h : m ≤ n)
    (hloc : ∀ p, loc p = none → loc' p = none) : missing loc m ≤ missing loc' n := by
  apply Finset.card_le_card
  intro p hp
  rw [Finset.mem_filter] at hp ⊢
  exact ⟨wanted_subset h hp.1, hloc p hp.2⟩

theorem card_wanted_succ_le (n : ℕ) : (wanted (n + 1)).card ≤ (wanted n).card + 3 := by
  have hneeds : (needs n).card ≤ 3 := by
    unfold needs
    split_ifs
    · exact (Finset.card_singleton _).trans_le (by decide)
    · exact Finset.card_le_two.trans (by decide)
    · exact Finset.card_le_three
  rw [wanted, Finset.range_add_one, Finset.biUnion_insert, Nat.add_comm]
  exact (Finset.card_union_le ..).trans (Nat.add_le_add_right hneeds _)

theorem le_missing {loc : Place → Option Sector} {m k : ℕ} (h : ∀ i, m ≤ i → loc (data i) = none) :
    k ≤ missing loc (m + k) := by
  have hsub : (Finset.Ico m (m + k)).image data ⊆ (wanted (m + k)).filter fun p => loc p = none := by
    intro p hp
    obtain ⟨i, hi, rfl⟩ := Finset.mem_image.mp hp
    rw [Finset.mem_Ico] at hi
    exact Finset.mem_filter.mpr ⟨mem_wanted hi.2 data_mem_needs, h i hi.1⟩
  have hcard := Finset.card_le_card hsub
  rwa [Finset.card_image_of_injective _ fun i j hij => Place.data.inj hij, Nat.card_Ico,
    Nat.add_sub_cancel_left] at hcard

end Place

namespace Store

def target (L : Layout) (s : Store) (a : Place) (t : Sector) (k : ℕ) : Option Sector :=
  if Place.ptr L a (s.cache t) k = 0 ∨ Place.ptr L a (s.cache t) k = noSector then none
  else some (Place.ptr L a (s.cache t) k)

def sectorVia (L : Layout) (s : Store) (inode : Sector) : ℕ → Place → Option Sector
  | 0, p => if p = .inode then some inode else none
  | n + 1, p =>
    match Place.cell p with
    | none => if p = .inode then some inode else none
    | some (a, k) => (s.sectorVia L inode n a).bind fun t => s.target L a t k

def sectorAt (L : Layout) (s : Store) (inode : Sector) (p : Place) : Option Sector := s.sectorVia L inode 3 p

def sectors (L : Layout) (s : Store) (inode : Sector) : ℕ := bytesToSectors (L.toInode (s.cache inode)).length

variable {L : Layout} {s s' : Store} {f g t u : Sector} {loc : Place → Option Sector} {m n : ℕ}

@[simp] theorem sectorAt_inode : s.sectorAt L f .inode = some f := rfl

namespace Mapped
variable {b : Place → Sector}

theorem target_eq (h : Mapped L s f loc b) {p a : Place} {k : ℕ} (hc : Place.cell p = some (a, k))
    (ha : loc a = some t) : s.target L a t k = loc p := by
  have hp : p ≠ .inode := by
    rintro rfl
    cases hc
  rw [target, h.ptr_eq hc ha]
  rcases hl : loc p with _ | u
  · refine if_pos ?_
    rw [getD_none]
    exact (h.blank p).symm.imp_left And.left
  · exact if_neg (not_or.mpr (h.valid p u hp hl))

theorem sectorAt_eq (h : Mapped L s f loc b) : s.sectorAt L f = loc := by
  have hvia : ∀ n p, Place.depth p ≤ n → s.sectorVia L f n p = loc p := by
    intro n
    induction n with
    | zero =>
      intro p hp
      cases p with
      | inode => exact h.root.symm
      | _ => simp [Place.depth] at hp
    | succ n ih =>
      intro p hp
      rw [sectorVia]
      rcases hc : Place.cell p with _ | ⟨a, k⟩
      · cases p with
        | inode => exact h.root.symm
        | data i =>
          refine Eq.symm ?_
          by_contra hsome
          obtain ⟨a, k, hc'⟩ := Place.exists_cell (h.bound i hsome)
          rw [hc] at hc'
          cases hc'
        | _ => cases hc
      · have ha := ih a (Nat.le_of_lt_succ (Nat.lt_of_lt_of_le (Place.depth_lt_of_cell hc) hp))
        simp only [ha]
        rcases hl : loc a with _ | t
        · rcases hlp : loc p with _ | u
          · rfl
          · exact absurd hl (h.up hc hlp)
        · exact h.target_eq hc hl
  funext p
  exact hvia 3 p (by cases p <;> simp [Place.depth])

end Mapped

namespace Blocks

theorem sectorAt_eq (h : Blocks L s f loc m n) : s.sectorAt L f = loc := h.sparse.mapped.sectorAt_eq

theorem frame (h : Blocks L s f loc m n) (hcache : ∀ p t, loc p = some t → s'.cache t = s.cache t)
    (hused : ∀ p t, loc p = some t → s'.freeMap.bits t = true) : Blocks L s' f loc m n :=
  (h.sparse.frame hcache hused).blocks h.data h.le

theorem located_of_mem_wanted (h : Blocks L s f loc m n) {p : Place} (hp : p ∈ Place.wanted m) : loc p ≠ none := by
  obtain ⟨i, hi, hp⟩ := Finset.mem_biUnion.mp hp
  have hdata := (h.data i).mpr (Finset.mem_range.mp hi)
  obtain ⟨t, ht⟩ := ne_none_iff_exists'.mp hdata
  have hlt := Nat.lt_of_lt_of_le (Finset.mem_range.mp hi) (h.le.trans h.bound)
  unfold Place.needs at hp
  split_ifs at hp with hdirect hind
  · rw [Finset.mem_singleton.mp hp]
    exact hdata
  · rw [Finset.mem_insert, Finset.mem_singleton] at hp
    obtain rfl | rfl := hp
    · exact h.sparse.up (p := .data i) (by rw [Place.cell, if_neg hdirect, if_pos hind]) ht
    · exact hdata
  · have hleaf : loc (.leaf (indexSlot ((i - dblIndirectBegin) / blockSlots))) ≠ none :=
      h.sparse.up (p := .data i) (by rw [Place.cell, if_neg hdirect, if_neg hind, if_pos hlt]) ht
    rw [Finset.mem_insert, Finset.mem_insert, Finset.mem_singleton] at hp
    obtain rfl | rfl | rfl := hp
    · obtain ⟨u, hu⟩ := ne_none_iff_exists'.mp hleaf
      exact h.sparse.up (p := .leaf _) rfl hu
    · exact hleaf
    · exact hdata

theorem missing_le (h : Blocks L s f loc m n) {N : ℕ} (hN : m ≤ N) :
    Place.missing loc N + (Place.wanted m).card ≤ (Place.wanted N).card := by
  have hsub : ((Place.wanted N).filter fun p => loc p = none) ⊆ Place.wanted N \ Place.wanted m := by
    intro p hp
    rw [Finset.mem_filter] at hp
    exact Finset.mem_sdiff.mpr ⟨hp.1, fun hm => h.located_of_mem_wanted hm hp.2⟩
  have hcard := Finset.card_le_card hsub
  rw [Finset.card_sdiff_of_subset (Place.wanted_subset hN)] at hcard
  have hle := Finset.card_le_card (Place.wanted_subset hN)
  change (Finset.filter _ _).card + _ ≤ _
  omega

theorem exists_content (h : Blocks L s f loc m m) (hs : s.Sized) {N : ℕ} (he : s.Enough loc N) :
    ∃ bytes, Content L s f loc m N bytes := by
  exact ⟨s.byteAt loc, h, hs, he, fun i t ht k hk => (byteAt_located ht hk).symm, fun p => h.sparse.byteAt_past⟩

end Blocks

structure Laid (L : Layout) (s : Store) (live spare : Set Sector) : Prop where
  sized : s.Sized
  blocks : ∀ f ∈ live, Blocks L s f (s.sectorAt L f) (s.sectors L f) (s.sectors L f)
  once : ∀ f ∈ live, ∀ g ∈ live, ∀ p q t, s.sectorAt L f p = some t → s.sectorAt L g q = some t → f = g ∧ p = q
  apart : ∀ f ∈ live, ∀ p t, s.sectorAt L f p = some t → t ∉ spare
  used : ∀ t : Sector, s.freeMap.bits t = true ↔ t ∈ spare ∨ ∃ f ∈ live, ∃ p, s.sectorAt L f p = some t

namespace Laid
variable {live spare : Set Sector} {p : Place}

theorem bits (h : Laid L s live spare) (hf : f ∈ live) (ht : s.sectorAt L f p = some t) :
    s.freeMap.bits t = true := (h.used t).mpr (.inr ⟨f, hf, p, ht⟩)

theorem ne_of_free (h : Laid L s live spare) (hf : f ∈ live) (hbit : s.freeMap.bits t = false) : f ≠ t := by
  rintro rfl
  rw [h.bits hf sectorAt_inode] at hbit
  cases hbit

theorem keep {live' spare' : Set Sector} (h : Laid L s live spare) (hlive : live' ⊆ live) (hs : s'.Sized)
    (hcache : ∀ g ∈ live', ∀ p t, s.sectorAt L g p = some t → s'.cache t = s.cache t)
    (hspare : ∀ g ∈ live', ∀ p t, s.sectorAt L g p = some t → t ∉ spare')
    (hused : ∀ t : Sector, s'.freeMap.bits t = true ↔
      t ∈ spare' ∨ ∃ g ∈ live', ∃ p, s.sectorAt L g p = some t) : Laid L s' live' spare' := by
  have hframe : ∀ g ∈ live', Blocks L s' g (s.sectorAt L g) (s.sectors L g) (s.sectors L g) := fun g hg =>
    (h.blocks g (hlive hg)).frame (hcache g hg) fun p t ht => (hused t).mpr (.inr ⟨g, hg, p, ht⟩)
  have hat : ∀ g ∈ live', s'.sectorAt L g = s.sectorAt L g := fun g hg => (hframe g hg).sectorAt_eq
  refine ⟨hs, fun g hg => ?_, fun g hg k hk => ?_, fun g hg => ?_, fun t => ?_⟩
  · have hsectors : s'.sectors L g = s.sectors L g := by
      rw [sectors, hcache g hg .inode g sectorAt_inode, ← sectors]
    rw [hat g hg, hsectors]
    exact hframe g hg
  · rw [hat g hg, hat k hk]
    exact h.once g (hlive hg) k (hlive hk)
  · rw [hat g hg]
    exact hspare g hg
  · refine (hused t).trans (or_congr_right (exists_congr fun g => and_congr_right fun hg => ?_))
    rw [hat g hg]

theorem congr (h : Laid L s live spare) (hcache : s'.cache = s.cache) (hmap : s'.freeMap = s.freeMap) :
    Laid L s' live spare :=
  h.keep subset_rfl ⟨hmap ▸ h.sized.zero, hmap ▸ h.sized.size⟩ (fun _ _ _ _ _ => hcache ▸ rfl) h.apart
    (hmap ▸ h.used)

theorem grow (h : Laid L s live spare) {old new : Place → Option Sector}
    (hold : ∀ p t, old p = some t ↔ f ∈ live ∧ s.sectorAt L f p = some t ∨ f ∈ spare ∧ p = .inode ∧ t = f)
    (hb : Blocks L s' f new (s'.sectors L f) (s'.sectors L f)) (hg : Grows s s' old new) :
    Laid L s' (insert f live) (spare \ {f}) := by
  have hnew : s'.sectorAt L f = new := hb.sectorAt_eq
  have hkept : ∀ q t, new q = some t → old q = some t ∨ old q = none ∧ s.freeMap.bits t = false := fun q t hq => by
    rcases hl : old q with _ | u
    · exact .inr ⟨rfl, hg.fresh q t hl hq⟩
    · exact .inl (congrArg some (some.inj ((hg.keep q u hl).symm.trans hq)))
  have hunused : ∀ {t : Sector}, s.freeMap.bits t = false →
      t ∉ spare ∧ ∀ g ∈ live, ∀ p, s.sectorAt L g p ≠ some t := fun {t} hbit =>
    ⟨fun ht => Bool.noConfusion (hbit.symm.trans ((h.used t).mpr (.inl ht))),
      fun g hgl p ht => Bool.noConfusion (hbit.symm.trans (h.bits hgl ht))⟩
  -- the blocks of the other inodes are neither written nor taken
  have hsep : ∀ g ∈ live, g ≠ f → ∀ p t, s.sectorAt L g p = some t → ∀ q, new q ≠ some t := by
    intro g hgl hne p t ht q hq
    obtain hq | ⟨-, hbit⟩ := hkept q t hq
    · obtain ⟨hfl, hq⟩ | ⟨hfs, -, rfl⟩ := (hold q t).mp hq
      · exact hne (h.once g hgl f hfl p q t ht hq).1
      · exact h.apart g hgl p t ht hfs
    · exact (hunused hbit).2 g hgl p ht
  have hother : ∀ g ∈ live, g ≠ f → Blocks L s' g (s.sectorAt L g) (s.sectors L g) (s.sectors L g) :=
    fun g hgl hne => (h.blocks g hgl).frame (fun p t ht => hg.frame t (hsep g hgl hne p t ht))
      fun p t ht => (hg.used t).mpr (.inl (h.bits hgl ht))
  have hat : ∀ g ∈ live, g ≠ f → s'.sectorAt L g = s.sectorAt L g := fun g hgl hne => (hother g hgl hne).sectorAt_eq
  have hsectors : ∀ g ∈ live, g ≠ f → s'.sectors L g = s.sectors L g := fun g hgl hne => by
    rw [sectors, hg.frame g (hsep g hgl hne .inode g sectorAt_inode), ← sectors]
  refine ⟨hg.sized h.sized, fun g hgl => ?_, fun g hgl k hkl p q t hp hq => ?_, fun g hgl p t hp hts => ?_, fun t => ?_⟩
  · by_cases hne : g = f
    · rw [hne, hnew]
      exact hb
    · have hgl := Set.mem_of_mem_insert_of_ne hgl hne
      rw [hat g hgl hne, hsectors g hgl hne]
      exact hother g hgl hne
  · by_cases hgf : g = f <;> by_cases hkf : k = f
    · subst hgf hkf
      rw [hnew] at hp hq
      exact ⟨rfl, hb.linked.inj p q t hp hq⟩
    · have hkl := Set.mem_of_mem_insert_of_ne hkl hkf
      rw [hgf, hnew] at hp
      rw [hat k hkl hkf] at hq
      exact absurd hp (hsep k hkl hkf q t hq p)
    · have hgl := Set.mem_of_mem_insert_of_ne hgl hgf
      rw [hkf, hnew] at hq
      rw [hat g hgl hgf] at hp
      exact absurd hq (hsep g hgl hgf p t hp q)
    · have hgl := Set.mem_of_mem_insert_of_ne hgl hgf
      have hkl := Set.mem_of_mem_insert_of_ne hkl hkf
      rw [hat g hgl hgf] at hp
      rw [hat k hkl hkf] at hq
      exact h.once g hgl k hkl p q t hp hq
  · by_cases hgf : g = f
    · rw [hgf, hnew] at hp
      obtain hp | ⟨-, hbit⟩ := hkept p t hp
      · obtain ⟨hfl, hp⟩ | ⟨-, -, htf⟩ := (hold p t).mp hp
        · exact h.apart f hfl p t hp hts.1
        · exact hts.2 htf
      · exact (hunused hbit).1 hts.1
    · have hgl := Set.mem_of_mem_insert_of_ne hgl hgf
      rw [hat g hgl hgf] at hp
      exact h.apart g hgl p t hp hts.1
  · rw [hg.used, h.used]
    constructor
    · rintro ((hts | ⟨g, hgl, p, hp⟩) | ⟨p, -, hp⟩)
      · by_cases htf : t = f
        · exact .inr ⟨f, Set.mem_insert .., .inode, htf ▸ sectorAt_inode⟩
        · exact .inl ⟨hts, htf⟩
      · refine .inr ⟨g, Set.mem_insert_of_mem f hgl, p, ?_⟩
        by_cases hgf : g = f
        · subst hgf
          rw [hnew]
          exact hg.keep p t ((hold p t).mpr (.inl ⟨hgl, hp⟩))
        · rw [hat g hgl hgf, hp]
      · exact .inr ⟨f, Set.mem_insert .., p, hnew ▸ hp⟩
    · rintro (hts | ⟨g, hgl, p, hp⟩)
      · exact .inl (.inl hts.1)
      · by_cases hgf : g = f
        · rw [hgf, hnew] at hp
          obtain hp' | ⟨hnone, -⟩ := hkept p t hp
          · obtain ⟨hfl, hp'⟩ | ⟨hfs, -, rfl⟩ := (hold p t).mp hp'
            · exact .inl (.inr ⟨f, hfl, p, hp'⟩)
            · exact .inl (.inl hfs)
          · exact .inr ⟨p, hnone, hp⟩
        · have hgl := Set.mem_of_mem_insert_of_ne hgl hgf
          rw [hat g hgl hgf] at hp
          exact .inl (.inr ⟨g, hgl, p, hp⟩)

theorem free (h : Laid L s live spare) (hf : f ∈ live) (hzero : 0 ∈ live) (hne : f ≠ 0)
    (hcache : s'.cache = s.cache) (hcnt : s'.freeMap.bitCnt = s.freeMap.bitCnt)
    (hbits : ∀ t : Sector, s'.freeMap.bits t = true ↔ s.freeMap.bits t = true ∧ ∀ p, s.sectorAt L f p ≠ some t) :
    Laid L s' (live \ {f}) spare := by
  have hkeep : ∀ g ∈ live \ {f}, ∀ p t, s.sectorAt L g p = some t → s'.freeMap.bits t = true := fun g hg p t ht =>
    (hbits t).mpr ⟨h.bits hg.1 ht, fun q hq => hg.2 (h.once g hg.1 f hf p q t ht hq).1⟩
  refine h.keep (fun g hg => hg.1) ⟨hkeep 0 ⟨hzero, hne.symm⟩ .inode 0 sectorAt_inode, hcnt ▸ h.sized.size⟩
    (fun _ _ _ _ _ => hcache ▸ rfl) (fun g hg => h.apart g hg.1) fun t => ⟨fun hbit => ?_, ?_⟩
  · obtain ⟨hbit, hnot⟩ := (hbits t).mp hbit
    obtain hts | ⟨g, hg, p, hp⟩ := (h.used t).mp hbit
    · exact .inl hts
    · refine .inr ⟨g, ⟨hg, ?_⟩, p, hp⟩
      rintro rfl
      exact hnot p hp
  · rintro (hts | ⟨g, hg, p, hp⟩)
    · exact (hbits t).mpr ⟨(h.used t).mpr (.inl hts), fun p hp => h.apart f hf p t hp hts⟩
    · exact hkeep g hg p t hp

end Laid

theorem freeMapRelease_eq_some (h : s.freeMapRelease t = some s') : s'.cache = s.cache ∧
    s'.freeMap.bitCnt = s.freeMap.bitCnt ∧
    ∀ u : Sector, s'.freeMap.bits u = true ↔ s.freeMap.bits u = true ∧ u ≠ t := by
  unfold freeMapRelease at h
  split_ifs at h
  cases h
  refine ⟨rfl, rfl, fun u => ?_⟩
  rw [Bitmap.bits_setMultiple_one]
  split_ifs with hu
  · simp [Fin.ext hu]
  · simp [Fin.ext_iff, hu]

theorem releaseBlocks_eq_some {data : InodeDisk} : ∀ {i : ℕ} {s' : Store}, s.releaseBlocks data i = some s' →
    s'.cache = s.cache ∧ s'.freeMap.bitCnt = s.freeMap.bitCnt ∧ ∀ u : Sector, s'.freeMap.bits u = true ↔
      s.freeMap.bits u = true ∧ ∀ j < i, data.block (blockSlot j) = 0 ∨ u ≠ data.block (blockSlot j)
  | 0, s', h => by
    cases h
    simp
  | i + 1, s', h => by
    obtain ⟨s₁, hs₁, h⟩ := bind_eq_some_iff.mp h
    obtain ⟨hcache, hcnt, hbits⟩ := releaseBlocks_eq_some hs₁
    have hsplit : ∀ P : ℕ → Prop, (∀ j < i + 1, P j) ↔ (∀ j < i, P j) ∧ P i := fun P => by
      simp only [Nat.lt_succ_iff_lt_or_eq, or_imp, forall_and, forall_eq]
    split_ifs at h with hzero
    · cases h
      refine ⟨hcache, hcnt, fun u => ?_⟩
      rw [hbits, hsplit, and_iff_left (Or.inl hzero)]
    · obtain ⟨hcache', hcnt', hbits'⟩ := freeMapRelease_eq_some h
      refine ⟨hcache'.trans hcache, hcnt'.trans hcnt, fun u => ?_⟩
      rw [hbits', hbits, hsplit, and_assoc, or_iff_right hzero]

theorem inodeRelease_eq_some {data : InodeDisk} (h : s.inodeRelease f data = some s') :
    bytesToSectors data.length ≤ indirectBegin ∧ s'.cache = s.cache ∧ s'.freeMap.bitCnt = s.freeMap.bitCnt ∧
      ∀ u : Sector, s'.freeMap.bits u = true ↔ s.freeMap.bits u = true ∧ u ≠ f ∧
        ∀ j < bytesToSectors data.length, data.block (blockSlot j) = 0 ∨ u ≠ data.block (blockSlot j) := by
  unfold inodeRelease at h
  split_ifs at h with hle
  obtain ⟨s₁, hs₁, h⟩ := bind_eq_some_iff.mp h
  obtain ⟨hcache, hcnt, hbits⟩ := freeMapRelease_eq_some hs₁
  obtain ⟨hcache', hcnt', hbits'⟩ := releaseBlocks_eq_some h
  refine ⟨hle, hcache'.trans hcache, hcnt'.trans hcnt, fun u => ?_⟩
  rw [hbits', hbits, and_assoc]

namespace Laid
variable {live spare : Set Sector} {data : InodeDisk}

theorem allocate (h : Laid L s live spare) (hpos : 0 < s.freeMap.freeCount) :
    ∃ f s₁, s.freeMapAllocate = some (f, s₁) ∧ s.freeMap.bits f = false ∧ Laid L s₁ live (insert f spare) ∧
      s₁.cache = s.cache ∧ s₁.freeMap.freeCount + 1 = s.freeMap.freeCount := by
  obtain ⟨u, halloc, hbit, hlt, -⟩ := freeMapAllocate_eq h.sized hpos
  have hbits : ∀ t : Sector, (s.freeMap.setMultiple u 1 true).bits t = true ↔ s.freeMap.bits t = true ∨ t = u := by
    intro t
    rw [Bitmap.bits_setMultiple_one]
    split_ifs with htu
    · simp [Fin.ext htu]
    · simp [Fin.ext_iff, htu]
  refine ⟨u, _, halloc, hbit, h.keep subset_rfl ⟨(hbits 0).mpr (.inl h.sized.zero), h.sized.size⟩
    (fun _ _ _ _ _ => rfl) (fun f hf p t ht => ?_) fun t => ?_, rfl, Bitmap.freeCount_setMultiple hlt hbit⟩
  · rintro (rfl | hts)
    · exact Bool.noConfusion (hbit.symm.trans (h.bits hf ht))
    · exact h.apart f hf p t ht hts
  · change (s.freeMap.setMultiple u 1 true).bits t = true ↔ _
    rw [hbits, h.used, Set.mem_insert_iff]
    grind

theorem writeSpare (h : Laid L s live spare) (hf : f ∈ spare) (d : Bytes) :
    Laid L (s.cacheBlockWrite f d) live spare :=
  h.keep subset_rfl ⟨h.sized.zero, h.sized.size⟩
    (fun g hg p t ht => cache_write_of_ne fun htf => h.apart g hg p t ht (htf ▸ hf)) h.apart h.used

theorem dropSpare (h : Laid L s live spare) (hf : f ∈ spare) (hzero : 0 ∈ live)
    (hr : s.freeMapRelease f = some s') : Laid L s' live (spare \ {f}) := by
  obtain ⟨hcache, hcnt, hbits⟩ := freeMapRelease_eq_some hr
  have hkeep : ∀ g ∈ live, ∀ p t, s.sectorAt L g p = some t → s'.freeMap.bits t = true := fun g hg p t ht =>
    (hbits t).mpr ⟨h.bits hg ht, fun htf => h.apart g hg p t ht (htf ▸ hf)⟩
  refine h.keep subset_rfl ⟨hkeep 0 hzero .inode 0 sectorAt_inode, hcnt ▸ h.sized.size⟩
    (fun _ _ _ _ _ => hcache ▸ rfl) (fun g hg p t ht hts => h.apart g hg p t ht hts.1) fun t => ?_
  rw [hbits, h.used]
  constructor
  · rintro ⟨hts | hown, htf⟩
    · exact .inl ⟨hts, htf⟩
    · exact .inr hown
  · rintro (hts | ⟨g, hg, p, hp⟩)
    · exact ⟨.inl hts.1, hts.2⟩
    · exact ⟨.inr ⟨g, hg, p, hp⟩, fun htf => h.apart g hg p t hp (htf ▸ hf)⟩

theorem forsake (h : Laid L s live spare) (hf : f ∈ live) (hzero : 0 ∈ live) (hne : f ≠ 0)
    (hr : s.freeMapRelease f = some s') :
    Laid L s' (live \ {f}) (spare ∪ {t | ∃ p, p ≠ .inode ∧ s.sectorAt L f p = some t}) := by
  obtain ⟨hcache, hcnt, hbits⟩ := freeMapRelease_eq_some hr
  have hkeep : ∀ g ∈ live \ {f}, ∀ p t, s.sectorAt L g p = some t → s'.freeMap.bits t = true := by
    refine fun g hg p t ht => (hbits t).mpr ⟨h.bits hg.1 ht, ?_⟩
    rintro rfl
    exact hg.2 (h.once g hg.1 t hf p .inode t ht sectorAt_inode).1
  refine h.keep (fun g hg => hg.1) ⟨hkeep 0 ⟨hzero, hne.symm⟩ .inode 0 sectorAt_inode, hcnt ▸ h.sized.size⟩
    (fun _ _ _ _ _ => hcache ▸ rfl) (fun g hg p t ht => ?_) fun t => ⟨fun hbit => ?_, ?_⟩
  · rintro (hts | ⟨q, -, hq⟩)
    · exact h.apart g hg.1 p t ht hts
    · exact hg.2 (h.once g hg.1 f hf p q t ht hq).1
  · obtain ⟨hbit, htf⟩ := (hbits t).mp hbit
    obtain hts | ⟨g, hg, p, hp⟩ := (h.used t).mp hbit
    · exact .inl (.inl hts)
    · by_cases hgf : g = f
      · subst hgf
        refine .inl (.inr ⟨p, ?_, hp⟩)
        rintro rfl
        exact htf (some.inj hp).symm
      · exact .inr ⟨g, ⟨hg, hgf⟩, p, hp⟩
  · rintro ((hts | ⟨p, hp, ht⟩) | ⟨g, hg, p, hp⟩)
    · refine (hbits t).mpr ⟨(h.used t).mpr (.inl hts), ?_⟩
      rintro rfl
      exact h.apart t hf .inode t sectorAt_inode hts
    · refine (hbits t).mpr ⟨h.bits hf ht, ?_⟩
      rintro rfl
      exact hp (h.once t hf t hf p .inode t ht sectorAt_inode).2
    · exact hkeep g hg p t hp

theorem create (h : Laid L s live spare) (hf : f ∈ spare) {length k : ℕ} (isDir : Bool)
    (hmax : bytesToSectors length + k ≤ maxFileSector)
    (hfree : (Place.wanted (bytesToSectors length + k)).card ≤ s.freeMap.freeCount) :
    ∃ s', s.inodeCreate L f length isDir none = (true, s', none) ∧ Laid L s' (insert f live) (spare \ {f}) ∧
      k ≤ s'.freeMap.freeCount ∧ ((L.toInode (s'.cache f)).length : ℕ) = length ∧
      ∀ g ∈ live, s'.cache g = s.cache g := by
  obtain ⟨s', loc, hcreate, hholds, hgrow⟩ := Holds.ofCreate (L := L) isDir h.sized ((h.used f).mpr (.inl hf))
    (Nat.le_add_right (bytesToSectors length) k) hmax hfree
  have hb := hholds.content.blocks
  have hsectors : s'.sectors L f = bytesToSectors length := congrArg bytesToSectors hholds.length
  have hlive : f ∉ live := fun hl => h.apart f hl .inode f sectorAt_inode hf
  have hnew : Grows s s' (onlyInode f) loc := .trans (.write (p := .inode) rfl) hgrow
  refine ⟨s', hcreate, h.grow (fun p t => ?_) (hsectors.symm ▸ hb) hnew, ?_, hholds.length, fun g hg => ?_⟩
  · cases p with
    | inode => simp [onlyInode, hlive, hf, eq_comm]
    | _ => simp [onlyInode, hlive]
  · exact (Place.le_missing fun i hi => hb.data_none hi).trans hholds.content.enough
  · -- the inode in `g` is none of the blocks of the new one
    refine hnew.frame g fun p hp => ?_
    rcases hl : onlyInode f p with _ | u
    · exact Bool.noConfusion ((hnew.fresh p g hl hp).symm.trans (h.bits hg sectorAt_inode))
    · obtain rfl : u = g := some.inj ((hnew.keep p u hl).symm.trans hp)
      cases p with
      | inode =>
        cases hl
        exact hlive hg
      | _ => cases hl

theorem holds (h : Laid L s live spare) (hf : f ∈ live) {N : ℕ}
    (he : s.Enough (s.sectorAt L f) N) :
    ∃ bytes, Holds L s f (L.toInode (s.cache f)) (s.sectorAt L f) N ⟨(L.toInode (s.cache f)).length, bytes⟩ := by
  obtain ⟨bytes, hcontent⟩ := (h.blocks f hf).exists_content h.sized he
  exact ⟨bytes, hcontent, rfl, rfl⟩

theorem read (h : Laid L s live spare) (hf : f ∈ live) (size offset : ℕ) :
    (s.inodeReadAt L f (L.toInode (s.cache f)) size offset).2 = s := by
  have hmissing := (h.blocks f hf).missing_le le_rfl
  obtain ⟨bytes, hholds⟩ := h.holds hf (N := s.sectors L f)
    (show Place.missing (s.sectorAt L f) (s.sectors L f) ≤ _ by omega)
  rw [hholds.inodeReadAt_eq]

theorem byteToSector (h : Laid L s live spare) (hf : f ∈ live) {pos : ℕ}
    (hpos : pos < (L.toInode (s.cache f)).length) : (s.byteToSector L f pos).1 ≠ noSector := by
  have hlt : pos / blockSectorSize < s.sectors L f := by
    simp only [sectors, bytesToSectors, blockSectorSize]
    omega
  obtain ⟨t, ht⟩ := ne_none_iff_exists'.mp (((h.blocks f hf).data _).mpr hlt)
  rw [(h.blocks f hf).sparse.byteToSector_located ht]
  exact ((h.blocks f hf).valid _ t Place.noConfusion ht).2

theorem write (h : Laid L s live spare) (hf : f ∈ live) (buffer : Bytes) {size offset N : ℕ}
    (hoff : offset ≤ (L.toInode (s.cache f)).length)
    (hN : N = bytesToSectors (max ((L.toInode (s.cache f)).length : ℕ) (offset + size))) (hmax : N ≤ maxFileSector)
    (hfree : (Place.wanted N).card ≤ (Place.wanted (s.sectors L f)).card + s.freeMap.freeCount) :
    ∃ s', s.inodeWriteAt L f (L.toInode (s.cache f)) buffer size offset = (size, s', L.toInode (s'.cache f)) ∧
      Laid L s' live spare ∧
      ((L.toInode (s'.cache f)).length : ℕ) = max ((L.toInode (s.cache f)).length : ℕ) (offset + size) ∧
      ∀ g ∈ live, g ≠ f → s'.cache g = s.cache g := by
  have hle : s.sectors L f ≤ N := by
    rw [hN]
    exact Nat.div_le_div_right (Nat.add_le_add_right (Nat.le_max_left ..) _)
  have hmissing := (h.blocks f hf).missing_le hle
  obtain ⟨bytes, hholds⟩ := h.holds hf (show Place.missing (s.sectorAt L f) N ≤ _ by omega)
  have hsize : offset + size ≤ N * blockSectorSize := by
    rw [hN]
    exact (Nat.le_max_right ..).trans (Holds.length_le_sectors _)
  obtain ⟨s', data', loc', hwrite, hholds', hgrow, -⟩ := hholds.inodeWriteAt_eq hmax buffer hoff hsize
  obtain rfl := hholds'.coherent
  have hsectors : s'.sectors L f = bytesToSectors (max (L.toInode (s.cache f)).length (offset + size)) :=
    congrArg bytesToSectors hholds'.length
  have hspare : f ∉ spare := h.apart f hf .inode f sectorAt_inode
  have hlaid := h.grow (fun p t => by simp [hf, hspare]) (hsectors.symm ▸ hholds'.content.blocks) hgrow
  rw [Set.insert_eq_of_mem hf, Set.sdiff_singleton_eq_self hspare] at hlaid
  refine ⟨s', hwrite, hlaid, hholds'.length, fun g hg hne => hgrow.frame g fun p hp => ?_⟩
  rcases hl : s.sectorAt L f p with _ | u
  · exact Bool.noConfusion ((hgrow.fresh p g hl hp).symm.trans (h.bits hg sectorAt_inode))
  · obtain rfl : u = g := some.inj ((hgrow.keep p u hl).symm.trans hp)
    exact hne (h.once u hg f hf .inode p u sectorAt_inode hl).1

theorem flush (h : Laid L s live spare) (hf : f ∈ live) :
    (s.inodeFlush L f (L.toInode (s.cache f))).cache = s.cache ∧
      (s.inodeFlush L f (L.toInode (s.cache f))).freeMap = s.freeMap := by
  have hflush : ∀ j ≤ s.sectors L f,
      (s.flushSectors L f j).cache = s.cache ∧ (s.flushSectors L f j).freeMap = s.freeMap := by
    intro j hj
    induction j with
    | zero => exact ⟨rfl, rfl⟩
    | succ j ih =>
      obtain ⟨hcache, hmap⟩ := ih (Nat.le_of_succ_le hj)
      have hb := (h.congr hcache hmap).blocks f hf
      have hpos : j * blockSectorSize / blockSectorSize = j := Nat.mul_div_cancel j (by decide)
      have hsectors : (s.flushSectors L f j).sectors L f = s.sectors L f := by rw [sectors, hcache, ← sectors]
      obtain ⟨t, ht⟩ := ne_none_iff_exists'.mp ((hb.data j).mpr (hsectors.symm ▸ hj))
      have hbyte : (s.flushSectors L f j).byteToSector L f (j * blockSectorSize) = (t, s.flushSectors L f j) :=
        hb.sparse.byteToSector_located (by rw [hpos, ht])
      rw [flushSectors, hbyte]
      simp only [if_neg (hb.valid _ t Place.noConfusion ht).2]
      exact ⟨hcache, hmap⟩
  exact hflush _ le_rfl

theorem release (h : Laid L s live spare) (hf : f ∈ live) (hzero : 0 ∈ live) (hne : f ≠ 0)
    (hindirect : s.sectorAt L f .indirect = none) (hdbl : s.sectorAt L f .dblIndirect = none)
    (hdata : data = L.toInode (s.cache f)) (hr : s.inodeRelease f data = some s') : Laid L s' (live \ {f}) spare := by
  subst hdata
  obtain ⟨hle, hcache, hcnt, hbits⟩ := inodeRelease_eq_some hr
  have hb := h.blocks f hf
  have hcell : ∀ j < s.sectors L f, Place.cell (.data j) = some (.inode, j) := fun j hj => by
    rw [Place.cell, if_pos (Nat.lt_of_lt_of_le hj hle)]
  have hblock : ∀ j < s.sectors L f,
      s.sectorAt L f (.data j) = some ((L.toInode (s.cache f)).block (blockSlot j)) := fun j hj => by
    obtain ⟨t, ht⟩ := ne_none_iff_exists'.mp ((hb.data j).mpr hj)
    have hptr : (L.toInode (s.cache f)).block (blockSlot j) = _ := hb.sparse.ptr_eq (hcell j hj) hb.root
    rw [hptr, ht, getD_some]
  refine h.free hf hzero hne hcache hcnt fun t => (hbits t).trans (and_congr_right fun _ => ⟨?_, fun hnot => ⟨?_, ?_⟩⟩)
  · rintro ⟨htf, hdata⟩ p hp
    cases p with
    | inode => exact htf (some.inj hp).symm
    | indirect => cases hindirect.symm.trans hp
    | dblIndirect => cases hdbl.symm.trans hp
    | leaf slot => exact hb.sparse.up (p := .leaf slot) rfl hp hdbl
    | data j =>
      have hj : j < s.sectors L f := (hb.data j).mp (hp ▸ some_ne_none t)
      have heq := some.inj ((hblock j hj).symm.trans hp)
      obtain hz | htne := hdata j hj
      · exact (hb.valid _ t Place.noConfusion hp).1 (heq.symm.trans hz)
      · exact htne heq.symm
  · rintro rfl
    exact hnot .inode sectorAt_inode
  · rintro j hj
    refine .inr fun htb => hnot (.data j) ?_
    rw [htb]
    exact hblock j hj

end Laid

end Store
end Cs162.Filesys
