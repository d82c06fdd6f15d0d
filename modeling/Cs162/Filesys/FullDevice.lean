import Cs162.Filesys.Sectors

namespace Cs162.Filesys.Store
open Lib Kernel Function Option

variable {L : Layout} {s : Store} {inode : Sector} {loc : Place → Option Sector} {b : Place → Sector} {n : ℕ}

def Hole (loc : Place → Option Sector) (b : Place → Sector) (i : ℕ) : Prop :=
  loc (.data i) = none ∧ b (.data i) = 0 ∧ ∃ a k, Place.cell (.data i) = some (a, k) ∧ loc a ≠ none

theorem Sparse.hole_iff (h : Sparse L s inode loc n) (i : ℕ) : Hole loc (blank n) i ↔ i < n ∧ loc (.data i) = none := by
  constructor
  · rintro ⟨hnone, hzero, -⟩
    refine ⟨?_, hnone⟩
    by_contra hi
    rw [blank, if_neg hi] at hzero
    cases hzero
  · rintro ⟨hi, hnone⟩
    obtain ⟨a, k, hc⟩ := Place.exists_cell (Nat.lt_of_lt_of_le hi h.bound)
    exact ⟨hnone, if_pos hi, a, k, hc, h.opened i a k hi hc⟩

theorem hole_congr {loc' : Place → Option Sector} {b' : Place → Sector} {i : ℕ}
    (hdata : loc' (.data i) = loc (.data i)) (hb : b' (.data i) = b (.data i))
    (hindex : ∀ p, (∀ i, p ≠ .data i) → loc' p = loc p) : Hole loc' b' i ↔ Hole loc b i := by
  unfold Hole
  rw [hdata, hb]
  refine and_congr_right fun _ => and_congr_right fun _ => exists_congr fun a => exists_congr fun k => ?_
  refine and_congr_right fun hc => ?_
  rw [hindex a (Place.ne_data_of_cell hc)]

namespace Mapped
variable {a p : Place} {k i : ℕ} {t u : Sector}

theorem cacheFlush (h : Mapped L s inode loc b) (t : Sector) : Mapped L (s.cacheFlush t) inode loc b :=
  h.frame (fun _ _ _ => rfl) h.used

theorem byteToSector_of_not_hole (h : Mapped L s inode loc b) {pos : ℕ}
    (hnone : loc (.data (pos / blockSectorSize)) = none) (hno : ¬ Hole loc b (pos / blockSectorSize)) :
    s.byteToSector L inode pos = (noSector, s) := by
  rcases h.blank (.data (pos / blockSectorSize)) with hb | ⟨hzero, -⟩
  · exact h.byteToSector_missing hnone hb
  · rcases hc : Place.cell (.data (pos / blockSectorSize)) with _ | ⟨a, k⟩
    · have hmax : ¬ pos / blockSectorSize < maxFileSector := fun hlt => by
        obtain ⟨a, k, hc'⟩ := Place.exists_cell hlt
        cases hc.symm.trans hc'
      have hind : ¬ pos / blockSectorSize < dblIndirectBegin := fun hlt => hmax (hlt.trans (by decide))
      have hdirect : ¬ pos / blockSectorSize < indirectBegin := fun hlt => hmax (hlt.trans (by decide))
      rw [byteToSector, if_neg hdirect, if_neg hind, if_neg hmax]
    · have ha : loc a = none := by
        by_contra hsome
        exact hno ⟨hnone, hzero, a, k, hc, hsome⟩
      rw [h.byteToSector_eq hc, ha]

theorem byteToSector_filled (h : Mapped L s inode loc b) (hs : s.Sized) {pos : ℕ} (hpos : pos / blockSectorSize = i)
    (hole : Hole loc b i) (hfree : 0 < s.freeMap.freeCount) :
    ∃ u s', s.byteToSector L inode pos = (u, s') ∧ s.freeMap.bits u = false ∧ (u : ℕ) < s.freeMap.bitCnt ∧
      Mapped L s' inode (update loc (.data i) (some u)) b ∧
      Extends L inode s s' loc (update loc (.data i) (some u)) ∧
      s'.freeMap = s.freeMap.setMultiple u 1 true := by
  obtain ⟨hnone, hzero, a, k, hc, ha⟩ := hole
  obtain ⟨v, hv⟩ := ne_none_iff_exists'.mp ha
  obtain ⟨u, halloc, hbit, hlt, hu⟩ := freeMapAllocate_eq hs hfree
  have hmax : i < maxFileSector := by
    by_contra hge
    have hind : ¬ i < dblIndirectBegin := fun hlt => hge (hlt.trans (by decide))
    have hdirect : ¬ i < indirectBegin := fun hlt => hge (hlt.trans (by decide))
    rw [Place.cell, if_neg hdirect, if_neg hind, if_neg hge] at hc
    cases hc
  have hptr : Place.ptr L a (s.cache v) k = 0 := by rw [h.ptr_eq hc hv, hnone, getD_none, hzero]
  refine ⟨u, s.give v u (Place.put L a (s.cache v) k u) zeros, ?_, hbit, hlt, h.giveData hmax hc hv hnone hbit hu,
    h.give_extends hc hv hnone hbit, rfl⟩
  rw [h.byteToSector_eq (hpos.symm ▸ hc), hv]
  simp only [if_pos hptr, fillHole, inodeAllocZeros, halloc]
  rfl

theorem byteToSector_full (h : Mapped L s inode loc b) {pos : ℕ} (hpos : pos / blockSectorSize = i)
    (hole : Hole loc b i) (hfull : s.freeMap.freeCount = 0) :
    ∃ s', s.byteToSector L inode pos = (0, s') ∧ Mapped L s' inode loc (update b (.data i) noSector) ∧
      Extends L inode s s' loc loc ∧ s'.freeMap = s.freeMap := by
  obtain ⟨hnone, hzero, a, k, hc, ha⟩ := hole
  obtain ⟨v, hv⟩ := ne_none_iff_exists'.mp ha
  have hptr : Place.ptr L a (s.cache v) k = 0 := by rw [h.ptr_eq hc hv, hnone, getD_none, hzero]
  refine ⟨s.cacheBlockWrite v (Place.put L a (s.cache v) k noSector), ?_, h.mark hc hv hnone (.inl rfl),
    h.put_extends hc hv noSector, rfl⟩
  rw [h.byteToSector_eq (hpos.symm ▸ hc), hv]
  simp only [if_pos hptr, fillHole, inodeAllocZeros, freeMapAllocate_eq_none hfull]
  rfl

end Mapped

open Classical in
structure Visited (L : Layout) (s s' : Store) (inode : Sector) (loc loc' : Place → Option Sector)
    (b b' : Place → Sector) (I : Finset ℕ) : Prop where
  mapped : Mapped L s' inode loc' b'
  grown : Extends L inode s s' loc loc'
  same : ∀ p, (∀ i ∈ I, p ≠ .data i) → loc' p = loc p ∧ b' p = b p
  free : s'.freeMap.freeCount = s.freeMap.freeCount - (I.filter (Hole loc b)).card
  idle : (∀ i ∈ I, ¬ Hole loc b i) ∨ s.freeMap.freeCount = 0 → loc' = loc
  filled : (∃ i ∈ I, Hole loc b i) → 0 < s.freeMap.freeCount → ∃ p u, loc p = none ∧ loc' p = some u

namespace Visited
variable {s' s'' : Store} {loc' loc'' : Place → Option Sector} {b' b'' : Place → Sector} {I : Finset ℕ} {i : ℕ}

theorem refl (h : Mapped L s inode loc b) : Visited L s s inode loc loc b b ∅ where
  mapped := h
  grown := .refl
  same _ _ := ⟨rfl, rfl⟩
  free := by rw [Finset.filter_empty, Finset.card_empty, Nat.sub_zero]
  idle _ := rfl
  filled hole := by
    obtain ⟨i, hi, -⟩ := hole
    exact absurd hi (Finset.notMem_empty i)

theorem cacheFlush (h : Visited L s s' inode loc loc' b b' I) (t : Sector) :
    Visited L s (s'.cacheFlush t) inode loc loc' b b' I :=
  ⟨h.mapped.cacheFlush t, h.grown.trans .cacheFlush, h.same, h.free, h.idle, h.filled⟩

theorem hole_iff (h : Visited L s s' inode loc loc' b b' I) (hi : i ∉ I) : Hole loc' b' i ↔ Hole loc b i := by
  have hdata := h.same (.data i) fun j hj heq => hi (Place.data.inj heq ▸ hj)
  exact hole_congr hdata.1 hdata.2 fun p hp => (h.same p fun j _ => hp j).1

theorem insert (h : Visited L s s' inode loc loc' b b' I) (hi : i ∉ I)
    (h' : Visited L s' s'' inode loc' loc'' b' b'' {i}) : Visited L s s'' inode loc loc'' b b'' (Insert.insert i I) := by
  classical
  have hole := h.hole_iff hi
  have hone : (({i} : Finset ℕ).filter (Hole loc' b')).card = if Hole loc b i then 1 else 0 := by
    rw [Finset.filter_singleton]
    simp only [hole]
    split_ifs
    · exact Finset.card_singleton i
    · exact Finset.card_empty
  have hcard : ((Insert.insert i I).filter (Hole loc b)).card =
      (I.filter (Hole loc b)).card + if Hole loc b i then 1 else 0 := by
    rw [Finset.filter_insert]
    split_ifs
    · exact Finset.card_insert_of_notMem fun hmem => hi (Finset.mem_filter.mp hmem).1
    · rfl
  refine ⟨h'.mapped, h.grown.trans h'.grown, fun p hp => ?_, ?_, fun hidle => ?_, fun hhole hfree => ?_⟩
  · obtain ⟨hloc, hb⟩ := h.same p fun j hj => hp j (Finset.mem_insert_of_mem hj)
    obtain ⟨hloc', hb'⟩ := h'.same p fun j hj => hp j (Finset.mem_singleton.mp hj ▸ Finset.mem_insert_self i I)
    exact ⟨hloc'.trans hloc, hb'.trans hb⟩
  · have hfree := h.free
    have hfree' := h'.free
    rw [hone] at hfree'
    rw [hcard]
    omega
  · have hloc := h.idle (hidle.imp_left fun hno j hj => hno j (Finset.mem_insert_of_mem hj))
    refine (h'.idle (hidle.imp (fun hno j hj => ?_) fun hfull => ?_)).trans hloc
    · rw [Finset.mem_singleton.mp hj, hole]
      exact hno i (Finset.mem_insert_self i I)
    · rw [h.free, hfull, Nat.zero_sub]
  · by_cases hbefore : ∃ j ∈ I, Hole loc b j
    · obtain ⟨p, u, hnone, hsome⟩ := h.filled hbefore hfree
      exact ⟨p, u, hnone, h'.grown.keep p u hsome⟩
    · -- no sector was taken before this one
      push Not at hbefore
      obtain ⟨j, hj, hjole⟩ := hhole
      have hji : j = i := (Finset.mem_insert.mp hj).resolve_right fun hmem => hbefore j hmem hjole
      subst hji
      have hloc := h.idle (.inl hbefore)
      have hcount : s'.freeMap.freeCount = s.freeMap.freeCount := by
        rw [h.free, Finset.filter_false_of_mem hbefore, Finset.card_empty, Nat.sub_zero]
      obtain ⟨p, u, hnone, hsome⟩ := h'.filled ⟨j, Finset.mem_singleton_self j, hole.mpr hjole⟩ (hcount ▸ hfree)
      exact ⟨p, u, hloc ▸ hnone, hsome⟩

end Visited

theorem Mapped.byteToSector_visited (h : Mapped L s inode loc b) (hs : s.Sized) (pos : ℕ) :
    ∃ loc' b', Visited L s (s.byteToSector L inode pos).2 inode loc loc' b b' {pos / blockSectorSize} := by
  classical
  have hother {p : Place} (hp : ∀ i ∈ ({pos / blockSectorSize} : Finset ℕ), p ≠ .data i) :
      p ≠ .data (pos / blockSectorSize) := hp _ (Finset.mem_singleton_self _)
  by_cases hole : Hole loc b (pos / blockSectorSize)
  · have hcard : (({pos / blockSectorSize} : Finset ℕ).filter (Hole loc b)).card = 1 := by
      rw [Finset.filter_singleton, if_pos hole, Finset.card_singleton]
    rcases Nat.eq_zero_or_pos s.freeMap.freeCount with hfull | hfree
    · obtain ⟨s', hbyte, h', hext, hmap⟩ := h.byteToSector_full rfl hole hfull
      rw [hbyte]
      refine ⟨loc, _, h', hext, fun p hp => ⟨rfl, update_of_ne (hother hp) ..⟩, ?_, fun _ => rfl,
        fun _ hpos => absurd hpos (by omega)⟩
      show s'.freeMap.freeCount = _
      rw [hmap, hfull, Nat.zero_sub]
    · obtain ⟨u, s', hbyte, hbit, hlt, h', hext, hmap⟩ := h.byteToSector_filled hs rfl hole hfree
      have hcount := Bitmap.freeCount_setMultiple hlt hbit
      rw [hbyte]
      refine ⟨_, b, h', hext, fun p hp => ⟨update_of_ne (hother hp) .., rfl⟩, ?_, fun hidle => ?_,
        fun _ _ => ⟨_, u, hole.1, update_self ..⟩⟩
      · show s'.freeMap.freeCount = _
        rw [hmap, hcard]
        omega
      · rcases hidle with hno | hfull
        · exact absurd hole (hno _ (Finset.mem_singleton_self _))
        · omega
  · have hsame : (s.byteToSector L inode pos).2 = s := by
      rcases hl : loc (.data (pos / blockSectorSize)) with _ | t
      · rw [h.byteToSector_of_not_hole hl hole]
      · rw [h.byteToSector_located hl]
    rw [hsame]
    refine ⟨loc, b, h, .refl, fun _ _ => ⟨rfl, rfl⟩, ?_, fun _ => rfl, fun hhole _ => ?_⟩
    · rw [Finset.filter_singleton, if_neg hole, Finset.card_empty, Nat.sub_zero]
    · obtain ⟨i, hi, hi'⟩ := hhole
      exact absurd (Finset.mem_singleton.mp hi ▸ hi') hole

theorem Mapped.flushSectors_visited (h : Mapped L s inode loc b) (hs : s.Sized) (j : ℕ) :
    ∃ loc' b', Visited L s (s.flushSectors L inode j) inode loc loc' b b' (Finset.range j) := by
  induction j with
  | zero => exact ⟨loc, b, (Visited.refl h).cacheFlush inode⟩
  | succ j ih =>
    obtain ⟨loc₁, b₁, h₁⟩ := ih
    have hpos : j * blockSectorSize / blockSectorSize = j := Nat.mul_div_cancel j (by decide)
    obtain ⟨loc₂, b₂, h₂⟩ := h₁.mapped.byteToSector_visited (h₁.grown.sized hs) (j * blockSectorSize)
    rw [hpos] at h₂
    have hnext := h₁.insert Finset.notMem_range_self h₂
    rw [← Finset.range_add_one] at hnext
    refine ⟨loc₂, b₂, ?_⟩
    rcases hbyte : (s.flushSectors L inode j).byteToSector L inode (j * blockSectorSize) with ⟨sector, s₁⟩
    rw [hbyte] at hnext
    simp only [flushSectors, hbyte]
    split_ifs
    · exact hnext
    · exact hnext.cacheFlush _

end Cs162.Filesys.Store
