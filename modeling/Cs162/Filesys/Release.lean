import Cs162.Filesys.FullDevice
import Cs162.Filesys.Growth

namespace Cs162.Filesys.Store
open Lib Kernel

inductive ReleaseFault
  | assertion
  | outOfBounds

structure Freeing where
  store : Store
  log : List Sector

def Freeing.release (r : Freeing) (sector : Sector) : Except ReleaseFault Freeing :=
  match r.store.freeMapRelease sector with
  | some s => .ok ⟨s, r.log ++ [sector]⟩
  | none => .error .assertion

def Freeing.releaseUnlessZero (r : Freeing) (sector : Sector) : Except ReleaseFault Freeing :=
  if sector = 0 then .ok r else r.release sector

def slotAt (index : Index) (i : ℕ) : Except ReleaseFault Sector :=
  if h : i < blockSlots then .ok (index ⟨i, h⟩) else .error .outOfBounds

variable (L : Layout)

def releaseDirect (data : InodeDisk) (r : Freeing) : ℕ → Except ReleaseFault Freeing
  | 0 => .ok r
  | i + 1 => (releaseDirect data r i).bind fun r => r.releaseUnlessZero (data.block (blockSlot i))

def releaseSlot (data : InodeDisk) (i : ℕ) (r : Freeing) (indirect : Index) : Except ReleaseFault (Freeing × Index) :=
  let indirect :=
    if i = indirectBlk ∧ data.block (blockSlot i) ≠ noSector then L.toIndex (r.store.cache (data.block indirectBlk))
    else indirect
  (slotAt indirect i).bind fun sector => (r.releaseUnlessZero sector).map fun r => (r, indirect)

def releaseIndirect (data : InodeDisk) (r : Freeing) (indirect : Index) : ℕ → Except ReleaseFault (Freeing × Index)
  | 0 => .ok (r, indirect)
  | k + 1 =>
    (releaseIndirect data r indirect k).bind fun x => releaseSlot L data (indirectBegin + k) x.1 x.2

def releaseLeafSlot (data : InodeDisk) (i : ℕ) (r : Freeing) (indirect dblIndirect : Index) :
    Except ReleaseFault (Freeing × Index × Index) :=
  let indirectIdx := (i - dblIndirectBegin) / blockSlots
  let dblIndirectIdx := (i - dblIndirectBegin) % blockSlots
  let indirect :=
    if i = dblIndirectBlk ∧ data.block (blockSlot i) ≠ noSector then
      L.toIndex (r.store.cache (data.block dblIndirectBlk))
    else indirect
  let leaf := indirect (indexSlot indirectIdx)
  let dblIndirect :=
    if indirectIdx = 0 ∧ leaf ≠ noSector then L.toIndex (r.store.cache leaf) else dblIndirect
  (r.releaseUnlessZero (dblIndirect (indexSlot dblIndirectIdx))).bind fun r =>
    (if dblIndirectIdx = blockSlots - 1 then r.release leaf else .ok r).map fun r => (r, indirect, dblIndirect)

def releaseDouble (data : InodeDisk) (r : Freeing) (indirect dblIndirect : Index) :
    ℕ → Except ReleaseFault (Freeing × Index × Index)
  | 0 => .ok (r, indirect, dblIndirect)
  | k + 1 =>
    (releaseDouble data r indirect dblIndirect k).bind fun x =>
      releaseLeafSlot L data (dblIndirectBegin + k) x.1 x.2.1 x.2.2

/-- The local variables `indirect` and `dblIndirect` hold whatever is on the stack at first. -/
def inodeReleaseAll (s : Store) (inode : Sector) (data : InodeDisk) (indirect dblIndirect : Index) :
    Except ReleaseFault Freeing :=
  let sectors := bytesToSectors data.length
  (Freeing.release ⟨s, []⟩ inode).bind fun r =>
  (releaseDirect data r (min sectors indirectBegin)).bind fun r =>
  (releaseIndirect L data r indirect (min sectors dblIndirectBegin - indirectBegin)).bind fun x =>
  (releaseDouble L data x.1 x.2 dblIndirect (min sectors maxFileSector - dblIndirectBegin)).bind fun y =>
    -- the counter of the last loop is at `dblIndirectBegin` at the least
    if dblIndirectBegin ≤ min sectors maxFileSector then
      (y.1.release (y.2.1 (indexSlot ((min sectors maxFileSector - 1 - dblIndirectBegin) / blockSlots)))).bind fun r =>
        r.release (data.block dblIndirectBlk)
    else .ok y.1

def closeRemoved (s : Store) (inode : Sector) (data : InodeDisk) (indirect dblIndirect : Index) :
    Except ReleaseFault Freeing := (s.inodeFlush L inode data).inodeReleaseAll L inode data indirect dblIndirect

def FreesItsSectors (s : Store) (inode : Sector) (data : InodeDisk) (indirect dblIndirect : Index) : Prop :=
  ∃ r, s.closeRemoved L inode data indirect dblIndirect = .ok r ∧ r.log.Nodup ∧
    ∀ t, t ∈ r.log ↔ ∃ p, (s.inodeFlush L inode data).sectorAt L inode p = some t

variable {L} {s : Store} {inode t : Sector} {data : InodeDisk} {loc : Place → Option Sector} {r r' : Freeing}
  {indirect dblIndirect : Index}

namespace Freeing

structure Keeps (r r' : Freeing) : Prop where
  cache : r'.store.cache = r.store.cache
  bitCnt : r'.store.freeMap.bitCnt = r.store.freeMap.bitCnt

structure Once (r : Freeing) : Prop where
  nodup : r.log.Nodup
  freed : ∀ t ∈ r.log, r.store.freeMap.bits t = false

theorem Keeps.refl (r : Freeing) : Keeps r r := ⟨rfl, rfl⟩

theorem Keeps.trans {r'' : Freeing} (h : Keeps r r') (h' : Keeps r' r'') : Keeps r r'' :=
  ⟨h'.cache.trans h.cache, h'.bitCnt.trans h.bitCnt⟩

theorem release_eq_ok (h : r.release t = .ok r') : Keeps r r' ∧ r'.log = r.log ++ [t] ∧
    (t : ℕ) < r.store.freeMap.bitCnt ∧ r.store.freeMap.bits t = true ∧
    ∀ u : Sector, r'.store.freeMap.bits u = true ↔ r.store.freeMap.bits u = true ∧ u ≠ t := by
  unfold release at h
  split at h
  next s hs =>
    obtain ⟨hcache, hcnt, hbits⟩ := freeMapRelease_eq_some hs
    cases h
    unfold freeMapRelease at hs
    split_ifs at hs with hused
    have hbit := Bitmap.all_eq_true.mp hused.2 0 Nat.one_pos
    exact ⟨⟨hcache, hcnt⟩, rfl, hused.1, hbit, hbits⟩
  next => cases h

theorem release_of_used (hlt : (t : ℕ) < r.store.freeMap.bitCnt) (hbit : r.store.freeMap.bits t = true) :
    ∃ r', r.release t = .ok r' := by
  have hall : r.store.freeMap.all t 1 = true := Bitmap.all_eq_true.mpr fun j hj => by
    rw [Nat.lt_one_iff.mp hj]
    exact hbit
  refine ⟨⟨{ r.store with freeMap := r.store.freeMap.setMultiple t 1 false }, r.log ++ [t]⟩, ?_⟩
  rw [release, freeMapRelease, if_pos ⟨hlt, hall⟩]

theorem Once.release (h : Once r) (hr : r.release t = .ok r') : Once r' := by
  obtain ⟨-, hlog, -, hbit, hbits⟩ := release_eq_ok hr
  have hnot : t ∉ r.log := fun hmem => Bool.noConfusion ((h.freed t hmem).symm.trans hbit)
  constructor
  · rw [hlog, List.nodup_append_comm]
    exact List.nodup_cons.mpr ⟨hnot, h.nodup⟩
  · intro u hu
    rw [hlog, List.mem_append, List.mem_singleton] at hu
    rw [← Bool.not_eq_true, hbits]
    rintro ⟨hu', hne⟩
    exact Bool.noConfusion ((h.freed u (hu.resolve_right hne)).symm.trans hu')

theorem releaseUnlessZero_eq_ok (h : r.releaseUnlessZero t = .ok r') :
    t = 0 ∧ r' = r ∨ t ≠ 0 ∧ r.release t = .ok r' := by
  unfold releaseUnlessZero at h
  split_ifs at h with hz
  · exact .inl ⟨hz, (Except.ok.inj h).symm⟩
  · exact .inr ⟨hz, h⟩

theorem releaseUnlessZero_keeps (h : r.releaseUnlessZero t = .ok r') : Keeps r r' := by
  rcases releaseUnlessZero_eq_ok h with ⟨-, rfl⟩ | ⟨-, hr⟩
  · exact .refl r'
  · exact (release_eq_ok hr).1

end Freeing

theorem bind_eq_ok {ε α β : Type*} {x : Except ε α} {f : α → Except ε β} {y : β} (h : x.bind f = .ok y) :
    ∃ a, x = .ok a ∧ f a = .ok y := by
  cases x with
  | error e => cases h
  | ok a => exact ⟨a, rfl, h⟩

theorem map_eq_ok {ε α β : Type*} {x : Except ε α} {f : α → β} {y : β} (h : x.map f = .ok y) :
    ∃ a, x = .ok a ∧ f a = y := by
  cases x with
  | error e => cases h
  | ok a => exact ⟨a, rfl, Except.ok.inj h⟩

theorem releaseDirect_keeps {i : ℕ} (h : releaseDirect data r i = .ok r') : r.Keeps r' := by
  induction i generalizing r' with
  | zero => exact Except.ok.inj h ▸ .refl r
  | succ i ih =>
    obtain ⟨r1, hr1, h⟩ := bind_eq_ok h
    exact (ih hr1).trans (Freeing.releaseUnlessZero_keeps h)

theorem releaseDirect_of_used {i : ℕ} (honce : r.Once)
    (hused : ∀ j < i, data.block (blockSlot j) ≠ 0 →
      (data.block (blockSlot j) : ℕ) < r.store.freeMap.bitCnt ∧ r.store.freeMap.bits (data.block (blockSlot j)) = true)
    (hinj : ∀ j < i, ∀ k < j, data.block (blockSlot j) ≠ 0 → data.block (blockSlot j) ≠ data.block (blockSlot k)) :
    ∃ r', releaseDirect data r i = .ok r' ∧ r'.Once ∧ (∀ u : Sector, r'.store.freeMap.bits u = true ↔
      r.store.freeMap.bits u = true ∧ ∀ j < i, data.block (blockSlot j) ≠ 0 → u ≠ data.block (blockSlot j)) ∧
      ∀ u, u ∈ r'.log ↔ u ∈ r.log ∨ ∃ j < i, data.block (blockSlot j) ≠ 0 ∧ u = data.block (blockSlot j) := by
  induction i with
  | zero => exact ⟨r, rfl, honce, fun u => by simp, fun u => by simp⟩
  | succ i ih =>
    obtain ⟨r1, hr1, honce1, hbits1, hlog1⟩ := ih (fun j hj => hused j (Nat.lt_succ_of_lt hj)) fun j hj =>
      hinj j (Nat.lt_succ_of_lt hj)
    have hsplit {P : ℕ → Prop} : (∀ j < i + 1, P j) ↔ (∀ j < i, P j) ∧ P i := by
      simp only [Nat.lt_succ_iff_lt_or_eq, or_imp, forall_and, forall_eq]
    have hsplit' {P : ℕ → Prop} : (∃ j < i + 1, P j) ↔ (∃ j < i, P j) ∨ P i := by
      simp only [Nat.lt_succ_iff_lt_or_eq, or_and_right, exists_or, exists_eq_left]
    rw [releaseDirect, hr1]
    show ∃ r', r1.releaseUnlessZero (data.block (blockSlot i)) = .ok r' ∧ _
    by_cases hz : data.block (blockSlot i) = 0
    · rw [Freeing.releaseUnlessZero, if_pos hz]
      refine ⟨r1, rfl, honce1, fun u => ?_, fun u => ?_⟩
      · rw [hbits1, hsplit, and_iff_left fun hne => absurd hz hne]
      · simp only [hlog1, hsplit', hz, ne_eq, not_true_eq_false, false_and, or_false]
    · obtain ⟨hlt, hbit⟩ := hused i (Nat.lt_succ_self i) hz
      obtain ⟨r2, hr2⟩ := Freeing.release_of_used ((releaseDirect_keeps hr1).bitCnt.symm ▸ hlt)
        ((hbits1 _).mpr ⟨hbit, fun j hj _ => hinj i (Nat.lt_succ_self i) j hj hz⟩)
      obtain ⟨-, hlog, -, -, hbits⟩ := Freeing.release_eq_ok hr2
      rw [Freeing.releaseUnlessZero, if_neg hz]
      refine ⟨r2, hr2, honce1.release hr2, fun u => ?_, fun u => ?_⟩
      · rw [hbits, hbits1, hsplit, and_assoc, imp_iff_right hz]
      · rw [hlog, List.mem_append, List.mem_singleton, hlog1, hsplit', or_assoc, and_iff_right hz]

theorem Freeing.release_store (r : Freeing) (t : Sector) :
    (r.release t).toOption.map Freeing.store = r.store.freeMapRelease t := by
  rw [release]
  cases r.store.freeMapRelease t <;> rfl

theorem releaseDirect_store (data : InodeDisk) (r : Freeing) (i : ℕ) :
    (releaseDirect data r i).toOption.map Freeing.store = r.store.releaseBlocks data i := by
  induction i with
  | zero => rfl
  | succ i ih =>
    rw [releaseBlocks, ← ih, releaseDirect]
    cases releaseDirect data r i with
    | error e => rfl
    | ok r1 =>
      show (r1.releaseUnlessZero _).toOption.map Freeing.store = ite _ (some r1.store) _
      rw [Freeing.releaseUnlessZero]
      split_ifs
      · rfl
      · exact Freeing.release_store ..

theorem releaseSlot_eq_ok {i : ℕ} {x : Freeing × Index} (h : releaseSlot L data i r indirect = .ok x) :
    r.Keeps x.1 ∧
    x.2 = (if i = indirectBlk ∧ data.block (blockSlot i) ≠ noSector then
        L.toIndex (r.store.cache (data.block indirectBlk))
      else indirect) ∧
    ∃ hi : i < blockSlots, r.releaseUnlessZero (x.2 ⟨i, hi⟩) = .ok x.1 := by
  obtain ⟨sector, hslot, h⟩ := bind_eq_ok h
  obtain ⟨r1, hr1, rfl⟩ := map_eq_ok h
  by_cases hi : i < blockSlots
  · rw [slotAt, dif_pos hi] at hslot
    refine ⟨Freeing.releaseUnlessZero_keeps hr1, rfl, hi, ?_⟩
    rw [← hr1, ← Except.ok.inj hslot]
  · rw [slotAt, dif_neg hi] at hslot
    cases hslot

theorem releaseIndirect_succ {k : ℕ} {x : Freeing × Index} (hindex : data.block indirectBlk ≠ noSector)
    (h : releaseIndirect L data r indirect (k + 1) = .ok x) :
    r.Keeps x.1 ∧ x.2 = L.toIndex (r.store.cache (data.block indirectBlk)) ∧
      ∃ (r1 : Freeing) (hk : indirectBegin + k < blockSlots), r.Keeps r1 ∧
        r1.releaseUnlessZero (x.2 ⟨indirectBegin + k, hk⟩) = .ok x.1 := by
  induction k generalizing x with
  | zero =>
    obtain ⟨x₀, hx₀, h⟩ := bind_eq_ok h
    cases hx₀
    obtain ⟨hkeeps, heq, hi, hrelease⟩ := releaseSlot_eq_ok h
    refine ⟨hkeeps, heq.trans (if_pos ⟨rfl, hindex⟩), r, hi, .refl r, hrelease⟩
  | succ k ih =>
    obtain ⟨x1, hx1, h⟩ := bind_eq_ok h
    obtain ⟨hkeeps1, heq1, -⟩ := ih hx1
    obtain ⟨hkeeps, heq, hi, hrelease⟩ := releaseSlot_eq_ok h
    have hlater : ¬ (indirectBegin + (k + 1) = indirectBlk ∧
        data.block (blockSlot (indirectBegin + (k + 1))) ≠ noSector) := fun hfirst =>
      absurd hfirst.1 (by simp [indirectBegin, indirectBlk])
    rw [if_neg hlater] at heq
    exact ⟨hkeeps1.trans hkeeps, heq.trans heq1, x1.1, hi, hkeeps1, hrelease⟩

theorem releaseIndirect_of_le {j k : ℕ} {x : Freeing × Index} (hjk : j ≤ k)
    (h : releaseIndirect L data r indirect k = .ok x) : ∃ x', releaseIndirect L data r indirect j = .ok x' := by
  induction k generalizing x with
  | zero => exact ⟨x, Nat.le_zero.mp hjk ▸ h⟩
  | succ k ih =>
    rcases Nat.lt_succ_iff_lt_or_eq.mp (Nat.lt_succ_of_le hjk) with hlt | rfl
    · obtain ⟨x1, hx1, -⟩ := bind_eq_ok h
      exact ih (Nat.le_of_lt_succ hlt) hx1
    · exact ⟨x, h⟩

theorem releaseIndirect_fails {n : ℕ} {x : Freeing × Index} (hn : indirectBegin < n)
    (hsize : r.store.freeMap.bitCnt < 2 ^ 32) (hindex : data.block indirectBlk ≠ noSector)
    (hpast : ∀ slot : IndexSlot, n ≤ indirectBegin + slot →
      L.toIndex (r.store.cache (data.block indirectBlk)) slot = noSector) :
    releaseIndirect L data r indirect (min n dblIndirectBegin - indirectBegin) ≠ .ok x := by
  intro h
  -- the first slot that is read and lies behind the sectors of the file, or behind the block
  let i := min blockSlots (max indirectBegin (n - indirectBegin))
  have hi : i - indirectBegin + 1 ≤ min n dblIndirectBegin - indirectBegin := by
    simp only [i, dblIndirectBegin, indirectBegin, blockSlots] at hn ⊢
    omega
  obtain ⟨x', hx'⟩ := releaseIndirect_of_le hi h
  obtain ⟨-, heq, r1, hlt, hkeeps, hrelease⟩ := releaseIndirect_succ hindex hx'
  have hslot : n ≤ indirectBegin + (indirectBegin + (i - indirectBegin)) := by
    simp only [i, indirectBegin, blockSlots] at hlt ⊢
    omega
  rw [heq, hpast ⟨_, hlt⟩ hslot] at hrelease
  rcases Freeing.releaseUnlessZero_eq_ok hrelease with ⟨hz, -⟩ | ⟨-, hr⟩
  · exact absurd hz (by decide)
  · obtain ⟨-, -, hlast, -⟩ := Freeing.release_eq_ok hr
    rw [hkeeps.bitCnt] at hlast
    have hval : ((noSector : Sector) : ℕ) = 2 ^ 32 - 1 := rfl
    omega

theorem inodeReleaseAll_of_le (hn : bytesToSectors data.length ≤ indirectBegin) :
    s.inodeReleaseAll L inode data indirect dblIndirect =
      (Freeing.release ⟨s, []⟩ inode).bind fun r => releaseDirect data r (bytesToSectors data.length) := by
  have hindirect : min (bytesToSectors data.length) dblIndirectBegin - indirectBegin = 0 := by omega
  have hmax : min (bytesToSectors data.length) maxFileSector ≤ indirectBegin := (Nat.min_le_left ..).trans hn
  have hdouble : min (bytesToSectors data.length) maxFileSector - dblIndirectBegin = 0 := by
    unfold dblIndirectBegin
    omega
  have hlast : ¬ dblIndirectBegin ≤ min (bytesToSectors data.length) maxFileSector := by
    simp only [dblIndirectBegin, blockSlots]
    omega
  simp only [inodeReleaseAll, Nat.min_eq_left hn, hindirect, hdouble, if_neg hlast]
  refine congrArg (Except.bind _) (funext fun r => ?_)
  cases releaseDirect data r (bytesToSectors data.length) <;> rfl

def OnDevice (s : Store) : Prop := ∀ i, s.freeMap.bits i = true → i < s.freeMap.bitCnt

namespace OpenFile

theorem flushed (h : OpenFile L s inode data loc) : ∃ loc' b', Visited L s (s.inodeFlush L inode data) inode loc loc'
    (blank (bytesToSectors data.length)) b' (Finset.range (bytesToSectors data.length)) :=
  h.blocks.mapped.flushSectors_visited h.sized _

theorem located_of_block (h : OpenFile L s inode data loc) {j : ℕ} (hj : j < indirectBegin)
    (hlt : j < bytesToSectors data.length) (hne : data.block (blockSlot j) ≠ 0) :
    loc (.data j) = some (data.block (blockSlot j)) := by
  have hc : Place.cell (.data j) = some (.inode, j) := by rw [Place.cell, if_pos hj]
  have hblock := h.block_eq hc
  rcases hl : remembered data loc (.data j) with _ | t
  · rw [hl, Option.getD_none, blank, if_pos hlt] at hblock
    exact absurd hblock hne
  · rw [hl, Option.getD_some] at hblock
    rw [hblock]
    exact remembered_eq_some hl

theorem closeRemoved_fails (h : OpenFile L s inode data loc) (hn : indirectBegin < bytesToSectors data.length) :
    s.closeRemoved L inode data indirect dblIndirect ≠ .ok r := by
  intro hclose
  obtain ⟨loc', b', hv⟩ := h.flushed
  have hc : Place.cell (.data indirectBegin) = some (.indirect, 0) := rfl
  obtain ⟨t, ht⟩ := Option.ne_none_iff_exists'.mp (h.blocks.opened indirectBegin _ _ hn hc)
  have hblock : data.block indirectBlk = t := by
    have hcopy := (h.copy indirectBlk).resolve_right fun hhole => absurd hhole.1 (by decide)
    rw [hcopy, h.blocks.indirect_eq, ht, Option.getD_some]
  have ht' : loc' .indirect = some t := ((hv.same _ fun _ _ => Place.noConfusion).1).trans ht
  obtain ⟨r1, hr1, hclose⟩ := bind_eq_ok hclose
  obtain ⟨r2, hr2, hclose⟩ := bind_eq_ok hclose
  obtain ⟨x, hx, -⟩ := bind_eq_ok hclose
  have hkeeps := (Freeing.release_eq_ok hr1).1.trans (releaseDirect_keeps hr2)
  refine releaseIndirect_fails hn ?_ ?_ (fun slot hslot => ?_) hx
  · rw [hkeeps.bitCnt, hv.grown.bitCnt]
    exact h.sized.size
  · rw [hblock]
    exact (h.blocks.valid _ t Place.noConfusion ht).2
  · have hind : indirectBegin + slot.val < dblIndirectBegin := Nat.add_lt_add_left slot.isLt _
    have hcell : Place.cell (.data (indirectBegin + slot.val)) = some (.indirect, slot.val) := by
      rw [Place.cell, if_neg (by omega), if_pos hind, Nat.add_sub_cancel_left]
    have hsame := hv.same (.data (indirectBegin + slot.val)) fun i hi heq =>
      absurd (Finset.mem_range.mp hi) (by rw [← Place.data.inj heq]; omega)
    have hptr := hv.mapped.ptr_eq hcell ht'
    rw [hsame.1, hsame.2, h.blocks.data_none hslot, Option.getD_none, blank, if_neg (by omega)] at hptr
    rw [hkeeps.cache, hblock, ← hptr]
    exact congrArg _ (Fin.ext (Place.indexSlot_of_lt slot.isLt)).symm

theorem closeRemoved_store (h : OpenFile L s inode data loc) (indirect dblIndirect : Index) :
    (s.closeRemoved L inode data indirect dblIndirect).toOption.map Freeing.store =
      (s.inodeFlush L inode data).inodeRelease inode data := by
  by_cases hn : bytesToSectors data.length ≤ indirectBegin
  · rw [closeRemoved, inodeReleaseAll_of_le hn, inodeRelease, if_pos hn,
      ← Freeing.release_store ⟨s.inodeFlush L inode data, []⟩]
    cases Freeing.release ⟨s.inodeFlush L inode data, []⟩ inode with
    | error e => rfl
    | ok r => exact releaseDirect_store ..
  · rw [inodeRelease, if_neg hn]
    cases hclose : s.closeRemoved L inode data indirect dblIndirect with
    | error e => rfl
    | ok r => exact absurd hclose (h.closeRemoved_fails (Nat.not_le.mp hn))

theorem closeRemoved_eq (h : OpenFile L s inode data loc) (hdev : s.OnDevice)
    (hn : bytesToSectors data.length ≤ indirectBegin) (indirect dblIndirect : Index) :
    ∃ r, s.closeRemoved L inode data indirect dblIndirect = .ok r ∧ r.log.Nodup ∧ ∀ u, u ∈ r.log ↔
      u = inode ∨ ∃ j < bytesToSectors data.length, data.block (blockSlot j) ≠ 0 ∧ u = data.block (blockSlot j) := by
  obtain ⟨loc', b', hv⟩ := h.flushed
  have hused {p : Place} {t : Sector} (ht : loc p = some t) :
      (t : ℕ) < (s.inodeFlush L inode data).freeMap.bitCnt ∧ (s.inodeFlush L inode data).freeMap.bits t = true := by
    have hbit := h.blocks.used p t ht
    exact ⟨hv.grown.bitCnt ▸ hdev t hbit, (hv.grown.used t).mpr (.inl hbit)⟩
  have hlocated {j : ℕ} (hj : j < bytesToSectors data.length) (hne : data.block (blockSlot j) ≠ 0) :=
    h.located_of_block (Nat.lt_of_lt_of_le hj hn) hj hne
  obtain ⟨r1, hr1⟩ := Freeing.release_of_used (r := ⟨s.inodeFlush L inode data, []⟩) (hused h.blocks.root).1
    (hused h.blocks.root).2
  obtain ⟨hkeeps, hlog1, -, -, hbits⟩ := Freeing.release_eq_ok hr1
  have honce : r1.Once := Freeing.Once.release ⟨List.nodup_nil, fun t ht => absurd ht List.not_mem_nil⟩ hr1
  have hstill : ∀ j < bytesToSectors data.length, data.block (blockSlot j) ≠ 0 →
      (data.block (blockSlot j) : ℕ) < r1.store.freeMap.bitCnt ∧
        r1.store.freeMap.bits (data.block (blockSlot j)) = true := fun j hj hne => by
    have ht := hlocated hj hne
    rw [hkeeps.bitCnt, hbits]
    exact ⟨(hused ht).1, (hused ht).2, h.blocks.ne_inode Place.noConfusion ht⟩
  have hapart : ∀ j < bytesToSectors data.length, ∀ k < j, data.block (blockSlot j) ≠ 0 →
      data.block (blockSlot j) ≠ data.block (blockSlot k) := fun j hj k hk hne heq => by
    have ht' := hlocated (hk.trans hj) (heq ▸ hne)
    rw [← heq] at ht'
    exact Nat.ne_of_gt hk (Place.data.inj (h.blocks.linked.inj _ _ _ (hlocated hj hne) ht'))
  obtain ⟨r2, hr2, honce2, -, hlog2⟩ := releaseDirect_of_used honce hstill hapart
  refine ⟨r2, ?_, honce2.nodup, fun u => ?_⟩
  · rw [closeRemoved, inodeReleaseAll_of_le hn, hr1]
    exact hr2
  · rw [hlog2, hlog1, List.nil_append, List.mem_singleton]

theorem freesItsSectors_iff (h : OpenFile L s inode data loc) (hdev : s.OnDevice) (indirect dblIndirect : Index) :
    s.FreesItsSectors L inode data indirect dblIndirect ↔
      bytesToSectors data.length ≤ indirectBegin ∧ loc .dblIndirect = none ∧
      ∀ j < bytesToSectors data.length, data.block (blockSlot j) = 0 →
        loc (.data j) = none ∧ s.freeMap.freeCount = 0 := by
  obtain ⟨loc', b', hv⟩ := h.flushed
  rw [FreesItsSectors, hv.mapped.sectorAt_eq]
  by_cases hn : bytesToSectors data.length ≤ indirectBegin
  · rw [and_iff_right hn]
    obtain ⟨r, hr, hnodup, hlog⟩ := h.closeRemoved_eq hdev hn indirect dblIndirect
    -- what is given back belongs to the inode before the flush
    have hown {u : Sector} (hu : u ∈ r.log) : ∃ p, loc p = some u ∧
        (p = .inode ∨ ∃ j < bytesToSectors data.length, data.block (blockSlot j) ≠ 0 ∧ p = .data j) := by
      rcases (hlog u).mp hu with rfl | ⟨j, hj, hne, rfl⟩
      · exact ⟨.inode, h.blocks.root, .inl rfl⟩
      · exact ⟨.data j, h.located_of_block (Nat.lt_of_lt_of_le hj hn) hj hne, .inr ⟨j, hj, hne, rfl⟩⟩
    constructor
    · rintro ⟨r', hr', -, hexact⟩
      obtain rfl := Except.ok.inj (hr.symm.trans hr')
      have hplace {p : Place} {t : Sector} (ht : loc p = some t) : p = .inode ∨
          ∃ j < bytesToSectors data.length, data.block (blockSlot j) ≠ 0 ∧ p = .data j := by
        obtain ⟨q, hq, hkind⟩ := hown ((hexact t).mpr ⟨p, hv.grown.keep p t ht⟩)
        rwa [h.blocks.linked.inj p q t ht hq]
      refine ⟨?_, fun j hj hzero => ?_⟩
      · by_contra hdbl
        obtain ⟨t, ht⟩ := Option.ne_none_iff_exists'.mp hdbl
        rcases hplace ht with hp | ⟨j, -, -, hp⟩
        · cases hp
        · cases hp
      · have hhole : loc (.data j) = none := by
          by_contra hsome
          obtain ⟨t, ht⟩ := Option.ne_none_iff_exists'.mp hsome
          rcases hplace ht with hp | ⟨k, -, hne, hp⟩
          · cases hp
          · exact hne (Place.data.inj hp ▸ hzero)
        refine ⟨hhole, ?_⟩
        by_contra hfree
        obtain ⟨p, u, hnone, hsome⟩ := hv.filled ⟨j, Finset.mem_range.mpr hj, (h.blocks.hole_iff j).mpr ⟨hj, hhole⟩⟩
          (Nat.pos_of_ne_zero hfree)
        obtain ⟨q, hq, -⟩ := hown ((hexact u).mpr ⟨p, hsome⟩)
        exact Bool.noConfusion ((hv.grown.fresh p u hnone hsome).symm.trans (h.blocks.used q u hq))
    · rintro ⟨hdbl, hzero⟩
      have hidle : loc' = loc := by
        refine hv.idle ?_
        by_contra hno
        push Not at hno
        obtain ⟨⟨j, hj, hole⟩, hfree⟩ := hno
        have hj := Finset.mem_range.mp hj
        have hblock : data.block (blockSlot j) = 0 := by
          by_contra hne
          cases (h.located_of_block (Nat.lt_of_lt_of_le hj hn) hj hne).symm.trans hole.1
        exact hfree (hzero j hj hblock).2
      refine ⟨r, hr, hnodup, fun t => ⟨fun ht => ?_, ?_⟩⟩
      · obtain ⟨p, hp, -⟩ := hown ht
        exact ⟨p, hidle ▸ hp⟩
      · rintro ⟨p, hp⟩
        rw [hidle] at hp
        rw [hlog]
        cases p with
        | inode => exact .inl (Option.some.inj (hp.symm.trans h.blocks.root))
        | indirect => exact absurd (h.index (hp ▸ Option.some_ne_none t)) (Nat.not_lt.mpr hn)
        | dblIndirect => cases hdbl.symm.trans hp
        | leaf slot => exact absurd hdbl (h.blocks.up (p := .leaf slot) rfl hp)
        | data j =>
          have hj := h.blocks.data j (hp ▸ Option.some_ne_none t)
          have hne : data.block (blockSlot j) ≠ 0 := fun hz => by cases (hzero j hj hz).1.symm.trans hp
          have hblock := h.located_of_block (Nat.lt_of_lt_of_le hj hn) hj hne
          exact .inr ⟨j, hj, hne, Option.some.inj (hp.symm.trans hblock)⟩
  · refine iff_of_false ?_ fun hcond => hn hcond.1
    rintro ⟨r, hr, -⟩
    exact h.closeRemoved_fails (Nat.not_le.mp hn) hr

theorem freesItsSectors_oneByte : oneByte.store.FreesItsSectors diskLayout 2 oneByte.data noSectors noSectors := by
  have hmap : oneByte.store.freeMap = (freshStore 8).freeMap.setMultiple 3 1 true := rfl
  refine (openFile_oneByte.freesItsSectors_iff ?_ noSectors noSectors).mpr ⟨by decide +kernel, by decide +kernel, ?_⟩
  · intro i hi
    rw [hmap, Bitmap.bits_setMultiple_one] at hi
    show i < 8
    split_ifs at hi with hi3
    · omega
    · exact (of_decide_eq_true hi).trans (by decide)
  · decide +kernel

theorem not_freesItsSectors_indirect : ∃ s loc, (freshStore 20000).inodeCreate diskLayout 2 63488 false none =
      (true, s, none) ∧ OpenFile diskLayout s 2 (diskLayout.toInode (s.cache 2)) loc ∧
    ¬ s.FreesItsSectors diskLayout 2 (diskLayout.toInode (s.cache 2)) noSectors noSectors := by
  obtain ⟨s, loc, hcreate, h, -⟩ := @Holds.ofCreate diskLayout (freshStore 20000) 2 63488 124 false ⟨rfl, by decide⟩
    rfl (by decide) (by decide) ((Place.card_wanted_le 124).trans
      ((by decide : _ ≤ 20000 - 3).trans (le_freeCount_freshStore 20000)))
  have hlength : bytesToSectors (diskLayout.toInode (s.cache 2)).length = 124 := congrArg bytesToSectors h.length
  have hopen : OpenFile diskLayout s 2 (diskLayout.toInode (s.cache 2)) loc := .ofHolds h fun _ => by
    rw [hlength]
    decide
  refine ⟨s, loc, hcreate, hopen, ?_⟩
  rintro ⟨r, hr, -⟩
  exact hopen.closeRemoved_fails (by rw [hlength]; decide) hr

end OpenFile

end Cs162.Filesys.Store
