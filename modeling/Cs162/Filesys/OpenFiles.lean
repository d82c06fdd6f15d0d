import Mathlib.Data.Finset.Card
import Cs162.Lib.System

namespace Cs162.Filesys.OpenFiles
open Lib Function Option

structure Inode where
  sector : ℕ
  openCnt : ℕ
  denyWriteCnt : ℕ
  isDir : Bool

structure File where
  inode : ℕ
  denyWrite : Bool

structure State where
  openInodes : List ℕ
  inode : ℕ → Inode
  files : Finset ℕ
  file : ℕ → File

structure Answers where
  inode : Option ℕ
  isDir : Bool
  file : Option ℕ
  dir : Bool

namespace State

def setInode (s : State) (i : ℕ) (x : Inode) : State := { s with inode := update s.inode i x }

def setFile (s : State) (f : ℕ) (x : File) : State := { s with file := update s.file f x }

def inodeReopen (s : State) (i : ℕ) : State := s.setInode i { s.inode i with openCnt := (s.inode i).openCnt + 1 }

def findOpen (s : State) (sector : ℕ) : Option ℕ := s.openInodes.find? fun i => (s.inode i).sector = sector

def addInode (s : State) (i : ℕ) (x : Inode) : State := { s.setInode i x with openInodes := i :: s.openInodes }

def inodeOpen (s : State) (sector : ℕ) (a : Answers) : Option ℕ × State :=
  match s.findOpen sector with
  | some i => (some i, s.inodeReopen i)
  | none =>
    match a.inode with
    | some i => (some i, s.addInode i ⟨sector, 1, 0, a.isDir⟩)
    | none => (none, s)

def inodeClose (s : State) (i : ℕ) : State :=
  let s := s.setInode i { s.inode i with openCnt := (s.inode i).openCnt - 1 }
  if (s.inode i).openCnt = 0 then { s with openInodes := s.openInodes.erase i } else s

def inodeDenyWrite (s : State) (i : ℕ) : Option State :=
  if (s.inode i).denyWriteCnt + 1 ≤ (s.inode i).openCnt then
    some (s.setInode i { s.inode i with denyWriteCnt := (s.inode i).denyWriteCnt + 1 })
  else none

def inodeAllowWrite (s : State) (i : ℕ) : Option State :=
  if 0 < (s.inode i).denyWriteCnt ∧ (s.inode i).denyWriteCnt ≤ (s.inode i).openCnt then
    some (s.setInode i { s.inode i with denyWriteCnt := (s.inode i).denyWriteCnt - 1 })
  else none

def writeRefused (s : State) (i : ℕ) : Bool := (s.inode i).denyWriteCnt != 0

def deref (s : State) (f : ℕ) : Option ℕ :=
  if (s.file f).inode ∈ s.openInodes then some (s.file f).inode else none

def addFile (s : State) (f i : ℕ) : State := { s.setFile f ⟨i, false⟩ with files := insert f s.files }

def fileOpen (s : State) (i : Option ℕ) (a : Answers) : State :=
  match i, a.file with
  | some i, some f => if (s.inode i).isDir && !a.dir then (s.addFile f i).inodeClose i else s.addFile f i
  | some i, none => s.inodeClose i
  | none, _ => s

def fileReopen (s : State) (f : ℕ) (a : Answers) : Option State :=
  (s.deref f).map fun i => (s.inodeReopen i).fileOpen (some i) a

def setDeny (s : State) (f : ℕ) (b : Bool) : State := s.setFile f { s.file f with denyWrite := b }

def fileDenyWrite (s : State) (f : ℕ) : Option State :=
  if (s.file f).denyWrite then some s else (s.deref f).bind fun i => (s.setDeny f true).inodeDenyWrite i

def fileAllowWrite (s : State) (f : ℕ) : Option State :=
  if (s.file f).denyWrite then (s.deref f).bind fun i => (s.setDeny f false).inodeAllowWrite i else some s

def freeFile (s : State) (f : ℕ) : State := { s with files := s.files.erase f }

def fileClose (s : State) (f : ℕ) : Option State :=
  (s.fileAllowWrite f).bind fun s => (s.deref f).map fun i => (s.inodeClose i).freeFile f

end State

inductive Event
  | openSector (sector : ℕ) (a : Answers)
  | reopen (f : ℕ) (a : Answers)
  | denyWrite (f : ℕ)
  | allowWrite (f : ℕ)
  | close (f : ℕ)

namespace State

def next (s : State) : Event → Option State
  | .openSector sector a => some ((s.inodeOpen sector a).2.fileOpen (s.inodeOpen sector a).1 a)
  | .reopen f a => s.fileReopen f a
  | .denyWrite f => s.fileDenyWrite f
  | .allowWrite f => s.fileAllowWrite f
  | .close f => s.fileClose f

def Fresh (s : State) (a : Answers) : Prop := (∀ i ∈ a.inode, i ∉ s.openInodes) ∧ ∀ f ∈ a.file, f ∉ s.files

def Allowed (s : State) : Event → Prop
  | .openSector _ a => s.Fresh a
  | .reopen f a => f ∈ s.files ∧ s.Fresh a
  | .denyWrite f | .allowWrite f | .close f => f ∈ s.files

def opensDir (s : State) (sector : ℕ) (a : Answers) : Bool :=
  match s.findOpen sector with
  | some i => (s.inode i).isDir
  | none => a.isDir

def GetsDir (s : State) : Event → Prop
  | .openSector sector a => a.file ≠ none → s.opensDir sector a = true → a.dir = true
  | .reopen f a => a.file ≠ none → (s.inode (s.file f).inode).isDir = true → a.dir = true
  | _ => True

end State

def system : System State Event where
  init s := s.openInodes = [] ∧ s.files = ∅
  step s e s' := s.Allowed e ∧ s.next e = some s'

namespace State
variable {s : State} {f g i j : ℕ} {o : Option ℕ} {a : Answers} {x : Inode}

theorem inode_setInode (s : State) (i j : ℕ) (x : Inode) :
    (s.setInode i x).inode j = if j = i then x else s.inode j := update_apply ..

theorem file_setDeny (s : State) (f g : ℕ) (b : Bool) :
    (s.setDeny f b).file g = if g = f then { s.file f with denyWrite := b } else s.file g := update_apply ..

theorem file_addFile (s : State) (f i g : ℕ) : (s.addFile f i).file g = if g = f then ⟨i, false⟩ else s.file g :=
  update_apply ..

def holders (s : State) (i : ℕ) : Finset ℕ := s.files.filter fun f => (s.file f).inode = i

def deniers (s : State) (i : ℕ) : Finset ℕ := s.files.filter fun f => (s.file f).inode = i ∧ (s.file f).denyWrite = true

theorem mem_holders : f ∈ s.holders i ↔ f ∈ s.files ∧ (s.file f).inode = i := Finset.mem_filter

theorem mem_deniers : f ∈ s.deniers i ↔ f ∈ s.files ∧ (s.file f).inode = i ∧ (s.file f).denyWrite = true :=
  Finset.mem_filter

theorem deniers_subset (s : State) (i : ℕ) : s.deniers i ⊆ s.holders i := fun _ hf =>
  mem_holders.mpr ⟨(mem_deniers.mp hf).1, (mem_deniers.mp hf).2.1⟩

theorem holders_addFile (hf : f ∉ s.files) (j : ℕ) :
    (s.addFile f i).holders j = if j = i then insert f (s.holders j) else s.holders j := by
  have hfiles : (s.addFile f i).files = insert f s.files := rfl
  ext g
  by_cases hg : g = f
  · subst hg
    split_ifs with hj
    · simp [mem_holders, hfiles, file_addFile, hj]
    · simp [mem_holders, hfiles, file_addFile, hf, Ne.symm hj]
  · split_ifs <;> simp [mem_holders, hfiles, file_addFile, hg]

theorem deniers_addFile (hf : f ∉ s.files) (j : ℕ) : (s.addFile f i).deniers j = s.deniers j := by
  have hfiles : (s.addFile f i).files = insert f s.files := rfl
  ext g
  by_cases hg : g = f
  · subst hg
    simp [mem_deniers, file_addFile, hf]
  · simp [mem_deniers, hfiles, file_addFile, hg]

theorem holders_freeFile (s : State) (f j : ℕ) : (s.freeFile f).holders j = (s.holders j).erase f :=
  Finset.filter_erase ..

theorem deniers_freeFile (s : State) (f j : ℕ) : (s.freeFile f).deniers j = (s.deniers j).erase f :=
  Finset.filter_erase ..

theorem inode_file_setDeny (s : State) (f g : ℕ) (b : Bool) : ((s.setDeny f b).file g).inode = (s.file g).inode := by
  rw [file_setDeny]
  split_ifs with hg
  · rw [hg]
  · rfl

theorem holders_setDeny (b : Bool) (j : ℕ) : (s.setDeny f b).holders j = s.holders j :=
  Finset.filter_congr fun g _ => by rw [inode_file_setDeny]

theorem deniers_deny (hf : f ∈ s.files) (j : ℕ) :
    (s.setDeny f true).deniers j = if j = (s.file f).inode then insert f (s.deniers j) else s.deniers j := by
  have hfiles : (s.setDeny f true).files = s.files := rfl
  ext g
  by_cases hg : g = f
  · subst hg
    split_ifs with hj
    · simp [mem_deniers, hfiles, file_setDeny, hf, hj]
    · simp [mem_deniers, file_setDeny, Ne.symm hj]
  · split_ifs <;> simp [mem_deniers, hfiles, file_setDeny, hg]

theorem deniers_allow (s : State) (f j : ℕ) : (s.setDeny f false).deniers j = (s.deniers j).erase f := by
  have hfiles : (s.setDeny f false).files = s.files := rfl
  ext g
  by_cases hg : g = f
  · subst hg
    simp [mem_deniers, file_setDeny]
  · simp [mem_deniers, hfiles, file_setDeny, hg]

structure Linked (s : State) (o : Option ℕ) : Prop where
  nodup : s.openInodes.Nodup
  sector : ∀ i ∈ s.openInodes, ∀ j ∈ s.openInodes, (s.inode i).sector = (s.inode j).sector → i = j
  file : ∀ f ∈ s.files, (s.file f).inode ∈ s.openInodes
  pending : ∀ i ∈ o, i ∈ s.openInodes

def Counts (s : State) (o : Option ℕ) (i : ℕ) : Prop :=
  (s.inode i).openCnt = (s.holders i).card + (if i ∈ o then 1 else 0) ∧ 0 < (s.inode i).openCnt ∧
    (s.inode i).denyWriteCnt = (s.deniers i).card

structure Accounted (s : State) (o : Option ℕ) : Prop extends Linked s o where
  counts : ∀ i ∈ s.openInodes, s.Counts o i

namespace Linked

theorem setInode (h : s.Linked o) (hx : x.sector = (s.inode i).sector) : (s.setInode i x).Linked o := by
  have hsector : ∀ j, ((s.setInode i x).inode j).sector = (s.inode j).sector := by
    intro j
    rw [inode_setInode]
    split_ifs with hj
    · rw [hj, hx]
    · rfl
  refine ⟨h.nodup, fun j hj k hk => ?_, h.file, h.pending⟩
  rw [hsector, hsector]
  exact h.sector j hj k hk

theorem setDeny (h : s.Linked o) (f : ℕ) (b : Bool) : (s.setDeny f b).Linked o := by
  refine ⟨h.nodup, h.sector, fun g hg => ?_, h.pending⟩
  rw [inode_file_setDeny]
  exact h.file g hg

theorem deref (h : s.Linked o) (hf : f ∈ s.files) : s.deref f = some (s.file f).inode := if_pos (h.file f hf)

theorem holders_eq_empty (h : s.Linked o) (hi : i ∉ s.openInodes) : s.holders i = ∅ := by
  refine Finset.filter_eq_empty_iff.mpr fun f hf heq => hi ?_
  exact heq ▸ h.file f hf

end Linked

theorem Counts.setInode {o' : Option ℕ} (h : s.Counts o j) (hne : j ≠ i) (ho : j ∈ o' ↔ j ∈ o) :
    (s.setInode i x).Counts o' j := by
  simp only [Counts, inode_setInode, if_neg hne, ho]
  exact h

namespace Accounted

theorem inodeReopen (h : s.Accounted none) (hi : i ∈ s.openInodes) : (s.inodeReopen i).Accounted (some i) := by
  have hlinked : s.Linked (some i) := ⟨h.nodup, h.sector, h.file, fun j hj => some.inj hj ▸ hi⟩
  refine ⟨hlinked.setInode rfl, fun j hj => ?_⟩
  by_cases hji : j = i
  · subst hji
    obtain ⟨hopen, -, hdeny⟩ := h.counts j hj
    have hcnt : (s.inode j).openCnt + 1 = (s.holders j).card + 1 := congrArg (· + 1) hopen
    simp only [Counts, State.inodeReopen, inode_setInode, if_true, mem_some]
    exact ⟨hcnt, Nat.succ_pos _, hdeny⟩
  · exact (h.counts j hj).setInode hji (by simp [Ne.symm hji])

theorem addInode (h : s.Accounted none) (hi : i ∉ s.openInodes) {sector : ℕ} {isDir : Bool}
    (hnew : ∀ j ∈ s.openInodes, (s.inode j).sector ≠ sector) :
    (s.addInode i ⟨sector, 1, 0, isDir⟩).Accounted (some i) := by
  have hself : (s.addInode i ⟨sector, 1, 0, isDir⟩).inode i = ⟨sector, 1, 0, isDir⟩ := update_self ..
  have hne : ∀ {j}, j ∈ s.openInodes → j ≠ i := fun hj => ne_of_mem_of_not_mem hj hi
  have hother : ∀ {j}, j ∈ s.openInodes → (s.addInode i ⟨sector, 1, 0, isDir⟩).inode j = s.inode j := fun hj =>
    update_of_ne (hne hj) ..
  have hempty : s.holders i = ∅ := h.holders_eq_empty hi
  refine ⟨⟨List.nodup_cons.mpr ⟨hi, h.nodup⟩, fun j hj k hk => ?_, fun f hf => List.mem_cons_of_mem _ (h.file f hf),
    fun j hj => some.inj hj ▸ List.mem_cons_self ..⟩, fun j hj => ?_⟩
  · rcases List.mem_cons.mp hj with hji | hjs <;> rcases List.mem_cons.mp hk with hki | hks
    · exact fun _ => hji.trans hki.symm
    · rw [hji, hself, hother hks]
      exact fun heq => absurd heq.symm (hnew k hks)
    · rw [hki, hself, hother hjs]
      exact fun heq => absurd heq (hnew j hjs)
    · rw [hother hjs, hother hks]
      exact h.sector j hjs k hks
  · rcases List.mem_cons.mp hj with rfl | hj
    · have hnone : s.deniers j = ∅ := Finset.subset_empty.mp (hempty ▸ s.deniers_subset j)
      rw [Counts, hself]
      change 1 = (s.holders j).card + _ ∧ _ ∧ 0 = (s.deniers j).card
      simp [hempty, hnone]
    · exact (h.counts j hj).setInode (hne hj) (by simp [(hne hj).symm])

theorem inodeOpen (h : s.Accounted none) (ha : ∀ i ∈ a.inode, i ∉ s.openInodes) (sector : ℕ) :
    (s.inodeOpen sector a).2.Accounted (s.inodeOpen sector a).1 := by
  rw [State.inodeOpen]
  cases hfind : s.findOpen sector with
  | some i => exact h.inodeReopen (List.mem_of_find?_eq_some hfind)
  | none =>
    have hnew : ∀ i ∈ s.openInodes, (s.inode i).sector ≠ sector := fun i hi => by
      simpa using List.find?_eq_none.mp hfind i hi
    cases hi : a.inode with
    | none => exact h
    | some i => exact h.addInode (ha i hi) hnew

theorem inodeClose (h : s.Accounted (some i)) : (s.inodeClose i).Accounted none := by
  have hi : i ∈ s.openInodes := h.pending i rfl
  obtain ⟨hopen, -, hdeny⟩ := h.counts i hi
  have hcnt : (s.inode i).openCnt - 1 = (s.holders i).card := by
    rw [hopen, if_pos (mem_some_self i), Nat.add_sub_cancel]
  have hlinked : (s.setInode i { s.inode i with openCnt := (s.inode i).openCnt - 1 }).Linked none :=
    Linked.setInode ⟨h.nodup, h.sector, h.file, nofun⟩ rfl
  have hother : ∀ j ∈ s.openInodes, j ≠ i →
      (s.setInode i { s.inode i with openCnt := (s.inode i).openCnt - 1 }).Counts none j := fun j hj hne =>
    (h.counts j hj).setInode hne (by simp [hne.symm])
  rw [State.inodeClose]
  simp only [inode_setInode, if_true]
  split_ifs with hzero
  · have hempty : s.holders i = ∅ := Finset.card_eq_zero.mp (hcnt.symm.trans hzero)
    have hmem : ∀ {j}, j ∈ s.openInodes.erase i → j ∈ s.openInodes ∧ j ≠ i := fun hj =>
      (h.nodup.mem_erase_iff.mp hj).symm
    refine ⟨⟨h.nodup.erase i, fun j hj k hk => hlinked.sector j (hmem hj).1 k (hmem hk).1, fun f hf => ?_, nofun⟩,
      fun j hj => hother j (hmem hj).1 (hmem hj).2⟩
    refine h.nodup.mem_erase_iff.mpr ⟨fun heq => ?_, h.file f hf⟩
    have hholds : f ∈ s.holders i := mem_holders.mpr ⟨hf, heq⟩
    rw [hempty] at hholds
    exact absurd hholds (Finset.notMem_empty f)
  · refine ⟨hlinked, fun j hj => ?_⟩
    by_cases hji : j = i
    · subst hji
      simp only [Counts, inode_setInode, if_true]
      exact ⟨hcnt, Nat.pos_of_ne_zero hzero, hdeny⟩
    · exact hother j hj hji

theorem addFile (h : s.Accounted (some i)) (hf : f ∉ s.files) : (s.addFile f i).Accounted none := by
  refine ⟨⟨h.nodup, h.sector, fun g hg => ?_, nofun⟩, fun j hj => ?_⟩
  · rw [file_addFile]
    split_ifs with hgf
    · exact h.pending i rfl
    · exact h.file g (Finset.mem_of_mem_insert_of_ne hg hgf)
  · obtain ⟨hopen, hpos, hdeny⟩ := h.counts j hj
    refine ⟨?_, hpos, (deniers_addFile (i := i) hf j).symm ▸ hdeny⟩
    change (s.inode j).openCnt = _
    rw [holders_addFile hf, hopen]
    by_cases hji : j = i
    · have hnew : f ∉ s.holders j := fun hmem => hf (mem_holders.mp hmem).1
      subst hji
      simp [Finset.card_insert_of_notMem hnew]
    · simp [hji, Ne.symm hji]

theorem fileOpen (h : s.Accounted o) (ha : ∀ f ∈ a.file, f ∉ s.files)
    (hdir : ∀ i ∈ o, a.file ≠ none → (s.inode i).isDir = true → a.dir = true) : (s.fileOpen o a).Accounted none := by
  cases o with
  | none => exact h
  | some i =>
    unfold State.fileOpen
    cases hf : a.file with
    | none => exact h.inodeClose
    | some f =>
      have hgets : ¬ ((s.inode i).isDir && !a.dir) = true := by
        rw [Bool.and_eq_true, Bool.not_eq_true']
        rintro ⟨hd, hnone⟩
        rw [hdir i rfl (by simp [hf]) hd] at hnone
        exact Bool.false_ne_true hnone.symm
      dsimp only
      rw [if_neg hgets]
      exact h.addFile (ha f hf)

theorem fileReopen (h : s.Accounted none) (hf : f ∈ s.files) :
    s.fileReopen f a = some ((s.inodeReopen (s.file f).inode).fileOpen (some (s.file f).inode) a) := by
  rw [State.fileReopen, h.deref hf, map_some]

theorem setDeny (h : s.Accounted none) {b : Bool} {n : ℕ}
    (hown : n = ((s.setDeny f b).deniers (s.file f).inode).card)
    (hrest : ∀ j, j ≠ (s.file f).inode → (s.setDeny f b).deniers j = s.deniers j) :
    ((s.setDeny f b).setInode (s.file f).inode { s.inode (s.file f).inode with denyWriteCnt := n }).Accounted none := by
  refine ⟨(h.toLinked.setDeny f b).setInode rfl, fun j hj => ?_⟩
  obtain ⟨hopen, hpos, hdeny⟩ := h.counts j hj
  by_cases hj' : j = (s.file f).inode
  · subst hj'
    simp only [Counts, inode_setInode, if_true]
    refine ⟨?_, hpos, hown⟩
    change _ = ((s.setDeny f b).holders _).card + _
    rw [holders_setDeny]
    exact hopen
  · refine Counts.setInode (o := none) ⟨?_, hpos, ?_⟩ hj' Iff.rfl
    · rw [holders_setDeny]
      exact hopen
    · rw [hrest j hj']
      exact hdeny

theorem fileDenyWrite (h : s.Accounted none) (hf : f ∈ s.files) :
    ∃ s', s.fileDenyWrite f = some s' ∧ s'.Accounted none := by
  rw [State.fileDenyWrite]
  split_ifs with hflag
  · exact ⟨s, rfl, h⟩
  · obtain ⟨hopen, -, hdeny⟩ := h.counts _ (h.file f hf)
    have hnot : f ∉ s.deniers (s.file f).inode := fun hmem => hflag (mem_deniers.mp hmem).2.2
    have hassert : (s.inode (s.file f).inode).denyWriteCnt + 1 ≤ (s.inode (s.file f).inode).openCnt := by
      rw [hdeny, hopen, ← Finset.card_insert_of_notMem hnot]
      exact Finset.card_le_card (Finset.insert_subset (mem_holders.mpr ⟨hf, rfl⟩) (s.deniers_subset _))
    have hcall : (s.setDeny f true).inodeDenyWrite (s.file f).inode = some _ := if_pos hassert
    rw [h.deref hf, bind_some, hcall]
    refine ⟨_, rfl, h.setDeny ?_ fun j hj => ?_⟩
    · rw [deniers_deny hf, if_pos rfl, Finset.card_insert_of_notMem hnot]
      exact congrArg (· + 1) hdeny
    · rw [deniers_deny hf, if_neg hj]

theorem fileAllowWrite (h : s.Accounted none) (hf : f ∈ s.files) : ∃ s', s.fileAllowWrite f = some s' ∧
    s'.Accounted none ∧ f ∈ s'.files ∧ f ∉ s'.deniers (s'.file f).inode := by
  rw [State.fileAllowWrite]
  split_ifs with hflag
  · obtain ⟨hopen, -, hdeny⟩ := h.counts _ (h.file f hf)
    have hmem : f ∈ s.deniers (s.file f).inode := mem_deniers.mpr ⟨hf, rfl, hflag⟩
    have hassert : 0 < (s.inode (s.file f).inode).denyWriteCnt ∧
        (s.inode (s.file f).inode).denyWriteCnt ≤ (s.inode (s.file f).inode).openCnt := by
      rw [hdeny, hopen]
      exact ⟨Finset.card_pos.mpr ⟨f, hmem⟩, Finset.card_le_card (s.deniers_subset _)⟩
    have hcall : (s.setDeny f false).inodeAllowWrite (s.file f).inode = some _ := if_pos hassert
    rw [h.deref hf, bind_some, hcall]
    refine ⟨_, rfl, h.setDeny ?_ fun j hj => ?_, hf, fun hin => ?_⟩
    · rw [deniers_allow, Finset.card_erase_of_mem hmem]
      exact congrArg (· - 1) hdeny
    · rw [deniers_allow, Finset.erase_eq_of_notMem fun hin => hj (mem_deniers.mp hin).2.1.symm]
    · have hcleared : f ∈ ((s.deniers _).erase f) := s.deniers_allow f _ ▸ hin
      exact Finset.notMem_erase f _ hcleared
  · exact ⟨s, rfl, h, hf, fun hin => hflag (mem_deniers.mp hin).2.2⟩

theorem freeFile (h : s.Accounted none) (hf : f ∈ s.files) (hflag : f ∉ s.deniers (s.file f).inode) :
    (s.freeFile f).Accounted (some (s.file f).inode) := by
  refine ⟨⟨h.nodup, h.sector, fun g hg => h.file g (Finset.mem_of_mem_erase hg),
    fun j hj => some.inj hj ▸ h.file f hf⟩, fun j hj => ?_⟩
  obtain ⟨hopen, hpos, hdeny⟩ := h.counts j hj
  refine ⟨?_, hpos, ?_⟩
  · change (s.inode j).openCnt = _
    rw [holders_freeFile, hopen]
    by_cases hj' : (s.file f).inode = j
    · have hmem : f ∈ s.holders j := mem_holders.mpr ⟨hf, hj'⟩
      simp [hj', Finset.card_erase_add_one hmem]
    · have hnot : f ∉ s.holders j := fun hmem => hj' (mem_holders.mp hmem).2
      simp [hj', Finset.erase_eq_of_notMem hnot]
  · rw [deniers_freeFile, Finset.erase_eq_of_notMem]
    · exact hdeny
    · intro hmem
      obtain ⟨-, rfl, -⟩ := mem_deniers.mp hmem
      exact hflag hmem

theorem inodeClose_freeFile (s : State) (i f : ℕ) : (s.inodeClose i).freeFile f = (s.freeFile f).inodeClose i := by
  unfold State.inodeClose
  exact apply_ite (State.freeFile · f) _ _ _

theorem fileClose (h : s.Accounted none) (hf : f ∈ s.files) : ∃ s', s.fileClose f = some s' ∧ s'.Accounted none := by
  obtain ⟨s₁, hallow, h₁, hf₁, hflag⟩ := h.fileAllowWrite hf
  rw [State.fileClose, hallow, bind_some, h₁.deref hf₁, map_some, inodeClose_freeFile]
  refine ⟨_, rfl, ?_⟩
  exact (h₁.freeFile hf₁ hflag).inodeClose

theorem isDir_inodeOpen {sector : ℕ} (hi : i ∈ (s.inodeOpen sector a).1) :
    ((s.inodeOpen sector a).2.inode i).isDir = s.opensDir sector a := by
  unfold State.inodeOpen opensDir at *
  cases hfind : s.findOpen sector with
  | some j =>
    rw [hfind] at hi
    obtain rfl := some.inj hi
    change ((s.inodeReopen j).inode j).isDir = (s.inode j).isDir
    rw [State.inodeReopen, inode_setInode, if_pos rfl]
  | none =>
    rw [hfind] at hi
    cases hj : a.inode with
    | none =>
      rw [hj] at hi
      exact nomatch hi
    | some j =>
      rw [hj] at hi
      obtain rfl := some.inj hi
      change ((s.setInode j ⟨sector, 1, 0, a.isDir⟩).inode j).isDir = a.isDir
      rw [inode_setInode, if_pos rfl]

theorem next (h : s.Accounted none) {e : Event} (ha : s.Allowed e) :
    ∃ s', s.next e = some s' ∧ (s.GetsDir e → s'.Accounted none) := by
  cases e with
  | openSector sector a =>
    refine ⟨_, rfl, fun hdir => (h.inodeOpen ha.1 sector).fileOpen (fun f hf => ?_) fun i hi hfile hd => ?_⟩
    · have hfiles : (s.inodeOpen sector a).2.files = s.files := by
        unfold State.inodeOpen
        split
        · rfl
        · split <;> rfl
      rw [hfiles]
      exact ha.2 f hf
    · exact hdir hfile (isDir_inodeOpen hi ▸ hd)
  | reopen f a =>
    refine ⟨_, h.fileReopen ha.1, fun hdir => (h.inodeReopen (h.file f ha.1)).fileOpen ha.2.2 fun i hi hfile hd => ?_⟩
    obtain rfl := some.inj hi
    rw [State.inodeReopen, inode_setInode, if_pos rfl] at hd
    exact hdir hfile hd
  | denyWrite f =>
    obtain ⟨s', hs, h'⟩ := h.fileDenyWrite ha
    exact ⟨s', hs, fun _ => h'⟩
  | allowWrite f =>
    obtain ⟨s', hs, h', -⟩ := h.fileAllowWrite ha
    exact ⟨s', hs, fun _ => h'⟩
  | close f =>
    obtain ⟨s', hs, h'⟩ := h.fileClose ha
    exact ⟨s', hs, fun _ => h'⟩

end Accounted

theorem accounted_of_reach (h : system.ReachVia GetsDir s) : s.Accounted none := by
  refine System.ReachVia.invariant (I := fun s => s.Accounted none) ?_ ?_ h
  · rintro s ⟨hinodes, hfiles⟩
    have hnone : ∀ i, i ∉ s.openInodes := fun i hi => List.not_mem_nil (hinodes ▸ hi)
    refine ⟨⟨hinodes ▸ List.nodup_nil, fun i hi => absurd hi (hnone i), fun f hf => ?_, nofun⟩,
      fun i hi => absurd hi (hnone i)⟩
    rw [hfiles] at hf
    exact absurd hf (Finset.notMem_empty f)
  · rintro s e s' hi hdir ⟨ha, hs⟩
    obtain ⟨s₁, hs₁, h₁⟩ := hi.next ha
    exact some.inj (hs₁.symm.trans hs) ▸ h₁ hdir

theorem accounted_and_asserted (h : system.ReachVia GetsDir s) : s.Accounted none ∧
    (∀ i ∈ s.openInodes, s.writeRefused i = true ↔ 0 < (s.deniers i).card) ∧ ∀ e, s.Allowed e → s.next e ≠ none := by
  have hacc := accounted_of_reach h
  refine ⟨hacc, fun i hi => ?_, fun e he => ?_⟩
  · rw [writeRefused, bne_iff_ne, (hacc.counts i hi).2.2, Nat.pos_iff_ne_zero]
  · obtain ⟨s', hs', -⟩ := hacc.next he
    rw [hs']
    exact some_ne_none s'

def booted : State := ⟨[], fun _ => ⟨0, 0, 0, false⟩, ∅, fun _ => ⟨0, false⟩⟩

theorem accounted_and_asserted_shared : ∃ s : State, system.ReachVia GetsDir s ∧ s.openInodes = [100] ∧
    s.files = {200, 201} ∧ s.writeRefused 100 = true ∧ s.Accounted none ∧ ∀ e, s.Allowed e → s.next e ≠ none := by
  have hinit : system.ReachVia GetsDir booted := .init ⟨rfl, rfl⟩
  have hopen : system.ReachVia GetsDir _ := .step hinit (l := .openSector 7 ⟨some 100, false, some 200, true⟩)
    (fun _ _ => rfl) ⟨⟨by simp [booted], by simp [booted]⟩, rfl⟩
  have hreopen : system.ReachVia GetsDir _ := .step hopen (l := .reopen 200 ⟨none, false, some 201, true⟩)
    (fun _ _ => rfl) ⟨⟨by decide, by simp, by decide⟩, rfl⟩
  have hreach : system.ReachVia GetsDir _ := .step hreopen (l := .denyWrite 201) trivial
    ⟨Finset.mem_insert_self 201 _, rfl⟩
  have hall := accounted_and_asserted hreach
  exact ⟨_, hreach, rfl, by decide, rfl, hall.1, hall.2.2⟩

theorem open_closes_inode : ∃ s : State, system.Reach s ∧ s.files = {200} ∧ (s.file 200).inode = 100 ∧
    s.openInodes = [] ∧ ¬ s.Accounted none ∧ s.next (.denyWrite 200) = none := by
  have hinit : system.Reach booted := .init ⟨rfl, rfl⟩
  have hreach : system.Reach _ := .step hinit (l := .openSector 7 ⟨some 100, true, some 200, false⟩)
    trivial ⟨⟨by simp [booted], by simp [booted]⟩, rfl⟩
  refine ⟨_, hreach, by decide, rfl, rfl, fun hacc => ?_, rfl⟩
  exact List.not_mem_nil (hacc.file 200 (by decide))

end State

end Cs162.Filesys.OpenFiles
