import Cs162.Filesys.DirEntries
import Cs162.Lib.NamedTree

namespace Cs162.Filesys.FileSystem
open Lib Function

inductive Reachable (fs : FileSystem) : Inumber → Prop
  | root : Reachable fs rootInumber
  | entry {dir : Inumber} {e : DirEntry} : Reachable fs dir → e ∈ fs.entries dir → e.inUse = true →
      fs.isDir e.inodeSector = true → Reachable fs e.inodeSector

structure WellFormed (fs : FileSystem) : Prop where
  own : ∀ dir, fs.Reachable dir → fs.dirLookup dir dot = some dir
  parent : ∀ dir e, fs.Reachable dir → e ∈ fs.entries dir → e.inUse = true → e.name ≠ dot → e.name ≠ dotDot →
    fs.isDir e.inodeSector = true → fs.dirLookup e.inodeSector dotDot = some dir
  root_parent : fs.dirLookup rootInumber dotDot = some rootInumber
  unique : ∀ dir, fs.Reachable dir → NamesUnique (fs.entries dir)
  kept : ∀ dir e, fs.Reachable dir → e ∈ fs.entries dir → e.inUse = true →
    fs.freeMap e.inodeSector = true ∧ fs.removed e.inodeSector = false
  root_kept : fs.freeMap rootInumber = true ∧ fs.removed rootInumber = false

def Careful (_ : FileSystem) : Event → Prop
  | .create _ _ _ o => o.creation ≠ .noSector ∧ o.write ≠ .lost
  | .mkdir _ _ o => o.write ≠ .lost ∧
      (o.write = .stored → o.subdirOpened = true ∧ o.writeDot = .stored ∧ o.writeDotDot = .stored)
  | _ => True

def tree (fs : FileSystem) : NamedTree Inumber Name where
  live inode := fs.freeMap inode = true ∧ fs.removed inode = false
  isDir inode := fs.isDir inode = true
  link := fs.dirLookup

structure Inv (fs : FileSystem) : Prop where
  tree : fs.tree.Wf rootInumber dot dotDot
  unique : ∀ dir, fs.tree.Dir dir → NamesUnique (fs.entries dir)
  blank : ∀ inode, fs.tree.live inode → fs.isDir inode = false → ∀ e ∈ fs.entries inode, e.inUse = false
  openUsed : ∀ inode, 0 < fs.openCnt inode → fs.freeMap inode = true
  openDir : ∀ dir, 0 < fs.openCnt dir → fs.isDir dir = true → fs.removed dir = false
  removedUsed : ∀ inode, fs.removed inode = true → fs.freeMap inode = true

variable {fs fs' : FileSystem} {curDir dir sector : Inumber} {name : Name}

theorem ne_of_live (hs : fs.freeMap sector = false) {i : Inumber} (hi : fs.tree.live i) : i ≠ sector := by
  rintro rfl
  simp [hi.1] at hs

namespace Inv

theorem dir_of_calls (h : fs.Inv) (hc : fs.Calls curDir) : fs.tree.Dir curDir :=
  ⟨⟨h.openUsed curDir hc.2, h.openDir curDir hc.2 hc.1⟩, hc.1⟩

theorem follow_live (h : fs.Inv) (names : List Name) (hd : fs.tree.Dir dir) :
    match fs.follow dir names with
    | .reached dir' => fs.tree.Dir dir'
    | .missing => True
    | .blocked inode => fs.tree.live inode := by
  induction names generalizing dir with
  | nil => exact hd
  | cons name names ih =>
    rw [Dirs.follow]
    rcases hlook : fs.dirLookup dir name with _ | inode
    · trivial
    · have hlive : fs.tree.live inode := h.tree.live_link dir name inode hd hlook
      by_cases hdir : fs.isDir inode = true
      · simpa only [hdir, if_true] using ih ⟨hlive, hdir⟩
      · simpa only [if_neg hdir] using hlive

theorem inodeOpenPath_live (h : fs.Inv) (hc : fs.tree.Dir curDir) {path : List Char} {inode : Inumber}
    (hopen : fs.inodeOpenPath curDir path = (some inode, name)) :
    fs.tree.live inode ∧ (fs.isDir inode = true ∨ name = []) := by
  by_cases hne : path = []
  · simp [Dirs.inodeOpenPath, hne] at hopen
  by_cases hroot : path = ['/']
  · simp only [Dirs.inodeOpenPath, hroot] at hopen
    cases hopen
    exact ⟨h.tree.root_dir.1, .inl h.tree.root_dir.2⟩
  have hstart : fs.tree.Dir (Dirs.workingDir curDir path) := by
    unfold Dirs.workingDir
    split_ifs
    · exact h.tree.root_dir
    · exact hc
  have hlive := h.follow_live (splitPath path).1 hstart
  rw [inodeOpenPath_eq hne hroot] at hopen
  rcases hwalk : fs.follow (Dirs.workingDir curDir path) (splitPath path).1 with dir | _ | blocked
  · rw [hwalk] at hopen hlive
    obtain ⟨hlook, -⟩ := Prod.mk.inj hopen
    obtain rfl : dir = inode := Option.some.inj ((h.tree.own_link dir hlive).symm.trans hlook)
    exact ⟨hlive.1, .inl hlive.2⟩
  · rw [hwalk] at hopen
    cases hopen
  · rw [hwalk] at hopen hlive
    cases hopen
    exact ⟨hlive, .inr rfl⟩

theorem dir_of_lookup (h : fs.Inv) (hlive : fs.tree.live dir) {inode : Inumber}
    (hlook : fs.dirLookup dir name = some inode) : fs.tree.Dir dir := by
  refine ⟨hlive, ?_⟩
  by_contra hfile
  obtain ⟨e, he, -⟩ := Option.map_eq_some_iff.mp hlook
  have hin := h.blank dir hlive (by simpa [FileSystem.tree] using hfile) e (List.mem_of_find?_eq_some he)
  simpa [hin] using List.find?_some he

theorem congr (h : fs.Inv) (hlive : ∀ i, fs'.tree.live i ↔ fs.tree.live i)
    (hsame : ∀ i, fs.tree.live i → fs'.isDir i = fs.isDir i ∧ fs'.entries i = fs.entries i)
    (hused : ∀ i, 0 < fs'.openCnt i → fs'.freeMap i = true)
    (hopen : ∀ d, 0 < fs'.openCnt d → fs'.isDir d = true → fs'.removed d = false)
    (hremoved : ∀ i, fs'.removed i = true → fs'.freeMap i = true) : fs'.Inv := by
  have hdir : ∀ d, fs'.tree.Dir d → fs.tree.Dir d := fun d hd =>
    have hl := (hlive d).mp hd.1
    ⟨hl, (hsame d hl).1.symm.trans hd.2⟩
  refine ⟨h.tree.congr hlive (fun i hl => ?_) (fun d hd => ?_), fun d hd => ?_, fun i hl hi => ?_,
    hused, hopen, hremoved⟩
  · simp only [FileSystem.tree, (hsame i hl).1]
  · funext name
    exact congrArg (fun es => (findEntry name es).map (·.inodeSector)) (hsame d hd.1).2
  · have hd' := hdir d hd
    exact (hsame d hd'.1).2 ▸ h.unique d hd'
  · have hl' := (hlive i).mp hl
    obtain ⟨hi', he'⟩ := hsame i hl'
    exact he' ▸ h.blank i hl' (hi' ▸ hi)

end Inv

structure Takes (fs fs' : FileSystem) (sector : Inumber) : Prop where
  unused : fs.freeMap sector = false
  freeMap : fs'.freeMap = update fs.freeMap sector true
  removed : fs'.removed = fs.removed
  openCnt : fs'.openCnt = fs.openCnt
  isDir : ∀ i, i ≠ sector → fs'.isDir i = fs.isDir i

theorem Takes.freeMap_mark (ht : fs.Takes fs' sector) : (fs'.mark sector false).freeMap = fs.freeMap := by
  rw [mark, ht.freeMap, update_idem, ← ht.unused, update_eq_self]

namespace Inv

theorem unremoved (h : fs.Inv) (hs : fs.freeMap sector = false) : fs.removed sector = false := by
  by_contra hr
  exact Bool.noConfusion (hs.symm.trans (h.removedUsed sector (by simpa using hr)))

theorem adds (h : fs.Inv) (ht : fs.Takes fs' sector) (hd : fs.tree.Dir dir)
    (hn : findEntry name (fs.entries dir) = none)
    (hold : ∀ i, i ≠ sector → i ≠ dir → fs'.entries i = fs.entries i)
    (hparent : fs'.entries dir = addEntry ⟨sector, name, true⟩ (fs.entries dir))
    (hdirs : fs'.isDir sector = true → fs'.entries sector = [⟨sector, dot, true⟩, ⟨dir, dotDot, true⟩]) :
    fs.tree.Adds dot dotDot fs'.tree dir name sector := by
  have hne : ∀ i, fs.tree.live i → i ≠ sector := fun i hi => ne_of_live ht.unused hi
  have hlive : ∀ i, fs'.tree.live i ↔ fs.tree.live i ∨ i = sector := fun i => by
    by_cases hi : i = sector <;> simp [FileSystem.tree, ht.freeMap, ht.removed, hi, h.unremoved ht.unused]
  refine ⟨hd, ?_, fun hl => hne sector hl rfl, hlive, fun i hi => ?_, ?_, fun d m hdm hm => ?_, fun hsd m => ?_⟩
  · exact congrArg (Option.map (·.inodeSector)) hn
  · simp only [FileSystem.tree, ht.isDir i (hne i hi)]
  · change fs'.dirLookup dir name = some sector
    rw [Dirs.dirLookup_eq, hparent, findEntry_addEntry hn, if_pos rfl]
    rfl
  · change fs'.dirLookup d m = fs.dirLookup d m
    rw [Dirs.dirLookup_eq, Dirs.dirLookup_eq]
    by_cases hdd : d = dir
    · subst hdd
      rw [hparent, findEntry_addEntry hn, if_neg (hm rfl)]
    · rw [hold d (hne d hdm.1) hdd]
  · change fs'.dirLookup sector m = _ ∧ _ ∨ fs'.dirLookup sector m = _ ∧ _ ∨ fs'.dirLookup sector m = _ ∧ _
    rw [Dirs.dirLookup_eq, hdirs hsd]
    by_cases hown : m = dot
    · exact .inl ⟨by simp [findEntry_cons, hown], hown⟩
    by_cases hup : m = dotDot
    · exact .inr (.inl ⟨by simp [findEntry_cons, hup, dot, dotDot], hup⟩)
    · exact .inr (.inr ⟨by simp [findEntry, Ne.symm hown, Ne.symm hup], hown, hup⟩)

theorem add (h : fs.Inv) (ht : fs.Takes fs' sector) (hd : fs.tree.Dir dir)
    (hn : findEntry name (fs.entries dir) = none)
    (hold : ∀ i, i ≠ sector → i ≠ dir → fs'.entries i = fs.entries i)
    (hparent : fs'.entries dir = addEntry ⟨sector, name, true⟩ (fs.entries dir))
    (hdirs : fs'.isDir sector = true → fs'.entries sector = [⟨sector, dot, true⟩, ⟨dir, dotDot, true⟩])
    (hfiles : fs'.isDir sector = false → ∀ e ∈ fs'.entries sector, e.inUse = false) : fs'.Inv := by
  have hunrem := h.unremoved ht.unused
  have hne : ∀ i, fs.tree.live i → i ≠ sector := fun i hi => ne_of_live ht.unused hi
  have hadds := h.adds ht hd hn hold hparent hdirs
  have hlive := hadds.live
  refine ⟨h.tree.adds hadds (by decide), fun d hd' => ?_, fun i hi hfile => ?_, fun i hi => ?_, fun d hcd hdd => ?_,
    fun i hi => ?_⟩
  · rcases (hadds.dir_iff d).mp hd' with hd' | ⟨rfl, hsd⟩
    · by_cases hdd : d = dir
      · subst hdd
        exact hparent ▸ (h.unique d hd).addEntry hn
      · exact hold d (hne d hd'.1) hdd ▸ h.unique d hd'
    · rw [hdirs hsd]
      simp [NamesUnique, dot, dotDot]
  · rcases (hlive i).mp hi with hi' | rfl
    · have hkind := ht.isDir i (hne i hi')
      have hdd : i ≠ dir := by
        rintro rfl
        exact Bool.noConfusion (hd.2.symm.trans (hkind.symm.trans hfile))
      exact hold i (hne i hi') hdd ▸ h.blank i hi' (hkind ▸ hfile)
    · exact hfiles hfile
  · rw [ht.openCnt] at hi
    by_cases his : i = sector
    · simp [ht.freeMap, his]
    · simpa [ht.freeMap, his] using h.openUsed i hi
  · rw [ht.openCnt] at hcd
    rw [ht.removed]
    by_cases hds : d = sector
    · exact hds ▸ hunrem
    · exact h.openDir d hcd (ht.isDir d hds ▸ hdd)
  · rw [ht.removed] at hi
    by_cases his : i = sector
    · simp [ht.freeMap, his]
    · simpa [ht.freeMap, his] using h.removedUsed i hi

theorem release (h : fs.Inv) (ht : fs.Takes fs' sector) (hold : ∀ i, i ≠ sector → fs'.entries i = fs.entries i) :
    (fs'.mark sector false).Inv := by
  have hfree := ht.freeMap_mark
  refine h.congr (fun i => ?_) (fun i hi => ?_) (fun i hi => ?_) (fun d hcd hd => ?_) (fun i hi => ?_)
  · change _ ∧ fs'.removed i = false ↔ _
    rw [hfree, ht.removed]
    rfl
  · have hne := ne_of_live ht.unused hi
    exact ⟨ht.isDir i hne, hold i hne⟩
  · rw [hfree]
    exact h.openUsed i (ht.openCnt ▸ hi)
  · have hcd' : 0 < fs.openCnt d := ht.openCnt ▸ hcd
    have hne : d ≠ sector := by
      rintro rfl
      exact Bool.noConfusion (ht.unused.symm.trans (h.openUsed d hcd'))
    change fs'.removed d = false
    rw [ht.removed]
    exact h.openDir d hcd' ((ht.isDir d hne).symm.trans hd)
  · rw [hfree]
    exact h.removedUsed i (ht.removed ▸ hi)

theorem removes (h : fs.Inv) (hd : fs.tree.Dir dir) {inode : Inumber} (hl : fs.dirLookup dir name = some inode)
    (hother : fs.isDir inode = true → inode ≠ dir) (hempty : fs.isDir inode = true → fs.dirIsEmpty inode = true) :
    fs.tree.Removes dot dotDot ((fs.setEntries dir (eraseEntry name (fs.entries dir))).inodeRemove inode).tree
      dir name inode := by
  set fs' := (fs.setEntries dir (eraseEntry name (fs.entries dir))).inodeRemove inode with hfs'
  have hlive : ∀ i, fs'.tree.live i ↔ fs.tree.live i ∧ i ≠ inode := fun i => by
    by_cases hi : i = inode <;> simp [hfs', FileSystem.tree, setEntries, inodeRemove, hi]
  have hlook : ∀ d m, fs'.dirLookup d m = if d = dir ∧ m = name then none else fs.dirLookup d m := fun d m => by
    simp only [Dirs.dirLookup_eq, hfs', setEntries, inodeRemove]
    by_cases hdd : d = dir
    · subst hdd
      rw [update_self, findEntry_eraseEntry (h.unique d hd)]
      by_cases hm : m = name <;> simp [hm]
    · simp [hdd]
  refine ⟨hd, hl, hother, fun hi => (dirIsEmpty_eq_true fs inode).mp (hempty hi), hlive, fun _ _ _ => Iff.rfl, ?_,
    fun d m _ _ hm => ?_⟩
  · exact (hlook dir name).trans (if_pos ⟨rfl, rfl⟩)
  · exact (hlook d m).trans (if_neg fun hdm => hm hdm.1 hdm.2)

theorem remove (h : fs.Inv) (hd : fs.tree.Dir dir) {inode : Inumber} (hl : fs.dirLookup dir name = some inode)
    (hshut : fs.isDir inode = true → inode ≠ dir ∧ fs.openCnt inode = 0)
    (hempty : fs.isDir inode = true → fs.dirIsEmpty inode = true) :
    Inv ((fs.setEntries dir (eraseEntry name (fs.entries dir))).inodeRemove inode) := by
  have hrm := h.removes hd hl (fun hi => (hshut hi).1) hempty
  set fs' := (fs.setEntries dir (eraseEntry name (fs.entries dir))).inodeRemove inode with hfs'
  have hlive := hrm.live
  refine ⟨h.tree.removes hrm, fun d hd' => ?_, fun i hi hfile => ?_, h.openUsed, fun d hcd hdd => ?_, fun i hi => ?_⟩
  · have hunique := h.unique d ((hrm.dir_iff d).mp hd').1
    by_cases hdd : d = dir
    · subst hdd
      simpa [hfs', setEntries, inodeRemove] using hunique.eraseEntry
    · simpa [hfs', setEntries, inodeRemove, hdd] using hunique
  · have hi' := ((hlive i).mp hi).1
    have hdd : i ≠ dir := by
      rintro rfl
      exact Bool.noConfusion (hd.2.symm.trans hfile)
    simpa [hfs', setEntries, inodeRemove, hdd] using h.blank i hi' hfile
  · have hdi : d ≠ inode := by
      rintro rfl
      exact Nat.ne_of_gt hcd (hshut hdd).2
    simpa [hfs', setEntries, inodeRemove, hdi] using h.openDir d hcd hdd
  · by_cases hii : i = inode
    · exact hii ▸ (h.tree.live_link dir name inode hd hl).1
    · exact h.removedUsed i (by simpa [hfs', setEntries, inodeRemove, hii] using hi)

theorem reap (h : fs.Inv) (inode : Inumber) : (fs.reap inode).Inv := by
  unfold FileSystem.reap
  split_ifs with hdead
  · refine h.congr (fun i => ?_) (fun _ _ => ⟨rfl, rfl⟩) (fun i hi => ?_) (fun d hcd hd => ?_) (fun i hi => ?_)
    · by_cases hi : i = inode <;> simp [FileSystem.tree, mark, hi, hdead.2]
    · have hne : i ≠ inode := fun hne => Nat.ne_of_gt hi (hne ▸ hdead.1)
      simpa [mark, hne] using h.openUsed i hi
    · have hne : d ≠ inode := fun hne => Nat.ne_of_gt hcd (hne ▸ hdead.1)
      simpa [hne] using h.openDir d hcd hd
    · by_cases hne : i = inode
      · simp [hne] at hi
      · simpa [mark, hne] using h.removedUsed i (by simpa [hne] using hi)
  · exact h

section NewInode
variable (h : fs.Inv) (hs : fs.freeMap sector = false)
include h hs

theorem newInode_eq (isDir : Bool) (slots : ℕ) : (fs.mark sector true).newInode sector isDir slots =
    { fs.mark sector true with
      isDir := update fs.isDir sector isDir
      entries := update fs.entries sector (List.replicate slots freeEntry) } := by
  refine if_pos ?_
  by_contra hopen
  exact Bool.noConfusion (hs.symm.trans (h.openUsed sector (Nat.pos_of_ne_zero hopen)))

theorem takes_new (isDir : Bool) (slots : ℕ) :
    fs.Takes ((fs.mark sector true).newInode sector isDir slots) sector := by
  rw [h.newInode_eq hs]
  exact ⟨hs, rfl, rfl, rfl, fun i hi => update_of_ne hi _ _⟩

theorem entries_new {i : Inumber} (hi : i ≠ sector) (isDir : Bool) (slots : ℕ) :
    ((fs.mark sector true).newInode sector isDir slots).entries i = fs.entries i := by
  rw [h.newInode_eq hs]
  exact update_of_ne hi _ _

theorem release_new (isDir : Bool) (slots : ℕ) :
    (((fs.mark sector true).newInode sector isDir slots).mark sector false).Inv :=
  h.release (h.takes_new hs isDir slots) fun _ hi => h.entries_new hs hi isDir slots

theorem dirAdd_new (hlive : fs.tree.live dir) (hkind : fs.isDir dir = true ∨ name = []) {write : EntryWrite}
    (hwrite : write ≠ .lost) (isDir : Bool) (slots : ℕ) :
    let fs₁ := (fs.mark sector true).newInode sector isDir slots
    fs₁.dirAdd dir name sector write = (fs₁, false) ∨
    write = .stored ∧ fs.tree.Dir dir ∧ findEntry name (fs.entries dir) = none ∧
      fs₁.dirAdd dir name sector write =
        (fs₁.setEntries dir (addEntry ⟨sector, name, true⟩ (fs.entries dir)), true) := by
  intro fs₁
  have hentries : fs₁.entries dir = fs.entries dir := h.entries_new hs (ne_of_live hs hlive) isDir slots
  rcases dirAdd_cases fs₁ dir name sector write with hfail | ⟨hlost, -⟩ | ⟨hstored, hname, hnone, hadd⟩
  · exact .inl hfail
  · exact absurd hlost hwrite
  · rw [hentries] at hnone hadd
    exact .inr ⟨hstored, ⟨hlive, hkind.resolve_right hname⟩, hnone, hadd⟩

end NewInode

theorem filesysCreate (h : fs.Inv) {path : List Char} {size : ℕ} {o : CreateOutcome} (hc : fs.Calls curDir)
    (hf : fs.Finds o.allocated) (hcreation : o.creation ≠ .noSector) (hwrite : o.write ≠ .lost) :
    (fs.filesysCreate curDir path size o).1.Inv := by
  unfold FileSystem.filesysCreate
  rcases hopen : fs.inodeOpenPath curDir path with ⟨inode, fileName⟩
  simp only
  split
  next dir sector hdir hsector =>
    have hs : fs.freeMap sector = false := hf sector hsector
    obtain rfl : inode = some dir := by
      split_ifs at hdir
      exact hdir
    obtain ⟨hlive, hkind⟩ := h.inodeOpenPath_live (h.dir_of_calls hc) hopen
    have hne := ne_of_live hs hlive
    rcases hcr : o.creation with _ | _ | _
    · rcases h.dirAdd_new hs hlive hkind hwrite false (size / entrySize) with hfail | ⟨-, hd, hnone, hadd⟩
      · simpa [inodeCreate, hfail] using h.release_new hs false (size / entrySize)
      · simp only [inodeCreate, if_true, hadd]
        rw [h.newInode_eq hs]
        refine h.add ⟨hs, rfl, rfl, rfl, fun i hi => update_of_ne hi _ _⟩ hd hnone (fun i hi hid => ?_)
          (update_self ..) (fun hsd => ?_) (fun _ e he => ?_)
        · simp [setEntries, hi, hid]
        · simp [setEntries] at hsd
        · simp only [setEntries, update_of_ne hne.symm, update_self] at he
          simp [List.eq_of_mem_replicate he, freeEntry]
    · exact h.release ⟨hs, rfl, rfl, rfl, fun _ _ => rfl⟩ fun _ _ => rfl
    · exact absurd hcr hcreation
  · exact h

theorem filesysMkdir (h : fs.Inv) {path : List Char} {o : MkdirOutcome} (hc : fs.Calls curDir)
    (hf : fs.Finds o.allocated) (hwrite : o.write ≠ .lost)
    (hfill : o.write = .stored → o.subdirOpened = true ∧ o.writeDot = .stored ∧ o.writeDotDot = .stored) :
    (fs.filesysMkdir curDir path o).1.Inv := by
  unfold FileSystem.filesysMkdir
  rcases hopen : fs.inodeOpenPath curDir path with ⟨inode, dirName⟩
  simp only
  split
  next dir sector hdir hsector =>
    have hs : fs.freeMap sector = false := hf sector hsector
    obtain rfl : inode = some dir := by
      split_ifs at hdir
      exact hdir
    obtain ⟨hlive, hkind⟩ := h.inodeOpenPath_live (h.dir_of_calls hc) hopen
    have hne := ne_of_live hs hlive
    by_cases hcr : o.created = true
    · rcases h.dirAdd_new hs hlive hkind hwrite true 2 with hfail | ⟨hstored, hd, hnone, hadd⟩
      · simpa [inodeCreate, hcr, hfail] using h.release_new hs true 2
      · obtain ⟨hopened, hdot, hdotDot⟩ := hfill hstored
        simp only [inodeCreate, hcr, if_true, hadd]
        rw [h.newInode_eq hs, fillDir_eq (by simp [setEntries, hne.symm]) hopened hdot hdotDot]
        refine h.add ⟨hs, rfl, rfl, rfl, fun i hi => update_of_ne hi _ _⟩ hd hnone (fun i hi hid => ?_)
          ?_ (fun _ => update_self ..) (fun hsf => ?_)
        · simp [setEntries, hi, hid]
        · simp [setEntries, hne]
        · simp [setEntries] at hsf
    · simp only [hcr, inodeCreate]
      exact h.release ⟨hs, rfl, rfl, rfl, fun _ _ => rfl⟩ fun _ _ => rfl
  · exact h

theorem dirRemove (h : fs.Inv) (hlive : fs.tree.live dir) (written : Bool) :
    (fs.dirRemove curDir dir name written).1.Inv := by
  rcases fs.dirRemove_cases curDir dir name written with hfail | ⟨inode, hlook, -, hshut, hempty, hremove⟩
  · exact hfail ▸ h
  · rw [hremove]
    exact (h.remove (h.dir_of_lookup hlive hlook) hlook hshut hempty).reap inode

theorem filesysRemove (h : fs.Inv) {path : List Char} {o : RemoveOutcome} (hc : fs.Calls curDir) :
    (fs.filesysRemove curDir path o).1.Inv := by
  unfold FileSystem.filesysRemove
  rcases hopen : fs.inodeOpenPath curDir path with ⟨inode, fileName⟩
  by_cases hroot : path = ['/']
  · simpa only [if_pos hroot] using h
  rw [if_neg hroot]
  simp only
  split
  · exact h
  next dir hdir =>
    obtain rfl : inode = some dir := by
      split_ifs at hdir
      exact hdir
    exact h.dirRemove (h.inodeOpenPath_live (h.dir_of_calls hc) hopen).1 o.written

theorem filesysOpen_live (h : fs.Inv) {path : List Char} {inode : Inumber} (hc : fs.Calls curDir)
    (hopen : fs.filesysOpen curDir path = some inode) : fs.tree.live inode := by
  unfold filesysOpen at hopen
  rcases hpath : fs.inodeOpenPath curDir path with ⟨found, fileName⟩
  rw [hpath] at hopen
  obtain ⟨workingDir, rfl, hlook⟩ := Option.bind_eq_some_iff.mp hopen
  have hworking := (h.inodeOpenPath_live (h.dir_of_calls hc) hpath).1
  have hlink : ∀ name, fs.dirLookup workingDir name = some inode → fs.tree.live inode := fun name hl =>
    h.tree.live_link workingDir name inode (h.dir_of_lookup hworking hl) hl
  split_ifs at hlook
  exacts [hlink _ hlook, hlink _ hlook, hlink _ hlook]

theorem openFile (h : fs.Inv) {path : List Char} {inode : Inumber} (hc : fs.Calls curDir)
    (hopen : fs.filesysOpen curDir path = some inode) : (fs.inodeOpen inode).Inv := by
  have hlive := h.filesysOpen_live hc hopen
  refine h.congr (fun _ => Iff.rfl) (fun _ _ => ⟨rfl, rfl⟩) (fun i hi => ?_) (fun d hcd hd => ?_) h.removedUsed
  · by_cases hne : i = inode
    · exact hne ▸ hlive.1
    · exact h.openUsed i (by simpa [inodeOpen, hne] using hi)
  · by_cases hne : d = inode
    · exact hne ▸ hlive.2
    · exact h.openDir d (by simpa [inodeOpen, hne] using hcd) hd

theorem fewer (h : fs.Inv) {openCnt : Inumber → ℕ} (hfewer : ∀ i, openCnt i ≤ fs.openCnt i) :
    Inv { fs with openCnt } :=
  h.congr (fun _ => Iff.rfl) (fun _ _ => ⟨rfl, rfl⟩) (fun i hi => h.openUsed i (Nat.lt_of_lt_of_le hi (hfewer i)))
    (fun d hcd hd => h.openDir d (Nat.lt_of_lt_of_le hcd (hfewer d)) hd) h.removedUsed

theorem inodeClose (h : fs.Inv) (inode : Inumber) : (fs.inodeClose inode).Inv :=
  (h.fewer fun i => by by_cases hi : i = inode <;> simp [hi]).reap inode

theorem step (h : fs.Inv) {e : Event} (hok : fs.Careful e) (hstep : fs.step e = some fs') : fs'.Inv := by
  unfold FileSystem.step at hstep
  split_ifs at hstep
  cases e with
  | create curDir name size o =>
    simp only at hstep
    split_ifs at hstep with hguard
    cases hstep
    exact h.filesysCreate hguard.1 hguard.2.1 hok.1 hok.2
  | mkdir curDir name o =>
    simp only at hstep
    split_ifs at hstep with hguard
    cases hstep
    exact h.filesysMkdir hguard.1 hguard.2.1 hok.1 hok.2
  | remove curDir name o =>
    simp only at hstep
    split_ifs at hstep with hguard
    cases hstep
    exact h.filesysRemove hguard
  | openFile curDir name =>
    simp only at hstep
    split_ifs at hstep with hguard
    obtain ⟨inode, hopen, rfl⟩ := Option.map_eq_some_iff.mp hstep
    exact h.openFile hguard hopen
  | closeFile inode =>
    simp only at hstep
    split_ifs at hstep
    cases hstep
    exact h.inodeClose inode

end Inv

theorem dirLookup_boot (m : Name) :
    boot.dirLookup rootInumber m = if m = dot ∨ m = dotDot then some rootInumber else none := by
  have hfree : findEntry m (List.replicate 14 freeEntry) = none := by simp [findEntry, freeEntry]
  rw [Dirs.dirLookup_eq]
  change Option.map _ (findEntry m (_ :: _ :: _)) = _
  rw [findEntry_cons, findEntry_cons, hfree]
  by_cases hown : m = dot
  · simp [hown]
  by_cases hup : m = dotDot
  · simp [hup, dot, dotDot]
  · simp [hown, hup, Ne.symm hown, Ne.symm hup]

theorem eq_root_of_boot {d : Inumber} (h : boot.tree.Dir d) : d = rootInumber := by
  simpa [FileSystem.tree, boot] using h.2

theorem not_holds_boot (d : Inumber) (m : Name) (i : Inumber) : ¬ boot.tree.Holds dot dotDot d m i := by
  rintro ⟨hd, hown, hup, hl⟩
  rw [eq_root_of_boot hd] at hl
  exact Option.some_ne_none i (hl.symm.trans ((dirLookup_boot m).trans (if_neg (by simp [hown, hup]))))

theorem wf_boot : boot.tree.Wf rootInumber dot dotDot := by
  have hdir : ∀ d, boot.tree.Dir d → d = rootInumber := fun _ => eq_root_of_boot
  have hnot := not_holds_boot
  refine ⟨⟨⟨rfl, rfl⟩, rfl⟩, ?_, fun d n => hnot d n _, fun d hd => ?_, fun d n i hh => absurd hh (hnot d n i),
    fun d hd hroot => absurd (hdir d hd) hroot, fun d _ n _ i hh => absurd hh (hnot d n i), fun d n i hd hl => ?_⟩
  · exact (dirLookup_boot dotDot).trans (if_pos (.inr rfl))
  · rw [hdir d hd]
    exact (dirLookup_boot dot).trans (if_pos (.inl rfl))
  · rw [hdir d hd] at hl
    obtain rfl : rootInumber = i := by
      have hl := (dirLookup_boot n).symm.trans hl
      split_ifs at hl
      exact Option.some.inj hl
    exact ⟨rfl, rfl⟩

theorem inv_boot : boot.Inv := by
  refine ⟨wf_boot, fun d hd => ?_, fun i _ hi e he => ?_, fun i hi => ?_, fun _ _ _ => rfl, fun i hi => ?_⟩
  · obtain rfl : d = rootInumber := by simpa [FileSystem.tree, boot] using hd.2
    unfold NamesUnique
    decide
  · have hne : i ≠ rootInumber := fun hi' => by simp [boot, hi'] at hi
    simp [boot, hne] at he
  · have hle : i ≤ rootInumber := by
      by_contra hgt
      simp [boot, hgt] at hi
    exact decide_eq_true hle
  · cases hi

namespace Inv

theorem link_of_mem (h : fs.Inv) (hd : fs.tree.Dir dir) {e : DirEntry} (hmem : e ∈ fs.entries dir)
    (hin : e.inUse = true) : fs.tree.link dir e.name = some e.inodeSector := by
  change fs.dirLookup dir e.name = _
  rw [Dirs.dirLookup_eq, findEntry_of_mem (h.unique dir hd) hmem hin]
  rfl

theorem dir_of_reachable (h : fs.Inv) (hr : fs.Reachable dir) : fs.tree.Dir dir := by
  induction hr with
  | root => exact h.tree.root_dir
  | @entry d e _ hmem hin hdir ih =>
    exact ⟨h.tree.live_link d e.name e.inodeSector ih (h.link_of_mem ih hmem hin), hdir⟩

theorem wellFormed (h : fs.Inv) : fs.WellFormed := by
  refine ⟨fun dir hr => h.tree.own_link dir (h.dir_of_reachable hr), fun dir e hr hmem hin hown hup hdir => ?_,
    h.tree.root_up, fun dir hr => h.unique dir (h.dir_of_reachable hr), fun dir e hr hmem hin => ?_,
    h.tree.root_dir.1⟩
  · have hd := h.dir_of_reachable hr
    exact h.tree.up_link dir e.name e.inodeSector ⟨hd, hown, hup, h.link_of_mem hd hmem hin⟩ hdir
  · have hd := h.dir_of_reachable hr
    exact h.tree.live_link dir e.name e.inodeSector hd (h.link_of_mem hd hmem hin)

end Inv

theorem wellFormed_of_careful (h : system.ReachVia Careful fs) : fs.WellFormed := by
  refine Inv.wellFormed (h.invariant (I := Inv) ?_ fun _ _ _ hinv hok hstep => hinv.step hok hstep)
  rintro _ rfl
  exact inv_boot

instance (fs : FileSystem) : (e : Event) → Decidable (fs.Careful e)
  | .create .. => inferInstanceAs (Decidable (_ ∧ _))
  | .mkdir .. => inferInstanceAs (Decidable (_ ∧ (_ → _)))
  | .remove .. | .openFile .. | .closeFile .. => inferInstanceAs (Decidable True)

def madeAndRemoved : List Event :=
  [.mkdir 1 ['a'] ⟨true, some 9, true, .stored, true, .stored, .stored⟩,
    .create 1 ['a', '/', 'f'] 600 ⟨true, some 12, .created, .stored⟩,
    .remove 1 ['a', '/', '.'] ⟨true, true⟩,
    .remove 1 ['/', 'a', '/', 'f'] ⟨true, true⟩,
    .remove 1 ['a', '/', '.', '.', '/', 'a'] ⟨true, true⟩]

theorem wellFormed_of_careful_removed : ∃ fs,
    System.runVia step Careful boot madeAndRemoved = some fs ∧ fs.freeMap 9 = false ∧ fs.WellFormed := by
  have hrun : (System.runVia step Careful boot madeAndRemoved).map (fun fs => fs.freeMap 9) = some false := by
    decide +kernel
  obtain ⟨fs, hfs, hgone⟩ := Option.map_eq_some_iff.mp hrun
  exact ⟨fs, hfs, hgone, wellFormed_of_careful (System.ReachVia.run (.init rfl) hfs)⟩

def mkdirLastSector : MkdirOutcome := ⟨true, some 9, true, .stored, true, .lost, .lost⟩

theorem not_wellFormed_mkdir : (boot.filesysMkdir rootInumber ['a'] mkdirLastSector).2 = true ∧
    ∃ fs, system.Reach fs ∧ boot.step (.mkdir rootInumber ['a'] mkdirLastSector) = some fs ∧
      fs.Reachable 9 ∧ fs.dirLookup 9 dot = none ∧ ¬ fs.WellFormed := by
  have hrun : (boot.step (.mkdir rootInumber ['a'] mkdirLastSector)).map (fun fs =>
      decide (⟨9, ['a'], true⟩ ∈ fs.entries rootInumber ∧ fs.isDir 9 = true ∧ fs.dirLookup 9 dot = none)) =
      some true := by decide +kernel
  obtain ⟨fs, hfs, hfacts⟩ := Option.map_eq_some_iff.mp hrun
  obtain ⟨hmem, hdir, hlook⟩ := of_decide_eq_true hfacts
  have hreach : fs.Reachable 9 := Reachable.entry (e := ⟨9, ['a'], true⟩) .root hmem rfl hdir
  refine ⟨by decide +kernel, fs, .step (.init rfl) trivial hfs, hfs, hreach, hlook, fun hwf => ?_⟩
  exact Option.some_ne_none 9 ((hwf.own 9 hreach).symm.trans hlook)

end Cs162.Filesys.FileSystem
