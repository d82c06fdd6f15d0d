import Cs162.Filesys.Directory

namespace Cs162.Filesys
variable {entries : List DirEntry} {name : Name}

def findEntry (name : Name) (entries : List DirEntry) : Option DirEntry :=
  entries.find? fun e => e.inUse && e.name == name

def NamesUnique (entries : List DirEntry) : Prop :=
  entries.Pairwise fun e e' => e.inUse = true → e'.inUse = true → e.name ≠ e'.name

theorem Dirs.dirLookup_eq (fs : Dirs) (dir : Inumber) (name : Name) :
    fs.dirLookup dir name = (findEntry name (fs.entries dir)).map (·.inodeSector) := rfl

theorem findEntry_eq_none : findEntry name entries = none ↔ ∀ e ∈ entries, e.inUse = true → e.name ≠ name := by
  simp [findEntry]

theorem findEntry_cons (e : DirEntry) (name : Name) :
    findEntry name (e :: entries) = if e.inUse && e.name == name then some e else findEntry name entries := by
  rw [findEntry, List.find?_cons]
  split <;> simp_all [findEntry]

theorem findEntry_of_mem {e : DirEntry} (hu : NamesUnique entries) (he : e ∈ entries) (hin : e.inUse = true) :
    findEntry e.name entries = some e := by
  induction entries with
  | nil => cases he
  | cons x es ih =>
    obtain ⟨hx, hes⟩ := List.pairwise_cons.mp hu
    rw [findEntry_cons]
    rcases List.mem_cons.mp he with rfl | hmem
    · simp [hin]
    · rw [if_neg, ih hes hmem]
      simp only [Bool.and_eq_true, beq_iff_eq, not_and]
      exact fun hxin => hx e hmem hxin hin

theorem addEntry_append {pre post : List DirEntry} {e : DirEntry} (hpre : ∀ x ∈ pre, x.inUse = true)
    (he : e.inUse = false) (entry : DirEntry) : addEntry entry (pre ++ e :: post) = pre ++ entry :: post := by
  induction pre with
  | nil => simp [addEntry, he]
  | cons x pre ih =>
    obtain ⟨hx, hpre⟩ := List.forall_mem_cons.mp hpre
    simp [addEntry, hx, ih hpre]

theorem addEntry_of_full (hfull : ∀ x ∈ entries, x.inUse = true) (entry : DirEntry) :
    addEntry entry entries = entries ++ [entry] := by
  induction entries with
  | nil => rfl
  | cons x es ih =>
    obtain ⟨hx, hes⟩ := List.forall_mem_cons.mp hfull
    simp [addEntry, hx, ih hes]

theorem findEntry_addEntry {i : Inumber} (hnone : findEntry name entries = none) (m : Name) :
    findEntry m (addEntry ⟨i, name, true⟩ entries) =
      if m = name then some ⟨i, name, true⟩ else findEntry m entries := by
  induction entries with
  | nil =>
    rw [addEntry, findEntry_cons]
    by_cases hm : m = name
    · simp [hm]
    · simp [hm, Ne.symm hm]
  | cons x es ih =>
    rw [findEntry_eq_none, List.forall_mem_cons] at hnone
    rw [addEntry]
    split_ifs with hx hm hm
    · rw [findEntry_cons, ih (findEntry_eq_none.mpr hnone.2), if_pos hm, if_neg]
      simpa [hm, hx] using hnone.1
    · rw [findEntry_cons, findEntry_cons, ih (findEntry_eq_none.mpr hnone.2), if_neg hm]
    · simp [findEntry_cons, hm]
    · simp [findEntry_cons, hx, Ne.symm hm]

theorem mem_addEntry {e entry : DirEntry} (h : e ∈ addEntry entry entries) : e = entry ∨ e ∈ entries := by
  induction entries with
  | nil => simpa [addEntry] using h
  | cons x es ih =>
    rw [addEntry] at h
    split_ifs at h
    · rcases List.mem_cons.mp h with rfl | h
      · exact .inr List.mem_cons_self
      · exact (ih h).imp_right (List.mem_cons_of_mem _)
    · exact (List.mem_cons.mp h).imp_right (List.mem_cons_of_mem _)

theorem NamesUnique.addEntry {i : Inumber} (hu : NamesUnique entries) (hnone : findEntry name entries = none) :
    NamesUnique (addEntry ⟨i, name, true⟩ entries) := by
  induction entries with
  | nil => exact List.pairwise_singleton _ _
  | cons x es ih =>
    obtain ⟨hx, hes⟩ := List.pairwise_cons.mp hu
    rw [findEntry_eq_none, List.forall_mem_cons] at hnone
    rw [Filesys.addEntry]
    split_ifs with hin
    · refine List.pairwise_cons.mpr ⟨fun e he => ?_, ih hes (findEntry_eq_none.mpr hnone.2)⟩
      rcases mem_addEntry he with rfl | hmem
      · exact fun _ _ => hnone.1 hin
      · exact hx e hmem
    · exact List.pairwise_cons.mpr ⟨fun e he _ hein => (hnone.2 e he hein).symm, hes⟩

theorem eraseEntry_append {pre post : List DirEntry} {e : DirEntry}
    (hpre : ∀ x ∈ pre, (x.inUse && x.name == name) = false) (he : (e.inUse && e.name == name) = true) :
    eraseEntry name (pre ++ e :: post) = pre ++ { e with inUse := false } :: post := by
  induction pre with
  | nil => exact if_pos he
  | cons x pre ih =>
    obtain ⟨hx, hpre⟩ := List.forall_mem_cons.mp hpre
    rw [List.cons_append, eraseEntry, hx, if_neg Bool.false_ne_true, ih hpre, List.cons_append]

theorem mem_eraseEntry {e : DirEntry} (h : e ∈ eraseEntry name entries) (hin : e.inUse = true) : e ∈ entries := by
  induction entries with
  | nil => cases h
  | cons x es ih =>
    rw [eraseEntry] at h
    split_ifs at h <;> rcases List.mem_cons.mp h with rfl | h
    · simp at hin
    · exact List.mem_cons_of_mem _ h
    · exact List.mem_cons_self
    · exact List.mem_cons_of_mem _ (ih h)

theorem NamesUnique.eraseEntry (hu : NamesUnique entries) : NamesUnique (eraseEntry name entries) := by
  induction entries with
  | nil => exact List.Pairwise.nil
  | cons x es ih =>
    obtain ⟨hx, hes⟩ := List.pairwise_cons.mp hu
    rw [Filesys.eraseEntry]
    split_ifs
    · exact List.pairwise_cons.mpr ⟨fun e _ hin => by simp at hin, hes⟩
    · exact List.pairwise_cons.mpr ⟨fun e he hxin hein => hx e (mem_eraseEntry he hein) hxin hein, ih hes⟩

theorem findEntry_eraseEntry (hu : NamesUnique entries) (m : Name) :
    findEntry m (eraseEntry name entries) = if m = name then none else findEntry m entries := by
  induction entries with
  | nil => simp [eraseEntry, findEntry]
  | cons x es ih =>
    obtain ⟨hx, hes⟩ := List.pairwise_cons.mp hu
    rw [eraseEntry]
    split_ifs with hin hm hm
    · simp only [Bool.and_eq_true, beq_iff_eq] at hin
      rw [findEntry_cons, if_neg (by simp), findEntry_eq_none]
      exact fun e he hein hem => hx e he hin.1 hein (hin.2.trans (hm.symm.trans hem.symm))
    · simp only [Bool.and_eq_true, beq_iff_eq] at hin
      rw [findEntry_cons, if_neg (by simp), findEntry_cons, if_neg]
      simpa [hin.1, hin.2] using Ne.symm hm
    · rw [findEntry_cons, ih hes, if_pos hm, if_neg]
      rwa [hm]
    · rw [findEntry_cons, ih hes, if_neg hm, findEntry_cons]

namespace FileSystem

theorem dirAdd_cases (fs : FileSystem) (dir : Inumber) (name : Name) (sector : Inumber) (write : EntryWrite) :
    fs.dirAdd dir name sector write = (fs, false) ∨
    write = .lost ∧ fs.dirAdd dir name sector write = ({ fs with intact := false }, true) ∨
    write = .stored ∧ name ≠ [] ∧ findEntry name (fs.entries dir) = none ∧ fs.dirAdd dir name sector write =
      (fs.setEntries dir (addEntry ⟨sector, name, true⟩ (fs.entries dir)), true) := by
  unfold dirAdd
  split_ifs with hname hused
  · exact .inl rfl
  · exact .inl rfl
  · cases write with
    | stored =>
      exact .inr (.inr ⟨rfl, fun hn => hname (.inl hn), Option.not_isSome_iff_eq_none.mp hused, rfl⟩)
    | refused => exact .inl rfl
    | lost => exact .inr (.inl ⟨rfl, rfl⟩)

theorem fillDir_eq {fs : FileSystem} {sector parent : Inumber} {o : MkdirOutcome}
    (hblank : fs.entries sector = [freeEntry, freeEntry]) (hopened : o.subdirOpened = true)
    (hdot : o.writeDot = .stored) (hdotDot : o.writeDotDot = .stored) :
    (fs.fillDir sector parent o).1 =
      fs.setEntries sector [⟨sector, dot, true⟩, ⟨parent, dotDot, true⟩] := by
  simp [fillDir, dirAdd, hopened, hdot, hdotDot, Dirs.lookup, setEntries, hblank, dot, dotDot, nameMax, addEntry,
    freeEntry]

theorem dirRemove_cases (fs : FileSystem) (curDir dir : Inumber) (name : Name) (written : Bool) :
    fs.dirRemove curDir dir name written = (fs, false) ∨
    ∃ inode, fs.dirLookup dir name = some inode ∧ written = true ∧
      (fs.isDir inode = true → inode ≠ dir ∧ fs.openCnt inode = 0) ∧
      (fs.isDir inode = true → fs.dirIsEmpty inode = true) ∧ fs.dirRemove curDir dir name written =
        (((fs.setEntries dir (eraseEntry name (fs.entries dir))).inodeRemove inode).reap inode, true) := by
  unfold dirRemove
  split
  · exact .inl rfl
  next inode hlook =>
    split_ifs with hcur hfull hbusy hwritten
    · exact .inl rfl
    · exact .inl rfl
    · exact .inl rfl
    · refine .inr ⟨inode, hlook, hwritten, fun hi => ?_, fun hi => by simpa [hi] using hfull, rfl⟩
      -- the open count keeps `"."` from being removed
      have hcnt : fs.countInCall dir inode ≤ 1 := by simpa [hi] using hbusy
      unfold countInCall at hcnt
      split_ifs at hcnt with hself
      · omega
      · exact ⟨hself, by omega⟩
    · exact .inl rfl

theorem dirIsEmpty_eq_true (fs : FileSystem) (dir : Inumber) : fs.dirIsEmpty dir = true ↔
    ∀ name, name ≠ dot → name ≠ dotDot → fs.dirLookup dir name = none := by
  simp only [Dirs.dirLookup_eq, Option.map_eq_none_iff, findEntry_eq_none, dirIsEmpty, List.all_eq_true,
    Bool.not_eq_true', Bool.and_eq_false_iff, bne_eq_false_iff_eq]
  constructor
  · rintro h name hown hup e he hin rfl
    rcases h e he with (hu | ho) | hd
    · simp [hin] at hu
    · exact hown ho
    · exact hup hd
  · intro h e he
    by_contra hno
    push Not at hno
    obtain ⟨⟨hin, hown⟩, hup⟩ := hno
    exact h e.name hown hup e he (by simpa using hin) rfl

end FileSystem
end Cs162.Filesys
