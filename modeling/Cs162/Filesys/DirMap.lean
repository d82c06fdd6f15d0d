import Cs162.Filesys.DirBytes

namespace Cs162.Filesys.Dir
open Lib Function

inductive Op
  | add (name : CString) (inodeSector : UInt32) (e : Record)
  | remove (name : CString) (refused : Bool)
  | lookup (name : CString)
  | readdir

inductive Answer
  | success (b : Bool)
  | inode (sector : Option UInt32)
  | entry (name : Option CString)

def machine : Machine Dir Op Answer where
  step d
    | .add name sector e => (.success (d.dirAdd name sector e).1, (d.dirAdd name sector e).2)
    | .remove name refused => (.success (d.dirRemove name refused).1, (d.dirRemove name refused).2)
    | .lookup name => (.inode (d.dirLookup name), d)
    | .readdir => (.entry d.dirReaddir.1, d.dirReaddir.2)

def readAll : ℕ → Dir → List CString
  | 0, _ => []
  | rounds + 1, d =>
    match d.dirReaddir with
    | (some name, d) => name :: readAll rounds d
    | (none, _) => []

abbrev Bindings := CString → Option UInt32

namespace Bindings
variable (m : Bindings)

def empty : Bindings := fun _ => none

def after : Op → Bindings
  | .add name sector _ => if NameOk name ∧ m name = none then update m name (some sector) else m
  | .remove name refused => if refused then m else update m name none
  | .lookup _ => m
  | .readdir => m

def Answers : Op → Answer → Prop
  | .add name _ _, .success b => b = false ↔ name.bytes = [] ∨ nameMax < name.bytes.length ∨ (m name).isSome = true
  | .remove name refused, .success b => b = true ↔ refused = false ∧ (m name).isSome = true
  | .lookup name, .inode sector => sector = m name
  | .readdir, .entry name => ∀ s ∈ name, (m s).isSome = true
  | _, _ => False

end Bindings

def Op.subject : Op → Option CString
  | .add name _ _ => some name
  | .remove name _ => some name
  | .lookup _ => none
  | .readdir => none

structure Represents (d : Dir) (m : Bindings) : Prop where
  unique : NamesUnique (entriesOf d.file)
  named : ∀ e ∈ entriesOf d.file, e.inUse = true → 1 ≤ e.name.length ∧ e.name.length ≤ nameMax
  bound : ∀ name, d.dirLookup name = m name
  aligned : ∃ i, d.pos = entrySize * i

variable {d : Dir} {m : Bindings}

theorem represents_blank {file : List UInt8} (hblank : ∀ e ∈ entriesOf file, e.inUse = false) :
    Represents ⟨file, 0⟩ Bindings.empty where
  unique := List.pairwise_of_forall_mem_list fun e he _ _ hin => absurd hin (by simp [hblank e he])
  named e he hin := absurd hin (by simp [hblank e he])
  bound name := by
    rw [dirLookup_eq, findEntry_eq_none.mpr fun e he hin => absurd hin (by simp [hblank e he])]
    rfl
  aligned := ⟨0, rfl⟩

theorem findEntry_eq_none_of_dirLookup {name : CString} (h : d.dirLookup name = none) :
    findEntry (Record.toName name) (entriesOf d.file) = none := by
  rw [dirLookup_eq] at h
  exact Option.map_eq_none_iff.mp h

theorem Represents.add (h : Represents d m) {name : CString} (hok : NameOk name) (hnone : m name = none)
    {sector : UInt32} {file : List UInt8}
    (hfile : entriesOf file = addEntry ⟨sector.toNat, Record.toName name, true⟩ (entriesOf d.file)) :
    Represents { d with file } (update m name (some sector)) where
  unique := by
    rw [hfile]
    exact h.unique.addEntry (findEntry_eq_none_of_dirLookup ((h.bound name).trans hnone))
  named e he hin := by
    rw [hfile] at he
    rcases mem_addEntry he with rfl | hmem
    · rw [Record.length_toName]
      exact ⟨List.length_pos_of_ne_nil hok.1, hok.2⟩
    · exact h.named e hmem hin
  bound n := by
    have hfree := findEntry_eq_none_of_dirLookup ((h.bound name).trans hnone)
    rw [dirLookup_eq, hfile, findEntry_addEntry hfree]
    by_cases hn : n = name
    · subst hn
      rw [if_pos rfl, update_self]
      exact congrArg some UInt32.ofNat_toNat
    · rw [if_neg (Record.toName_injective.ne hn), update_of_ne hn, ← h.bound, dirLookup_eq]
  aligned := h.aligned

theorem Represents.remove (h : Represents d m) {name : CString} {file : List UInt8}
    (hfile : entriesOf file = eraseEntry (Record.toName name) (entriesOf d.file)) :
    Represents { d with file } (update m name none) where
  unique := by
    rw [hfile]
    exact h.unique.eraseEntry
  named e he hin := by
    rw [hfile] at he
    exact h.named e (mem_eraseEntry he hin) hin
  bound n := by
    rw [dirLookup_eq, hfile, findEntry_eraseEntry h.unique]
    by_cases hn : n = name
    · subst hn
      rw [if_pos rfl, update_self]
      rfl
    · rw [if_neg (Record.toName_injective.ne hn), update_of_ne hn, ← h.bound, dirLookup_eq]
  aligned := h.aligned

theorem dirReaddir_cases {i : ℕ} (hpos : d.pos = entrySize * i) :
    (∃ pre e post, (records entrySize d.file).drop i = pre ++ e :: post ∧ (∀ x ∈ pre, Record.inUse x = false) ∧
      Record.inUse e = true ∧ d.dirReaddir =
        (some ((Record.name e).take nameMax), { d with pos := entrySize * (i + (pre.length + 1)) })) ∨
    (∀ x ∈ (records entrySize d.file).drop i, Record.inUse x = false) ∧
      ∃ j, d.dirReaddir = (none, { d with pos := entrySize * j }) := by
  unfold dirReaddir
  rw [hpos]
  rcases scan_scanned Record.inUse d.file (by decide : 0 < entrySize) i length_zeroEntry with
    ⟨pre, e, post, hrec, hpre, he, hfound⟩ | ⟨hall, e, -, hfound⟩
  · rw [hfound]
    exact .inl ⟨pre, e, post, hrec, hpre, he, rfl⟩
  · rw [hfound]
    exact .inr ⟨hall, _, rfl⟩

theorem Represents.name_take (h : Represents d m) {e : List UInt8} (he : e ∈ records entrySize d.file)
    (hin : Record.inUse e = true) : (Record.name e).take nameMax = Record.name e := by
  refine CString.take_of_length_le ?_
  rw [← Record.length_toName]
  exact (h.named (Record.toEntry e) (List.mem_map_of_mem he) hin).2

theorem Represents.isSome_iff (h : Represents d m) (name : CString) : (m name).isSome = true ↔
    ∃ e ∈ records entrySize d.file, Record.inUse e = true ∧ Record.name e = name := by
  rw [← h.bound, dirLookup_eq, Option.isSome_map, findEntry, List.find?_isSome]
  simp only [entriesOf, List.mem_map, exists_exists_and_eq_and, Bool.and_eq_true, beq_iff_eq]
  refine exists_congr fun e => and_congr_right fun _ => and_congr_right fun _ => ?_
  exact Record.toName_injective.eq_iff

theorem Represents.readAll_eq (h : Represents d m) {i rounds : ℕ} (pos : ℕ) (hpos : pos = entrySize * i)
    (hrounds : ((records entrySize d.file).drop i).length < rounds) : readAll rounds { d with pos } =
      (((records entrySize d.file).drop i).filter Record.inUse).map Record.name := by
  induction rounds generalizing i pos with
  | zero => exact absurd hrounds (Nat.not_lt_zero _)
  | succ rounds ih =>
    rw [readAll]
    rcases dirReaddir_cases (d := { d with pos }) hpos with
      ⟨pre, e, post, hrec, hpre, he, hread⟩ | ⟨hall, j, hread⟩
    · have hmem : e ∈ records entrySize d.file :=
        List.mem_of_mem_drop (hrec ▸ List.mem_append_right pre List.mem_cons_self)
      have hpost : (records entrySize d.file).drop (i + (pre.length + 1)) = post := by
        rw [← List.drop_drop, hrec, List.drop_append, List.drop_eq_nil_of_le (Nat.le_succ _), Nat.add_sub_cancel_left]
        rfl
      have hfree : pre.filter Record.inUse = [] :=
        List.filter_eq_nil_iff.mpr fun x hx => by rw [hpre x hx]; exact Bool.false_ne_true
      have hshorter : ((records entrySize d.file).drop (i + (pre.length + 1))).length < rounds := by
        rw [hrec, List.length_append, List.length_cons] at hrounds
        rw [hpost]
        omega
      rw [h.name_take hmem he] at hread
      rw [hread, hrec, List.filter_append, hfree, List.nil_append, List.filter_cons_of_pos he, List.map_cons, ← hpost]
      exact congrArg (Record.name e :: ·) (ih _ rfl hshorter)
    · rw [hread, List.filter_eq_nil_iff.mpr fun x hx => by rw [hall x hx]; exact Bool.false_ne_true]
      rfl

theorem Represents.nodup_names (h : Represents d m) :
    (((records entrySize d.file).filter Record.inUse).map Record.name).Nodup := by
  rw [List.Nodup, List.pairwise_map, List.pairwise_filter]
  have hunique := h.unique
  rw [NamesUnique, entriesOf, List.pairwise_map] at hunique
  exact hunique.imp fun hne hx hy heq => hne hx hy (congrArg Record.toName heq)

theorem Represents.readdir (h : Represents d m) : Represents d.dirReaddir.2 m ∧ ∀ s ∈ d.dirReaddir.1, (m s).isSome = true := by
  obtain ⟨i, hpos⟩ := h.aligned
  have hmoved (j : ℕ) : Represents { d with pos := entrySize * j } m := ⟨h.unique, h.named, h.bound, j, rfl⟩
  rcases dirReaddir_cases hpos with ⟨pre, e, post, hrec, -, he, hread⟩ | ⟨-, j, hread⟩
  · have hmem : e ∈ records entrySize d.file :=
      List.mem_of_mem_drop (hrec ▸ List.mem_append_right pre List.mem_cons_self)
    rw [hread, h.name_take hmem he]
    refine ⟨hmoved _, ?_⟩
    rintro s ⟨⟩
    exact (h.isSome_iff _).mpr ⟨e, hmem, he, rfl⟩
  · rw [hread]
    exact ⟨hmoved j, fun s hs => absurd hs (Option.not_mem_none s)⟩

theorem Represents.step (h : Represents d m) (op : Op) :
    m.Answers op (machine.step d op).1 ∧ Represents (machine.step d op).2 (m.after op) := by
  cases op with
  | add name sector e =>
    have hbound := h.bound name
    show ((d.dirAdd name sector e).1 = false ↔ _) ∧ Represents (d.dirAdd name sector e).2 (ite _ _ _)
    rcases dirAdd_cases d name sector e with ⟨hno, hadd⟩ | ⟨hok, hnone, file, hadd, hfile⟩
    · rw [hbound] at hno
      have hnot : ¬ (NameOk name ∧ m name = none) := by
        rintro ⟨hok, hnone⟩
        rcases hno with hname | hused
        · exact hname hok
        · rw [hnone] at hused
          cases hused
      rw [hadd, if_neg hnot]
      refine ⟨iff_of_true rfl ?_, h⟩
      by_contra hall
      push Not at hall
      exact hnot ⟨⟨hall.1, hall.2.1⟩, Option.not_isSome_iff_eq_none.mp hall.2.2⟩
    · rw [hbound] at hnone
      rw [hadd, if_pos ⟨hok, hnone⟩]
      refine ⟨iff_of_false Bool.true_eq_false.mp ?_, h.add hok hnone hfile⟩
      rintro (hnil | hlong | hused)
      · exact hok.1 hnil
      · exact absurd hok.2 (not_le.mpr hlong)
      · rw [hnone] at hused
        cases hused
  | remove name refused =>
    have hbound := h.bound name
    show ((d.dirRemove name refused).1 = true ↔ _) ∧ Represents (d.dirRemove name refused).2 (ite _ _ _)
    rcases dirRemove_cases d name refused with ⟨hno, hremove⟩ | ⟨hgo, hsome, file, hremove, hfile⟩
    · rw [hbound] at hno
      rw [hremove]
      refine ⟨iff_of_false Bool.false_ne_true ?_, ?_⟩
      · rintro ⟨hgo, hsome⟩
        rcases hno with hrefused | hnone
        · exact absurd (hgo.symm.trans hrefused) Bool.false_ne_true
        · rw [hnone] at hsome
          cases hsome
      · split_ifs with hrefused
        · exact h
        · have hnone : m name = none := hno.resolve_left hrefused
          rwa [update_eq_self_iff.mpr hnone.symm]
    · rw [hbound] at hsome
      rw [hremove, hgo, if_neg Bool.false_ne_true]
      exact ⟨iff_of_true rfl ⟨rfl, hsome⟩, h.remove hfile⟩
  | lookup name => exact ⟨h.bound name, h⟩
  | readdir => exact ⟨h.readdir.2, h.readdir.1⟩

theorem Represents.final (h : Represents d m) (ops : List Op) :
    Represents (machine.final d ops) (ops.foldl Bindings.after m) := by
  induction ops generalizing d m with
  | nil => exact h
  | cons op ops ih => exact ih (h.step op).2

theorem Bindings.after_of_ne (m : Bindings) {op : Op} {name : CString} (h : op.subject ≠ some name) :
    m.after op name = m name := by
  have hne {s : CString} (hs : some s ≠ some name) : name ≠ s := fun heq => hs (congrArg some heq.symm)
  cases op with
  | add s sector e =>
    rw [after]
    split_ifs
    · exact update_of_ne (hne h) ..
    · rfl
  | remove s refused =>
    rw [after]
    split_ifs
    · rfl
    · exact update_of_ne (hne h) ..
  | lookup s => rfl
  | readdir => rfl

theorem directory_is_map (file : List UInt8) (hblank : ∀ e ∈ entriesOf file, e.inUse = false) (ops : List Op) :
    NamesUnique (entriesOf (machine.final ⟨file, 0⟩ ops).file) ∧
    (∀ e ∈ entriesOf (machine.final ⟨file, 0⟩ ops).file, e.inUse = true →
      1 ≤ e.name.length ∧ e.name.length ≤ nameMax) ∧
    (∀ op, (ops.foldl Bindings.after .empty).Answers op (machine.step (machine.final ⟨file, 0⟩ ops) op).1) ∧
    (∀ op name, op.subject ≠ some name → (machine.step (machine.final ⟨file, 0⟩ ops) op).2.dirLookup name =
      (machine.final ⟨file, 0⟩ ops).dirLookup name) ∧
    ∀ rounds, (entriesOf (machine.final ⟨file, 0⟩ ops).file).length < rounds →
      (readAll rounds ⟨(machine.final ⟨file, 0⟩ ops).file, 0⟩).Nodup ∧
      ∀ name, name ∈ readAll rounds ⟨(machine.final ⟨file, 0⟩ ops).file, 0⟩ ↔
        (ops.foldl Bindings.after .empty name).isSome = true := by
  have h := (represents_blank hblank).final ops
  refine ⟨h.unique, h.named, fun op => (h.step op).1, fun op name hne => ?_, fun rounds hrounds => ?_⟩
  · rw [(h.step op).2.bound, h.bound, Bindings.after_of_ne _ hne]
  · rw [entriesOf, List.length_map] at hrounds
    have hread := h.readAll_eq (i := 0) 0 rfl hrounds
    rw [hread]
    refine ⟨h.nodup_names, fun name => ?_⟩
    rw [h.isSome_iff]
    simp only [List.drop_zero, List.mem_map, List.mem_filter, and_assoc]

theorem directory_is_map_reuse :
    (∀ e ∈ entriesOf (List.replicate 40 0), e.inUse = false) ∧
    NamesUnique (entriesOf (machine.final ⟨List.replicate 40 0, 0⟩
      [.add ⟨[97], by decide⟩ 7 ⟨zeroEntry, rfl⟩, .remove ⟨[97], by decide⟩ false,
        .add ⟨[98], by decide⟩ 8 ⟨zeroEntry, rfl⟩, .readdir]).file) :=
  ⟨by decide, (directory_is_map (List.replicate 40 0) (by decide) _).1⟩

end Cs162.Filesys.Dir
