import Cs162.Filesys.DirEntries
import Cs162.Lib.Bytes
import Cs162.Lib.Machine
import Cs162.Lib.Records

namespace Cs162.Filesys
open Lib

structure Record where
  bytes : List UInt8
  length_eq : bytes.length = entrySize

namespace Record
variable (e : List UInt8)

def inodeSector : UInt32 := UInt32.ofNat (wordOf (readAt e 0 4))

def name : CString := .ofBytes (readAt e 4 (nameMax + 1))

def inUse : Bool := readAt e (entrySize - 1) 1 != [0]

def setInodeSector (sector : UInt32) : List UInt8 := writeAt 0 e 0 (wordBytes sector.toNat)

/-- `strlcpy` cuts the name off, and leaves what is behind its null byte. -/
def setName (name : CString) : List UInt8 := writeAt 0 e 4 (name.take nameMax).stored

def setInUse (used : Bool) : List UInt8 := writeAt 0 e (entrySize - 1) [if used then 1 else 0]

def toName (s : CString) : Name := s.bytes.map Char.ofUInt8

def toEntry : DirEntry := ⟨(inodeSector e).toNat, toName (name e), inUse e⟩

end Record

def entriesOf (file : List UInt8) : List DirEntry := (records entrySize file).map Record.toEntry

structure Dir where
  file : List UInt8
  pos : ℕ

namespace Dir

def zeroEntry : List UInt8 := List.replicate entrySize 0

def lookup (d : Dir) (name : CString) : Option (ℕ × List UInt8) :=
  match scan (fun e => Record.inUse e && decide (name = Record.name e)) entrySize d.file 0 zeroEntry with
  | (true, found) => some found
  | (false, _) => none

def dirLookup (d : Dir) (name : CString) : Option UInt32 := (d.lookup name).map fun found => Record.inodeSector found.2

def dirAdd (d : Dir) (name : CString) (inodeSector : UInt32) (e : Record) : Bool × Dir :=
  if name.bytes = [] ∨ nameMax < name.bytes.length then (false, d)
  else if (d.lookup name).isSome then (false, d)
  else
    let (_, ofs, e) := scan (fun e => !Record.inUse e) entrySize d.file 0 e.bytes
    let e := Record.setInodeSector (Record.setName (Record.setInUse e true) name) inodeSector
    (true, { d with file := writeAt 0 d.file ofs e })

def dirRemove (d : Dir) (name : CString) (refused : Bool) : Bool × Dir :=
  match d.lookup name with
  | none => (false, d)
  | some (ofs, e) =>
    if refused then (false, d) else (true, { d with file := writeAt 0 d.file ofs (Record.setInUse e false) })

def dirReaddir (d : Dir) : Option CString × Dir :=
  match scan Record.inUse entrySize d.file d.pos zeroEntry with
  | (true, ofs, e) => (some ((Record.name e).take nameMax), { d with pos := ofs + entrySize })
  | (false, ofs, _) => (none, { d with pos := ofs })

end Dir

namespace Record
variable {e : List UInt8}

theorem toName_injective : Function.Injective toName := by
  intro s t h
  refine CString.ext_bytes (List.map_injective_iff.mpr (fun b c hbc => ?_) h)
  have hval : b.toUInt32 = c.toUInt32 := congrArg Char.val hbc
  exact UInt8.toUInt32_inj.mp hval

theorem length_toName (s : CString) : (toName s).length = s.bytes.length := List.length_map ..

theorem length_setInUse (he : e.length = entrySize) (used : Bool) : (setInUse e used).length = entrySize := by
  rw [setInUse, length_writeAt 0 (by rw [he]; decide), he]
  rfl

theorem length_setName (he : e.length = entrySize) (name : CString) : (setName e name).length = entrySize := by
  have hcut : (name.take nameMax).bytes.length ≤ nameMax := List.length_take_le ..
  rw [setName, length_writeAt 0 (by rw [he]; decide), he, CString.length_stored]
  simp only [nameMax, entrySize] at *
  omega

theorem length_setInodeSector (he : e.length = entrySize) (sector : UInt32) :
    (setInodeSector e sector).length = entrySize := by
  rw [setInodeSector, length_writeAt 0 (Nat.zero_le _), he]
  rfl

theorem inodeSector_setInodeSector (sector : UInt32) : inodeSector (setInodeSector e sector) = sector := by
  have hread : readAt (setInodeSector e sector) 0 4 = wordBytes sector.toNat :=
    readAt_writeAt_self 0 (Nat.zero_le e.length)
  rw [inodeSector, hread, wordOf_wordBytes, Nat.mod_eq_of_lt sector.toNat_lt, UInt32.ofNat_toNat]

theorem readAt_setInodeSector (sector : UInt32) {ofs : ℕ} (hofs : 4 ≤ ofs) (size : ℕ) :
    readAt (setInodeSector e sector) ofs size = readAt e ofs size :=
  readAt_writeAt_of_disjoint 0 (Nat.zero_le _) (.inr hofs)

theorem name_setName (he : e.length = entrySize) {s : CString} (hs : s.bytes.length ≤ nameMax) :
    name (setName e s) = s := by
  have hofs : 4 ≤ e.length := by rw [he]; decide
  have hlen : (s.take nameMax).stored.length ≤ nameMax + 1 := by
    rw [CString.take_of_length_le hs, CString.length_stored]
    omega
  obtain ⟨back, hback⟩ := readAt_writeAt_append 0 hofs hlen
  rw [name, setName, hback, CString.ofBytes_stored, CString.take_of_length_le hs]

theorem readAt_inUse_setName (he : e.length = entrySize) (s : CString) :
    readAt (setName e s) (entrySize - 1) 1 = readAt e (entrySize - 1) 1 := by
  have hcut : (s.take nameMax).bytes.length ≤ nameMax := List.length_take_le ..
  refine readAt_writeAt_of_disjoint 0 (by rw [he]; decide) (.inr ?_)
  rw [CString.length_stored]
  simp only [nameMax, entrySize] at *
  omega

theorem inUse_setInUse (he : e.length = entrySize) (used : Bool) : inUse (setInUse e used) = used := by
  have hread : readAt (setInUse e used) (entrySize - 1) 1 = [if used then 1 else 0] :=
    readAt_writeAt_self 0 (by rw [he]; decide)
  rw [inUse, hread]
  cases used <;> decide

theorem readAt_setInUse (he : e.length = entrySize) (used : Bool) {ofs size : ℕ} (h : ofs + size ≤ entrySize - 1) :
    readAt (setInUse e used) ofs size = readAt e ofs size :=
  readAt_writeAt_of_disjoint 0 (by rw [he]; decide) (.inl h)

theorem toEntry_added (he : e.length = entrySize) {s : CString} (hs : s.bytes.length ≤ nameMax) (sector : UInt32) :
    toEntry (setInodeSector (setName (setInUse e true) s) sector) = ⟨sector.toNat, toName s, true⟩ := by
  have he' := length_setInUse he true
  have hname : name (setInodeSector (setName (setInUse e true) s) sector) = s := by
    rw [name, readAt_setInodeSector sector (le_refl 4)]
    exact name_setName he' hs
  have hused : inUse (setInodeSector (setName (setInUse e true) s) sector) = true := by
    rw [inUse, readAt_setInodeSector sector (by decide), readAt_inUse_setName he']
    exact inUse_setInUse he true
  rw [toEntry, inodeSector_setInodeSector, hname, hused]

theorem toEntry_erased (he : e.length = entrySize) :
    toEntry (setInUse e false) = { toEntry e with inUse := false } := by
  have hsector : inodeSector (setInUse e false) = inodeSector e := by
    rw [inodeSector, readAt_setInUse he false (by decide)]
    rfl
  have hname : name (setInUse e false) = name e := by
    rw [name, readAt_setInUse he false (by decide)]
    rfl
  rw [toEntry, hsector, hname, inUse_setInUse he]
  rfl

theorem length_of_mem_records {file : List UInt8} (h : e ∈ records entrySize file) : e.length = entrySize := by
  obtain ⟨i, hi, rfl⟩ := List.mem_map.mp h
  exact length_readAt_of_lt (List.mem_range.mp hi)

theorem match_eq (s : CString) (e : List UInt8) :
    (inUse e && decide (s = name e)) = ((toEntry e).inUse && (toEntry e).name == toName s) := by
  have hname : decide (s = name e) = (toName (name e) == toName s) := by
    rw [Bool.eq_iff_iff, decide_eq_true_iff, beq_iff_eq, toName_injective.eq_iff, eq_comm]
  rw [hname]
  rfl

end Record

namespace Dir
variable (d : Dir) (name : CString)

theorem length_zeroEntry : zeroEntry.length = entrySize := List.length_replicate

theorem entriesOf_append {file : List UInt8} {pre post : List (List UInt8)} {e : List UInt8}
    (h : records entrySize file = pre ++ e :: post) :
    entriesOf file = pre.map Record.toEntry ++ Record.toEntry e :: post.map Record.toEntry := by
  rw [entriesOf, h, List.map_append, List.map_cons]

theorem lookup_cases :
    (∃ pre e post, records entrySize d.file = pre ++ e :: post ∧
      (∀ x ∈ pre.map Record.toEntry, (x.inUse && x.name == Record.toName name) = false) ∧
      ((Record.toEntry e).inUse && (Record.toEntry e).name == Record.toName name) = true ∧
      d.lookup name = some (entrySize * pre.length, e)) ∨
    (∀ x ∈ entriesOf d.file, (x.inUse && x.name == Record.toName name) = false) ∧ d.lookup name = none := by
  have hscan := scan_zero_scanned (fun e => Record.inUse e && decide (name = Record.name e)) d.file
    (by decide : 0 < entrySize) length_zeroEntry
  unfold lookup
  simp only [Record.match_eq] at hscan ⊢
  rcases hscan with ⟨pre, e, post, hrec, hpre, he, hfound⟩ | ⟨hall, e, -, hfound⟩
  · rw [hfound]
    exact .inl ⟨pre, e, post, hrec, List.forall_mem_map.mpr hpre, he, by rw [Nat.zero_add]⟩
  · rw [hfound]
    exact .inr ⟨List.forall_mem_map.mpr hall, rfl⟩

theorem lookup_eq : (d.lookup name).map (fun found => Record.toEntry found.2) =
    findEntry (Record.toName name) (entriesOf d.file) := by
  rcases lookup_cases d name with ⟨pre, e, post, hrec, hpre, he, hfound⟩ | ⟨hall, hfound⟩
  · rw [hfound, entriesOf_append hrec, findEntry, Option.map_some, eq_comm, List.find?_eq_some_iff_append]
    exact ⟨he, _, _, rfl, fun x hx => by rw [hpre x hx]; rfl⟩
  · rw [hfound, findEntry, Option.map_none, eq_comm, List.find?_eq_none]
    exact fun x hx => by rw [hall x hx]; exact Bool.false_ne_true

theorem dirLookup_eq : d.dirLookup name =
    (findEntry (Record.toName name) (entriesOf d.file)).map fun e => UInt32.ofNat e.inodeSector := by
  have hsector (e : List UInt8) : UInt32.ofNat (Record.toEntry e).inodeSector = Record.inodeSector e :=
    UInt32.ofNat_toNat
  rw [← lookup_eq, Option.map_map]
  exact congrArg (fun f => (d.lookup name).map f) (funext fun found => (hsector found.2).symm)

theorem lookup_isSome : (d.lookup name).isSome = (d.dirLookup name).isSome := Option.isSome_map.symm

def NameOk (name : CString) : Prop := name.bytes ≠ [] ∧ name.bytes.length ≤ nameMax

instance : Decidable (NameOk name) := inferInstanceAs (Decidable (_ ∧ _))

theorem entriesOf_added {e : List UInt8} (he : e.length = entrySize) (file : List UInt8) {entry : DirEntry}
    {put : List UInt8 → List UInt8} (hlen : ∀ {x}, x.length = entrySize → (put x).length = entrySize)
    (hput : ∀ {x}, x.length = entrySize → Record.toEntry (put x) = entry) :
    entriesOf (writeAt 0 file (scan (fun e => !Record.inUse e) entrySize file 0 e).2.1
      (put (scan (fun e => !Record.inUse e) entrySize file 0 e).2.2)) = addEntry entry (entriesOf file) := by
  rcases scan_zero_scanned (fun e => !Record.inUse e) file (by decide : 0 < entrySize) he with
    ⟨pre, x, post, hrec, hpre, hx, hfound⟩ | ⟨hall, x, hx, hfound⟩
  · have hxlen : x.length = entrySize := Record.length_of_mem_records (hrec ▸ List.mem_append_right pre List.mem_cons_self)
    have hfull : ∀ y ∈ pre.map Record.toEntry, y.inUse = true :=
      List.forall_mem_map.mpr fun y hy => (Bool.not_eq_false' _).mp (hpre y hy)
    have hfree : (Record.toEntry x).inUse = false := (Bool.not_eq_true' _).mp hx
    rw [hfound, entriesOf_append hrec, addEntry_append hfull hfree, ← hput hxlen, Nat.zero_add]
    exact entriesOf_append (records_writeAt_of_eq_append 0 (hlen hxlen) hrec)
  · have hfull : ∀ y ∈ entriesOf file, y.inUse = true :=
      List.forall_mem_map.mpr fun y hy => (Bool.not_eq_false' _).mp (hall y hy)
    rw [hfound, addEntry_of_full hfull, ← hput hx, length_records, Nat.zero_add]
    show (records entrySize _).map Record.toEntry = _
    rw [records_writeAt_end 0 (by decide) (hlen hx), List.map_append]
    rfl

theorem dirAdd_cases (sector : UInt32) (e : Record) :
    (¬ NameOk name ∨ (d.dirLookup name).isSome = true) ∧ d.dirAdd name sector e = (false, d) ∨
    NameOk name ∧ d.dirLookup name = none ∧ ∃ file, d.dirAdd name sector e = (true, { d with file }) ∧
      entriesOf file = addEntry ⟨sector.toNat, Record.toName name, true⟩ (entriesOf d.file) := by
  unfold dirAdd
  rw [lookup_isSome]
  split_ifs with hname hused
  · exact .inl ⟨.inl fun hok => hname.elim hok.1 (not_lt.mpr hok.2), rfl⟩
  · exact .inl ⟨.inr hused, rfl⟩
  · push Not at hname
    have hentries := entriesOf_added e.length_eq d.file
      (fun hx => Record.length_setInodeSector (Record.length_setName (Record.length_setInUse hx true) name) sector)
      fun hx => Record.toEntry_added hx hname.2 sector
    exact .inr ⟨hname, Option.not_isSome_iff_eq_none.mp hused, _, rfl, hentries⟩

theorem dirRemove_cases (refused : Bool) :
    (refused = true ∨ d.dirLookup name = none) ∧ d.dirRemove name refused = (false, d) ∨
    refused = false ∧ (d.dirLookup name).isSome = true ∧ ∃ file, d.dirRemove name refused = (true, { d with file }) ∧
      entriesOf file = eraseEntry (Record.toName name) (entriesOf d.file) := by
  unfold dirRemove
  rw [← lookup_isSome]
  rcases lookup_cases d name with ⟨pre, e, post, hrec, hpre, he, hfound⟩ | ⟨-, hfound⟩
  · have hlen : e.length = entrySize := Record.length_of_mem_records (hrec ▸ List.mem_append_right pre List.mem_cons_self)
    rw [hfound]
    cases refused with
    | true => exact .inl ⟨.inl rfl, rfl⟩
    | false =>
      refine .inr ⟨rfl, rfl, _, rfl, ?_⟩
      rw [entriesOf_append hrec, eraseEntry_append hpre he, ← Record.toEntry_erased hlen]
      exact entriesOf_append (records_writeAt_of_eq_append 0 (Record.length_setInUse hlen false) hrec)
  · rw [hfound]
    exact .inl ⟨.inr (by rw [dirLookup, hfound]; rfl), rfl⟩

end Dir
end Cs162.Filesys
