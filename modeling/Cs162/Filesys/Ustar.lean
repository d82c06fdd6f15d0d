import Mathlib.Algebra.GroupWithZero.Nat
import Cs162.Lib.Fields

namespace Cs162.Filesys.Ustar
open Lib

abbrev Sector := List.Vector UInt8 512

def ascii (s : String) : List UInt8 := s.toList.map fun c => c.toNat.toUInt8

def antisocial (name : List UInt8) : Bool :=
  (ascii "/").isPrefixOf name || (ascii "./").isPrefixOf name || (ascii "../").isPrefixOf name

def afterSlash (name : List UInt8) : List UInt8 := (name.dropWhile (· != 0x2f)).drop 1

def dropAntisocial : ℕ → List UInt8 → List UInt8
  | 0, name => name
  | n + 1, name => if antisocial name then dropAntisocial n (afterSlash name) else name

def stripAntisocialPrefixes (name : List UInt8) : List UInt8 :=
  let rest := dropAntisocial name.length name
  if rest = [] ∨ rest = ascii ".." then ascii "." else rest

theorem length_afterSlash {name : List UInt8} (h : name ≠ []) : (afterSlash name).length < name.length := by
  have hle := (List.dropWhile_suffix (l := name) (· != 0x2f)).length_le
  have hpos := List.length_pos_iff.mpr h
  rw [afterSlash, List.length_drop]
  omega

theorem antisocial_dropAntisocial {n : ℕ} {name : List UInt8} (h : name.length ≤ n) :
    antisocial (dropAntisocial n name) = false := by
  induction n generalizing name with
  | zero =>
    rw [List.length_eq_zero_iff.mp (Nat.le_zero.mp h)]
    decide
  | succ n ih =>
    rw [dropAntisocial]
    split_ifs with hanti
    · have hne : name ≠ [] := by
        rintro rfl
        exact absurd hanti (by decide)
      have := length_afterSlash hne
      exact ih (by omega)
    · exact Bool.eq_false_of_not_eq_true hanti

theorem dropAntisocial_eq_self {name : List UInt8} (h : antisocial name = false) (n : ℕ) :
    dropAntisocial n name = name := by
  cases n with
  | zero => rfl
  | succ n => rw [dropAntisocial, h, if_neg Bool.false_ne_true]

theorem strip_strip (name : List UInt8) :
    stripAntisocialPrefixes (stripAntisocialPrefixes name) = stripAntisocialPrefixes name := by
  have hanti := antisocial_dropAntisocial (Nat.le_refl name.length)
  by_cases hrest : dropAntisocial name.length name = [] ∨ dropAntisocial name.length name = ascii ".."
  · have hdot : stripAntisocialPrefixes name = ascii "." := if_pos hrest
    rw [hdot]
    decide
  · have hself : stripAntisocialPrefixes name = dropAntisocial name.length name := if_neg hrest
    rw [hself, stripAntisocialPrefixes, dropAntisocial_eq_self hanti]
    exact if_neg hrest

theorem mem_of_mem_dropAntisocial {c : UInt8} {n : ℕ} {name : List UInt8} (h : c ∈ dropAntisocial n name) :
    c ∈ name := by
  induction n generalizing name with
  | zero => exact h
  | succ n ih =>
    rw [dropAntisocial] at h
    split_ifs at h
    · exact (List.dropWhile_suffix _).subset (List.mem_of_mem_drop (ih h))
    · exact h

theorem zero_notMem_strip {name : List UInt8} (h : 0 ∉ name) : 0 ∉ stripAntisocialPrefixes name := by
  rw [stripAntisocialPrefixes]
  split_ifs
  · decide
  · exact fun hmem => h (mem_of_mem_dropAntisocial hmem)

def octal : ℕ → ℕ → List UInt8
  | 0, _ => []
  | w + 1, n => octal w (n / 8) ++ [(0x30 + n % 8).toUInt8]

def parseOctal : List UInt8 → ℕ → ℕ → Option ℕ
  | [], _, _ => none
  | c :: s, ofs, value =>
    if 0x30 ≤ c ∧ c ≤ 0x37 then
      if (2 ^ 32 - 1) / 8 < value then none else parseOctal s (ofs + 1) (c.toNat - 0x30 + value * 8)
    else if c = 0x20 ∨ c = 0 then if 0 < ofs then some value else none
    else none

def parseOctalField (s : List UInt8) : Option ℕ := parseOctal s 0 0

theorem length_octal (w n : ℕ) : (octal w n).length = w := by
  induction w generalizing n with
  | zero => rfl
  | succ w ih => rw [octal, List.length_append, ih, List.length_singleton]

theorem octalDigit : ∀ d < 8, (0x30 ≤ (0x30 + d).toUInt8 ∧ (0x30 + d).toUInt8 ≤ 0x37) ∧
    (0x30 + d).toUInt8.toNat - 0x30 = d := by
  decide

theorem parseOctal_octal {w n value : ℕ} (hn : n < 8 ^ w) (hv : value * 8 ^ w + n < 2 ^ 32) (rest : List UInt8)
    (ofs : ℕ) : parseOctal (octal w n ++ rest) ofs value = parseOctal rest (ofs + w) (value * 8 ^ w + n) := by
  induction w generalizing n rest with
  | zero =>
    have hzero : n = 0 := by simpa using hn
    simp [octal, hzero]
  | succ w ih =>
    rw [Nat.pow_succ] at hn hv
    have hdiv : n / 8 < 8 ^ w := by omega
    have hval : value * (8 ^ w * 8) = value * 8 ^ w * 8 := by rw [Nat.mul_assoc]
    obtain ⟨hdigit, hback⟩ := octalDigit (n % 8) (Nat.mod_lt _ (by decide))
    rw [octal, List.append_assoc, ih hdiv (by omega), List.singleton_append, parseOctal, if_pos hdigit, if_neg (by omega),
      hback, Nat.pow_succ, hval]
    congr 1
    omega

def putString (n : ℕ) (s : List UInt8) : List.Vector UInt8 n := fill n 0 (s.take (n - 1))

theorem toList_putString {n : ℕ} {s : List UInt8} (h : s.length < n) :
    (putString n s).toList = s ++ 0 :: List.replicate (n - 1 - s.length) 0 := by
  rw [putString, List.take_of_length_le (by omega), toList_fill 0 (by omega), ← List.replicate_succ]
  congr 2
  omega

theorem parseOctalField_putString {w n value : ℕ} (hw : 0 < w) (hwn : w < n) (hv : value < 8 ^ w)
    (hlong : value < 2 ^ 32) : parseOctalField (putString n (octal w value)).toList = some value := by
  rw [toList_putString (by rw [length_octal]; exact hwn), parseOctalField, parseOctal_octal hv (by omega), parseOctal,
    if_neg (by decide), if_pos (.inr rfl), if_pos (by omega), Nat.zero_mul, Nat.zero_add]

inductive UstarType
  | regular
  | directory
  deriving DecidableEq

def UstarType.byte : UstarType → UInt8
  | .regular => 0x30
  | .directory => 0x35

structure Header where
  name : List.Vector UInt8 100
  mode : List.Vector UInt8 8
  uid : List.Vector UInt8 8
  gid : List.Vector UInt8 8
  size : List.Vector UInt8 12
  mtime : List.Vector UInt8 12
  chksum : List.Vector UInt8 8
  typeflag : UInt8
  linkname : List.Vector UInt8 100
  magic : List.Vector UInt8 6
  version : List.Vector UInt8 2
  uname : List.Vector UInt8 32
  gname : List.Vector UInt8 32
  devmajor : List.Vector UInt8 8
  devminor : List.Vector UInt8 8
  namePrefix : List.Vector UInt8 155
  padding : List.Vector UInt8 12

namespace Header

def list (h : Header) : List UInt8 :=
  h.name.toList ++ h.mode.toList ++ h.uid.toList ++ h.gid.toList ++ h.size.toList ++ h.mtime.toList ++
    h.chksum.toList ++ [h.typeflag] ++ h.linkname.toList ++ h.magic.toList ++ h.version.toList ++ h.uname.toList ++
    h.gname.toList ++ h.devmajor.toList ++ h.devminor.toList ++ h.namePrefix.toList ++ h.padding.toList

def bytes (h : Header) : Sector := ⟨h.list, by simp [list]⟩

def ofBytes (b : Sector) : Header where
  name := slice b 0 100 (by decide)
  mode := slice b 100 8 (by decide)
  uid := slice b 108 8 (by decide)
  gid := slice b 116 8 (by decide)
  size := slice b 124 12 (by decide)
  mtime := slice b 136 12 (by decide)
  chksum := slice b 148 8 (by decide)
  typeflag := (slice b 156 1 (by decide)).head
  linkname := slice b 157 100 (by decide)
  magic := slice b 257 6 (by decide)
  version := slice b 263 2 (by decide)
  uname := slice b 265 32 (by decide)
  gname := slice b 297 32 (by decide)
  devmajor := slice b 329 8 (by decide)
  devminor := slice b 337 8 (by decide)
  namePrefix := slice b 345 155 (by decide)
  padding := slice b 500 12 (by decide)

def calculateChksum (h : Header) : ℕ :=
  ({ h with chksum := List.Vector.replicate 8 0x20 }.list.map UInt8.toNat).sum

end Header

def cString (s : List UInt8) : List UInt8 := s.takeWhile (· != 0)

def blankHeader (name : List UInt8) (type : UstarType) (size : ℕ) : Header where
  name := putString 100 name
  mode := putString 8 (octal 7 (if type = .regular then 420 else 493))
  uid := putString 8 (ascii "0000000")
  gid := putString 8 (ascii "0000000")
  size := putString 12 (octal 11 size)
  mtime := putString 12 (octal 11 1136102400)
  chksum := List.Vector.replicate 8 0
  typeflag := type.byte
  linkname := List.Vector.replicate 100 0
  magic := putString 6 (ascii "ustar")
  version := fill 2 0 (ascii "00")
  uname := putString 32 (ascii "root")
  gname := putString 32 (ascii "root")
  devmajor := List.Vector.replicate 8 0
  devminor := List.Vector.replicate 8 0
  namePrefix := List.Vector.replicate 155 0
  padding := List.Vector.replicate 12 0

def addChksum (h : Header) : Header := { h with chksum := putString 8 (octal 7 h.calculateChksum) }

def ustarMakeHeader (fileName : List UInt8) (type : UstarType) (size : ℕ) : Option Sector :=
  let name := stripAntisocialPrefixes fileName
  if 99 < name.length then none else some (addChksum (blankHeader name type size)).bytes

inductive Entry
  | eof
  | entry (type : UstarType) (name : List UInt8) (size : ℕ)
  deriving DecidableEq

def isAllZeros (b : Sector) : Bool := b.toList.all (· == 0)

def parseType (h : Header) : Except String Entry :=
  if h.typeflag = UstarType.regular.byte then
    match parseOctalField h.size.toList with
    | none => .error "corrupt file size field"
    | some size =>
      if 2 ^ 31 - 1 < size then .error "file too large"
      else .ok (.entry .regular (stripAntisocialPrefixes (cString h.name.toList)) size)
  else if h.typeflag = UstarType.directory.byte then
    .ok (.entry .directory (stripAntisocialPrefixes (cString h.name.toList)) 0)
  else .error "unimplemented file type"

def validate (h : Header) : Except String Entry :=
  if h.magic.toList ≠ ascii "ustar" ++ [0] then .error "not a ustar archive"
  else if h.version.toList ≠ ascii "00" then .error "invalid ustar version"
  else
    match parseOctalField h.chksum.toList with
    | none => .error "corrupt chksum field"
    | some chksum =>
      if chksum ≠ h.calculateChksum then .error "checksum mismatch"
      else if h.name.toList[99]? ≠ some 0 ∨ h.namePrefix.toList[0]? ≠ some 0 then .error "file name too long"
      else parseType h

def ustarParseHeader (b : Sector) : Except String Entry :=
  if isAllZeros b then .ok .eof else validate (Header.ofBytes b)

namespace Header

theorem toList_bytes (h : Header) : h.bytes.toList = h.list := rfl

theorem ofBytes_bytes (h : Header) : ofBytes h.bytes = h := by
  have hflag : (slice h.bytes 156 1 (by decide)).head = h.typeflag := by
    have hslice : (slice h.bytes 156 1 (by decide)).toList = [h.typeflag] := by
      rw [toList_slice, toList_bytes]
      simp [list, List.drop_append, drop_toList]
    exact congrArg List.Vector.head (List.Vector.eq _ ⟨[h.typeflag], rfl⟩ hslice)
  obtain ⟨name, mode, uid, gid, size, mtime, chksum, typeflag, linkname, magic, version, uname, gname, devmajor,
    devminor, namePrefix, padding⟩ := h
  simp only [ofBytes, hflag, mk.injEq, true_and]
  refine ⟨?_, ?_, ?_, ?_, ?_, ?_, ?_, ?_, ?_, ?_, ?_, ?_, ?_, ?_, ?_, ?_⟩ <;>
  · apply List.Vector.eq
    simp [toList_slice, toList_bytes, list, List.drop_append, drop_toList]

theorem calculateChksum_lt (h : Header) : h.calculateChksum < 8 ^ 7 := by
  have hle : ∀ l : List UInt8, (l.map UInt8.toNat).sum ≤ 255 * l.length := by
    intro l
    induction l with
    | nil => rfl
    | cons c l ih =>
      have hc := c.toNat_lt
      simp only [List.map_cons, List.sum_cons, List.length_cons]
      omega
  have hlength : { h with chksum := List.Vector.replicate 8 0x20 }.list.length = 512 :=
    { h with chksum := List.Vector.replicate 8 0x20 }.bytes.2
  have hsum := hle { h with chksum := List.Vector.replicate 8 0x20 }.list
  rw [hlength] at hsum
  exact Nat.lt_of_le_of_lt hsum (by decide)

theorem isAllZeros_bytes {h : Header} (hflag : h.typeflag ≠ 0) : isAllZeros h.bytes = false := by
  refine Bool.eq_false_iff.mpr fun hall => hflag ?_
  have hmem : h.typeflag ∈ h.bytes.toList := by simp [toList_bytes, list]
  simpa using List.all_eq_true.mp hall _ hmem

end Header

theorem cString_putString {n : ℕ} {s : List UInt8} (h : s.length < n) (hs : 0 ∉ s) :
    cString (putString n s).toList = s := by
  have hpos : ∀ c ∈ s, (c != 0) = true := fun c hc => bne_iff_ne.mpr (ne_of_mem_of_not_mem hc hs)
  rw [toList_putString h, cString, List.takeWhile_append_of_pos hpos, List.takeWhile_cons]
  simp

theorem last_putString {n : ℕ} {s : List UInt8} (h : s.length ≤ n) : (putString (n + 1) s).toList[n]? = some 0 := by
  rw [toList_putString (by omega), List.getElem?_append_right h, ← List.replicate_succ, List.getElem?_replicate,
    if_pos (by omega)]

theorem validate_addChksum {h : Header} (hmagic : h.magic.toList = ascii "ustar" ++ [0])
    (hversion : h.version.toList = ascii "00") (hlast : h.name.toList[99]? = some 0)
    (hfirst : h.namePrefix.toList[0]? = some 0) : validate (addChksum h) = parseType (addChksum h) := by
  have hlt := h.calculateChksum_lt
  have hparse : parseOctalField (addChksum h).chksum.toList = some h.calculateChksum :=
    parseOctalField_putString (by decide) (by decide) hlt (by omega)
  have hsame : (addChksum h).calculateChksum = h.calculateChksum := rfl
  have hshort : ¬ ((addChksum h).name.toList[99]? ≠ some 0 ∨ (addChksum h).namePrefix.toList[0]? ≠ some 0) :=
    not_or.mpr ⟨not_not.mpr hlast, not_not.mpr hfirst⟩
  have hright : (addChksum h).magic.toList = ascii "ustar" ++ [0] ∧ (addChksum h).version.toList = ascii "00" :=
    ⟨hmagic, hversion⟩
  rw [validate, if_neg (not_not.mpr hright.1), if_neg (not_not.mpr hright.2), hparse, hsame]
  exact (if_neg (not_not.mpr rfl)).trans (if_neg hshort)

theorem ustarParseHeader_make {fileName : List UInt8} {size : ℕ} (type : UstarType)
    (hname : (stripAntisocialPrefixes fileName).length ≤ 99) (hzero : 0 ∉ fileName) (hsize : size < 2 ^ 31) :
    ∃ b, ustarMakeHeader fileName type size = some b ∧ ustarParseHeader b =
      .ok (.entry type (stripAntisocialPrefixes fileName) (if type = .regular then size else 0)) := by
  refine ⟨_, if_neg (Nat.not_lt.mpr hname), ?_⟩
  have hflag : (addChksum (blankHeader (stripAntisocialPrefixes fileName) type size)).typeflag ≠ 0 := by
    change type.byte ≠ 0
    cases type <;> decide
  have hstring : cString (putString 100 (stripAntisocialPrefixes fileName)).toList = stripAntisocialPrefixes fileName :=
    cString_putString (by omega) (zero_notMem_strip hzero)
  rw [ustarParseHeader, Header.isAllZeros_bytes hflag, if_neg Bool.false_ne_true, Header.ofBytes_bytes,
    validate_addChksum (by decide : (putString 6 (ascii "ustar")).toList = ascii "ustar" ++ [0])
      (by decide : (fill 2 0 (ascii "00")).toList = ascii "00") (last_putString hname)
      (by decide : (List.Vector.replicate 155 (0 : UInt8)).toList[0]? = some 0)]
  cases type with
  | regular =>
    have hoctal : parseOctalField (putString 12 (octal 11 size)).toList = some size :=
      parseOctalField_putString (by decide) (by decide) (by omega) (by omega)
    have hcase : parseType (addChksum (blankHeader (stripAntisocialPrefixes fileName) .regular size)) =
        match parseOctalField (putString 12 (octal 11 size)).toList with
        | none => .error "corrupt file size field"
        | some size => if 2 ^ 31 - 1 < size then .error "file too large"
          else .ok (.entry .regular (stripAntisocialPrefixes
            (cString (putString 100 (stripAntisocialPrefixes fileName)).toList)) size) := if_pos rfl
    rw [hcase, hoctal, hstring, strip_strip]
    exact if_neg (by omega)
  | directory =>
    have hcase : parseType (addChksum (blankHeader (stripAntisocialPrefixes fileName) .directory size)) =
        .ok (.entry .directory (stripAntisocialPrefixes
          (cString (putString 100 (stripAntisocialPrefixes fileName)).toList)) 0) :=
      (if_neg (by decide : UstarType.directory.byte ≠ UstarType.regular.byte)).trans (if_pos rfl)
    rw [hcase, hstring, strip_strip]
    rfl

theorem antisocial_strip (name : List UInt8) : antisocial (stripAntisocialPrefixes name) = false := by
  rw [stripAntisocialPrefixes]
  split_ifs
  · decide
  · exact antisocial_dropAntisocial le_rfl

theorem strip_ne (name : List UInt8) :
    stripAntisocialPrefixes name ≠ [] ∧ stripAntisocialPrefixes name ≠ ascii ".." := by
  rw [stripAntisocialPrefixes]
  split_ifs with hrest
  · decide
  · exact not_or.mp hrest

theorem header_roundTrip {fileName : List UInt8} {size : ℕ} (type : UstarType) (hzero : 0 ∉ fileName)
    (hname : (stripAntisocialPrefixes fileName).length ≤ 99) (hsize : size ≤ 2 ^ 31 - 1) :
    (∃ b, ustarMakeHeader fileName type size = some b ∧ ustarParseHeader b =
        .ok (.entry type (stripAntisocialPrefixes fileName) (if type = .regular then size else 0))) ∧
      ∀ name, stripAntisocialPrefixes (stripAntisocialPrefixes name) = stripAntisocialPrefixes name ∧
        antisocial (stripAntisocialPrefixes name) = false ∧ stripAntisocialPrefixes name ≠ [] ∧
        stripAntisocialPrefixes name ≠ ascii ".." :=
  ⟨ustarParseHeader_make type hname hzero (by omega),
    fun name => ⟨strip_strip name, antisocial_strip name, strip_ne name⟩⟩

theorem header_roundTrip_slash : ∃ b, ustarMakeHeader (ascii "/a") .regular 7 = some b ∧
    ustarParseHeader b = .ok (.entry .regular (stripAntisocialPrefixes (ascii "/a")) 7) :=
  (header_roundTrip .regular (by decide) (by decide) (by decide)).1

end Cs162.Filesys.Ustar
