import Cs162.Lib.Text
import Cs162.Kvstore.Replicas

namespace Cs162.Kvstore
open Cs162.Lib.Text

abbrev Signed (w : ℕ) := {n : ℤ // -2 ^ w ≤ n ∧ n < 2 ^ w}

def jstring (s : String) : JString := s.toList.map fun ch => UInt16.ofNat ch.toNat

structure DigitTable where
  digit : UInt16 → Option ℕ
  ascii (ch : UInt16) (h : ch.toNat < 128) :
    digit ch = if 48 ≤ ch.toNat ∧ ch.toNat ≤ 57 then some (ch.toNat - 48) else none

def DigitTable.basic : DigitTable where
  digit ch := if 48 ≤ ch.toNat ∧ ch.toNat ≤ 57 then some (ch.toNat - 48) else none
  ascii _ _ := rfl

def atSign : UInt16 := 0x40
def colonSign : UInt16 := 0x3A
def minusSign : UInt16 := 0x2D
def plusSign : UInt16 := 0x2B

def jtrim (s : JString) : JString := trim (fun ch => decide (ch.toNat ≤ 0x20)) s

structure TPCSlaveInfo where
  slaveID : Signed 63
  hostname : JString
  port : Signed 31
  deriving DecidableEq, Repr

section Parse
variable (table : DigitTable)

def parseSigned (w : ℕ) (s : JString) : Option (Signed w) :=
  (signedNumeral table.digit minusSign plusSign s).bind fun n =>
    if h : -2 ^ w ≤ n ∧ n < 2 ^ w then some ⟨n, h⟩ else none

def invalidFormat : Throwable := .ofError errorInvalidFormat

def TPCSlaveInfo.ofString (info : JString) : Except Throwable TPCSlaveInfo :=
  if info.isEmpty then .error invalidFormat
  else match split atSign info with
    | [idPart, address] => match split colonSign address with
      | [hostPart, portPart] =>
        match parseSigned table 63 (jtrim idPart), parseSigned table 31 (jtrim portPart) with
        | some slaveID, some port =>
          if (jtrim hostPart).length = 0 then .error invalidFormat
          else .ok ⟨slaveID, jtrim hostPart, port⟩
        | _, _ => .error invalidFormat
      | _ => .error invalidFormat
    | _ => .error invalidFormat

end Parse

def TPCSlaveInfo.toString (info : TPCSlaveInfo) : JString :=
  longToString info.slaveID ++ [atSign] ++ info.hostname ++ [colonSign] ++ longToString info.port

namespace TPCSlaveInfo
variable {table : DigitTable} {info : TPCSlaveInfo} {s idPart hostPart portPart : JString}

def layout (idPart hostPart portPart : JString) : JString :=
  idPart ++ atSign :: (hostPart ++ colonSign :: portPart)

structure Reads (table : DigitTable) (idPart hostPart portPart : JString) (info : TPCSlaveInfo) : Prop where
  at_id : atSign ∉ idPart
  at_host : atSign ∉ hostPart
  at_port : atSign ∉ portPart
  colon_host : colonSign ∉ hostPart
  colon_port : colonSign ∉ portPart
  slaveID : parseSigned table 63 (jtrim idPart) = some info.slaveID
  hostname : jtrim hostPart = info.hostname
  named : info.hostname ≠ []
  port : parseSigned table 31 (jtrim portPart) = some info.port

def Denotes (table : DigitTable) (s : JString) (info : TPCSlaveInfo) : Prop :=
  ∃ idPart hostPart portPart,
    s = layout idPart hostPart portPart ∧ Reads table idPart hostPart portPart info

def Surplus (table : DigitTable) (s : JString) (info : TPCSlaveInfo) : Prop :=
  ∃ core m n, Denotes table core info ∧ 0 < m + n ∧
    s = core ++ List.replicate m colonSign ++ List.replicate n atSign

theorem Reads.portPart_ne_nil (h : Reads table idPart hostPart portPart info) : portPart ≠ [] := by
  rintro rfl
  cases h.port

theorem ofString_layout (h : Reads table idPart hostPart portPart info) (m n : ℕ) :
    ofString table (layout idPart hostPart portPart ++ List.replicate m colonSign ++
      List.replicate n atSign) = .ok info := by
  have hcolon : split colonSign (hostPart ++ colonSign :: (portPart ++ List.replicate m colonSign)) =
      [hostPart, portPart] :=
    split_eq_pair_iff.mpr ⟨h.colon_host, h.colon_port, h.portPart_ne_nil, m, rfl⟩
  have hat : split atSign
      (layout idPart hostPart portPart ++ List.replicate m colonSign ++ List.replicate n atSign) =
      [idPart, hostPart ++ colonSign :: (portPart ++ List.replicate m colonSign)] := by
    refine split_eq_pair_iff.mpr ⟨h.at_id, ?_, by simp, n, by simp [layout]⟩
    have hne : atSign ≠ colonSign := by decide
    simp [h.at_host, h.at_port, hne]
  have hnamed : ¬ info.hostname.length = 0 := by simpa using h.named
  unfold ofString
  rw [if_neg (by simp [layout]), hat]
  simp only [hcolon, h.slaveID, h.port, h.hostname, if_neg hnamed]

theorem ofString_cases (table : DigitTable) (s : JString) :
    ofString table s = .error invalidFormat ∨
      ∃ idPart hostPart portPart info m n, Reads table idPart hostPart portPart info ∧
        s = layout idPart hostPart portPart ++ List.replicate m colonSign ++ List.replicate n atSign ∧
        ofString table s = .ok info := by
  unfold ofString
  split
  · exact .inl rfl
  split
  · rename_i idPart address hat
    split
    · rename_i hostPart portPart hcolon
      split
      · rename_i slaveID port hid hport
        split
        · exact .inl rfl
        · rename_i hnamed
          obtain ⟨hid_at, haddr_at, -, n, rfl⟩ := split_eq_pair_iff.mp hat
          obtain ⟨hhost, hportc, -, m, rfl⟩ := split_eq_pair_iff.mp hcolon
          simp only [List.mem_append, List.mem_cons, not_or] at haddr_at
          refine .inr ⟨idPart, hostPart, portPart, _, m, n, ?_, by simp [layout], rfl⟩
          exact ⟨hid_at, haddr_at.1, haddr_at.2.2.1, hhost, hportc, hid, rfl, by simpa using hnamed, hport⟩
      · exact .inl rfl
    · exact .inl rfl
  · exact .inl rfl

theorem Denotes.not_surplus (h : Denotes table s info) (info' : TPCSlaveInfo) :
    ¬ Surplus table s info' := by
  obtain ⟨i, a, p, rfl, hr⟩ := h
  rintro ⟨core, m, n, ⟨i', a', p', rfl, hr'⟩, hpos, hs⟩
  have hne : atSign ≠ colonSign := by decide
  simp only [layout, List.append_assoc, List.cons_append] at hs
  -- The only `@` of the one reading is the first one of the other, and so is the only `:`.
  have hat := (List.append_cons_inj_of_notMem hr.at_id (by simp [hr.at_host, hr.at_port, hne])).mp hs
  have hcolon := (List.append_cons_inj_of_notMem hr.colon_host hr.colon_port).mp hat.2.2
  have hm : colonSign ∉ List.replicate m colonSign := fun hmem =>
    hr.colon_port (hcolon.2.2 ▸ List.mem_append_right _ (List.mem_append_left _ hmem))
  have hn : atSign ∉ List.replicate n atSign := fun hmem =>
    hr.at_port (hcolon.2.2 ▸ List.mem_append_right _ (List.mem_append_right _ hmem))
  simp only [List.mem_replicate, not_and, ne_eq, not_true_eq_false, imp_false, not_not] at hm hn
  omega

theorem ofString_eq_ok_iff :
    ofString table s = .ok info ↔ Denotes table s info ∨ Surplus table s info := by
  constructor
  · intro h
    obtain herr | ⟨i, a, p, info', m, n, hr, hs, hok⟩ := ofString_cases table s
    · cases herr.symm.trans h
    · cases hok.symm.trans h
      by_cases hpos : 0 < m + n
      · exact .inr ⟨_, m, n, ⟨i, a, p, rfl, hr⟩, hpos, hs⟩
      · obtain ⟨rfl, rfl⟩ : m = 0 ∧ n = 0 := by omega
        exact .inl ⟨i, a, p, by simpa using hs, hr⟩
  · rintro (⟨i, a, p, rfl, hr⟩ | ⟨core, m, n, ⟨i, a, p, rfl, hr⟩, -, rfl⟩)
    · simpa using ofString_layout hr 0 0
    · exact ofString_layout hr m n

theorem ofString_eq_error (hd : ∀ info, ¬ Denotes table s info) (hs : ∀ info, ¬ Surplus table s info) :
    ofString table s = .error invalidFormat := by
  obtain herr | ⟨i, a, p, info, m, n, -, -, hok⟩ := ofString_cases table s
  · exact herr
  · exact ((ofString_eq_ok_iff.mp hok).elim (hd info) (hs info)).elim

theorem mem_longToString {n : ℤ} {ch : UInt16} (h : ch ∈ longToString n) :
    ch = minusSign ∨ 48 ≤ ch.toNat ∧ ch.toNat ≤ 57 := by
  have hdigits {k : ℕ} {c : Char} (hc : c ∈ k.repr.toList) :
      48 ≤ (UInt16.ofNat c.toNat).toNat ∧ (UInt16.ofNat c.toNat).toNat ≤ 57 := by
    rw [Nat.toList_repr] at hc
    have hd := Nat.isDigit_of_mem_toDigits (by decide) (by decide) hc
    simp only [Char.isDigit, Bool.and_eq_true, decide_eq_true_eq] at hd
    have hc : 48 ≤ c.toNat ∧ c.toNat ≤ 57 := ⟨hd.1, hd.2⟩
    rw [UInt16.toNat_ofNat', Nat.mod_eq_of_lt (by omega)]
    exact hc
  obtain ⟨c, hc, rfl⟩ := List.mem_map.mp h
  rw [Int.toString_eq_repr, Int.repr_eq_if] at hc
  split at hc
  · exact .inr (hdigits hc)
  · rw [String.toList_append] at hc
    rcases List.mem_append.mp hc with hc | hc
    · rw [List.mem_singleton.mp hc]
      exact .inl rfl
    · exact .inr (hdigits hc)

theorem notMem_longToString {ch : UInt16} (hch : 57 < ch.toNat) (n : ℤ) : ch ∉ longToString n := by
  intro h
  rcases mem_longToString h with rfl | h
  · exact absurd hch (by decide)
  · omega

theorem jtrim_longToString (n : ℤ) : jtrim (longToString n) = longToString n := by
  refine trim_eq_self fun ch hch => decide_eq_false ?_
  rcases mem_longToString hch with rfl | h
  · decide
  · omega

theorem parseSigned_longToString (table : DigitTable) {w : ℕ} (n : Signed w) :
    parseSigned table w (longToString n) = some n := by
  have hdigit (d : ℕ) (hd : d < 10) : table.digit (UInt16.ofNat d.digitChar.toNat) = some d := by
    have htoNat : (UInt16.ofNat d.digitChar.toNat).toNat = 48 + d := by
      rw [Nat.toNat_digitChar_of_lt_ten hd, UInt16.toNat_ofNat', Nat.mod_eq_of_lt (by omega)]
    rw [table.ascii _ (by omega), htoNat, if_pos (by omega), Nat.add_sub_cancel_left]
  have hnum : signedNumeral table.digit minusSign plusSign
      ((ToString.toString n.val).toList.map fun ch => UInt16.ofNat ch.toNat) = some n.val :=
    signedNumeral_toString hdigit rfl (table.ascii _ (by decide)) (table.ascii _ (by decide)) n
  rw [parseSigned, longToString, hnum]
  exact dif_pos n.2

theorem Reads.toString (h : Reads table idPart hostPart portPart info) :
    Reads table (longToString info.slaveID) info.hostname (longToString info.port) info where
  at_id := notMem_longToString (by decide) _
  at_host hmem := h.at_host (mem_of_mem_trim (h.hostname ▸ hmem :))
  at_port := notMem_longToString (by decide) _
  colon_host hmem := h.colon_host (mem_of_mem_trim (h.hostname ▸ hmem :))
  colon_port := notMem_longToString (by decide) _
  slaveID := by rw [jtrim_longToString, parseSigned_longToString]
  hostname := by
    rw [← h.hostname]
    exact trim_trim hostPart
  named := h.named
  port := by rw [jtrim_longToString, parseSigned_longToString]

theorem toString_eq_layout (info : TPCSlaveInfo) :
    info.toString = layout (longToString info.slaveID) info.hostname (longToString info.port) := by
  simp [TPCSlaveInfo.toString, layout]

theorem ofString_toString (h : ofString table s = .ok info) : ofString table info.toString = .ok info := by
  obtain herr | ⟨i, a, p, info', m, n, hr, -, hok⟩ := ofString_cases table s
  · cases herr.symm.trans h
  · cases hok.symm.trans h
    rw [toString_eq_layout]
    simpa using ofString_layout hr.toString 0 0

theorem ofString_grammar_iff (table : DigitTable) (s : JString) :
    ((∀ info, ofString table s = .ok info ↔ Denotes table s info) ∧
      ((∀ info, ¬ Denotes table s info) → ofString table s = .error invalidFormat) ∧
      ∀ info, ofString table s = .ok info → ofString table info.toString = .ok info) ↔
      ∀ info, ¬ Surplus table s info := by
  constructor
  · rintro ⟨haccept, -, -⟩ info hs
    have hd : Denotes table s info := (haccept info).mp (ofString_eq_ok_iff.mpr (.inr hs))
    exact hd.not_surplus info hs
  · intro hs
    have haccept (info : TPCSlaveInfo) : ofString table s = .ok info ↔ Denotes table s info := by
      rw [ofString_eq_ok_iff, or_iff_left (hs info)]
    exact ⟨haccept, fun hnone => ofString_eq_error hnone hs, fun info => ofString_toString⟩

theorem ofString_surplus_at :
    ofString .basic (jstring "1@h:2@") = .ok ⟨⟨1, by decide⟩, jstring "h", ⟨2, by decide⟩⟩ ∧
      List.count atSign (jstring "1@h:2@") = 2 ∧
      ∀ info, ¬ Denotes .basic (jstring "1@h:2@") info := by
  refine ⟨by decide +kernel, by decide, fun info h => ?_⟩
  have hcore : Denotes .basic (jstring "1@h:2") ⟨⟨1, by decide⟩, jstring "h", ⟨2, by decide⟩⟩ := by
    refine ⟨jstring "1", jstring "h", jstring "2", by decide, ?_⟩
    constructor <;> decide
  exact h.not_surplus _ ⟨jstring "1@h:2", 0, 1, hcore, by decide, by decide⟩

end TPCSlaveInfo

end Cs162.Kvstore
