import Mathlib.Order.Lattice
import Cs162.Userprog.Syscall

namespace Cs162.Userprog
open Syscall (pgSize physBase)

structure UserPages where
  mapped : ℕ → Bool
  byte : UInt32 → UInt8

def isUserVaddr (vaddr : UInt32) : Bool := vaddr.toNat < physBase

namespace UserPages
variable (m : UserPages)

def getUser (uaddr : UInt32) : ℤ := if m.mapped (uaddr.toNat / pgSize) then (m.byte uaddr).toNat else -1

def accessOk (vaddr size : UInt32) : Bool :=
  if !isUserVaddr (vaddr + size) || !isUserVaddr vaddr then false
  else if m.getUser vaddr = -1 then false
  else if 0 < size ∧ m.getUser (vaddr + size) = -1 then false
  else true

def UserByte (a : ℕ) : Prop := a < physBase ∧ m.mapped (a / pgSize) = true

instance (a : ℕ) : Decidable (m.UserByte a) := inferInstanceAs (Decidable (_ ∧ _))

inductive Argument
  | exits
  | value (x : UInt32)
  | outside
  deriving DecidableEq

def load (a : UInt32) : Argument :=
  if m.UserByte a.toNat ∧ m.UserByte (a + 1).toNat ∧ m.UserByte (a + 2).toNat ∧ m.UserByte (a + 3).toNat then
    .value ((m.byte a).toUInt32 + 256 * (m.byte (a + 1)).toUInt32 + 65536 * (m.byte (a + 2)).toUInt32 +
      16777216 * (m.byte (a + 3)).toUInt32)
  else .outside

def readArgument (esp offset : UInt32) : Argument :=
  if !m.accessOk esp (offset * 4) then .exits else m.load (esp + offset * 4)

def Valid (vaddr size : UInt32) : Prop :=
  m.UserByte vaddr.toNat ∧ ∀ i < size.toNat, m.UserByte (vaddr.toNat + i)

def Wraps (vaddr size : UInt32) : Prop :=
  2 ^ 32 ≤ vaddr.toNat + size.toNat ∧ m.UserByte vaddr.toNat ∧ m.UserByte (vaddr + size).toNat

def Hole (vaddr size : UInt32) : Prop :=
  vaddr.toNat + size.toNat < 2 ^ 32 ∧ m.UserByte vaddr.toNat ∧ m.UserByte (vaddr + size).toNat ∧
    ∃ p, vaddr.toNat / pgSize < p ∧ p < (vaddr.toNat + size.toNat) / pgSize ∧ m.mapped p = false

def Edge (vaddr size : UInt32) : Prop :=
  0 < size.toNat ∧ vaddr.toNat + size.toNat ≤ physBase ∧ pgSize ∣ vaddr.toNat + size.toNat ∧
    (∀ p, vaddr.toNat / pgSize ≤ p → p < (vaddr.toNat + size.toNat) / pgSize → m.mapped p = true) ∧
    ¬ m.UserByte (vaddr.toNat + size.toNat)

def Straddles (a : UInt32) : Prop :=
  pgSize - 4 < a.toNat % pgSize ∧ ¬ m.UserByte ((a.toNat / pgSize + 1) * pgSize)

variable {m} {vaddr size a esp offset : UInt32}

theorem toNat_add_of_lt (h : vaddr.toNat + size.toNat < 2 ^ 32) :
    (vaddr + size).toNat = vaddr.toNat + size.toNat := by
  rw [UInt32.toNat_add, Nat.mod_eq_of_lt h]

theorem getUser_ne_iff (h : isUserVaddr a = true) : m.getUser a ≠ -1 ↔ m.UserByte a.toNat := by
  have hlt : a.toNat < physBase := of_decide_eq_true h
  unfold getUser UserByte
  split_ifs with hmapped
  · refine iff_of_true ?_ ⟨hlt, hmapped⟩
    omega
  · exact iff_of_false (fun hne => hne rfl) fun hbyte => hmapped hbyte.2

theorem accessOk_iff : m.accessOk vaddr size = true ↔ m.UserByte vaddr.toNat ∧ m.UserByte (vaddr + size).toNat := by
  unfold accessOk
  by_cases huser : isUserVaddr (vaddr + size) = true ∧ isUserVaddr vaddr = true
  · obtain ⟨hend, hstart⟩ := huser
    rw [← getUser_ne_iff hend, ← getUser_ne_iff hstart]
    by_cases hsize : size = 0
    · simp [hstart, hsize]
    · have hpos : 0 < size := UInt32.pos_iff_ne_zero.mpr hsize
      simp [hstart, hend, hpos]
  · have hfalse : (!isUserVaddr (vaddr + size) || !isUserVaddr vaddr) = true := by
      simpa [or_iff_not_imp_left] using huser
    rw [if_pos hfalse]
    refine iff_of_false Bool.false_ne_true fun hbytes => huser ?_
    exact ⟨decide_eq_true hbytes.2.1, decide_eq_true hbytes.1.1⟩

theorem exists_byte {p v n : ℕ} (hp : v / pgSize ≤ p) (hp' : p < (v + n) / pgSize) :
    ∃ i < n, (v + i) / pgSize = p := by
  refine ⟨(p + 1) * pgSize - 1 - v, ?_, ?_⟩
  · simp only [pgSize] at *
    omega
  · simp only [pgSize] at *
    omega

theorem valid_of_accessOk (hwraps : ¬ m.Wraps vaddr size) (hhole : ¬ m.Hole vaddr size)
    (h : m.accessOk vaddr size = true) : m.Valid vaddr size := by
  obtain ⟨hstart, hend⟩ := accessOk_iff.mp h
  refine ⟨hstart, fun i hi => ?_⟩
  have hnowrap : vaddr.toNat + size.toNat < 2 ^ 32 := not_le.mp fun hle => hwraps ⟨hle, hstart, hend⟩
  have hval : (vaddr + size).toNat = vaddr.toNat + size.toNat := toNat_add_of_lt hnowrap
  have hbelow := hend.1
  rw [hval] at hbelow
  refine ⟨(Nat.add_lt_add_left hi _).trans hbelow, ?_⟩
  have hle : vaddr.toNat / pgSize ≤ (vaddr.toNat + i) / pgSize := Nat.div_le_div_right (Nat.le_add_right ..)
  have hle' : (vaddr.toNat + i) / pgSize ≤ (vaddr.toNat + size.toNat) / pgSize :=
    Nat.div_le_div_right (Nat.add_le_add_left hi.le _)
  rcases hle.eq_or_lt with heq | hlt
  · exact heq ▸ hstart.2
  · rcases hle'.eq_or_lt with heq | hlt'
    · rw [heq, ← hval]
      exact hend.2
    · by_contra hfalse
      exact hhole ⟨hnowrap, hstart, hend, _, hlt, hlt', Bool.eq_false_iff.mpr hfalse⟩

theorem accessOk_of_valid (hedge : ¬ m.Edge vaddr size) (h : m.Valid vaddr size) : m.accessOk vaddr size = true := by
  refine accessOk_iff.mpr ⟨h.1, ?_⟩
  rcases Nat.eq_zero_or_pos size.toNat with hzero | hpos
  · have hsize : size = 0 := UInt32.toNat_inj.mp hzero
    rw [hsize, UInt32.add_zero]
    exact h.1
  · obtain ⟨hlast, hmapped⟩ := h.2 (size.toNat - 1) (Nat.sub_lt hpos Nat.one_pos)
    have hend : vaddr.toNat + (size.toNat - 1) + 1 = vaddr.toNat + size.toNat := by omega
    have hle : vaddr.toNat + size.toNat ≤ physBase := hend ▸ hlast
    rw [toNat_add_of_lt (hle.trans_lt (by decide))]
    by_contra hnot
    refine hedge ⟨hpos, hle, ?_, fun p hp hp' => ?_, hnot⟩
    · -- otherwise the byte behind the buffer is in the page of the last byte
      by_contra hdvd
      refine hnot ⟨lt_of_le_of_ne hle fun heq => hdvd (heq ▸ by decide), ?_⟩
      rw [← hend] at hdvd ⊢
      rwa [Nat.succ_div_of_not_dvd hdvd]
    · obtain ⟨i, hi, hpage⟩ := exists_byte hp hp'
      exact hpage ▸ (h.2 i hi).2

theorem not_wraps_of_exact (h : m.accessOk vaddr size = true ↔ m.Valid vaddr size) : ¬ m.Wraps vaddr size := by
  rintro ⟨hle, hstart, hend⟩
  obtain ⟨hvaddr, hbytes⟩ := h.mp (accessOk_iff.mpr ⟨hstart, hend⟩)
  have hpos : 0 < size.toNat := by
    have := vaddr.toNat_lt
    omega
  have hlast := (hbytes (size.toNat - 1) (Nat.sub_lt hpos Nat.one_pos)).1
  simp only [physBase] at hlast
  omega

theorem not_hole_of_exact (h : m.accessOk vaddr size = true ↔ m.Valid vaddr size) : ¬ m.Hole vaddr size := by
  rintro ⟨-, hstart, hend, p, hlt, hlt', hfalse⟩
  obtain ⟨i, hi, hpage⟩ := exists_byte hlt.le hlt'
  have hmapped := ((h.mp (accessOk_iff.mpr ⟨hstart, hend⟩)).2 i hi).2
  rw [hpage, hfalse] at hmapped
  cases hmapped

theorem not_edge_of_exact (h : m.accessOk vaddr size = true ↔ m.Valid vaddr size) : ¬ m.Edge vaddr size := by
  rintro ⟨hpos, hle, hdvd, hmapped, hnot⟩
  have hvalid : ∀ i < size.toNat, m.UserByte (vaddr.toNat + i) := by
    intro i hi
    refine ⟨(Nat.add_lt_add_left hi _).trans_le hle, hmapped _ ?_ ?_⟩
    · exact Nat.div_le_div_right (Nat.le_add_right ..)
    · rw [Nat.div_lt_iff_lt_mul (by decide), Nat.div_mul_cancel hdvd]
      exact Nat.add_lt_add_left hi _
  have hend := (accessOk_iff.mp (h.mpr ⟨hvalid 0 hpos, hvalid⟩)).2
  rw [toNat_add_of_lt (hle.trans_lt (by decide))] at hend
  exact hnot hend

theorem UserByte.same_page {c d : ℕ} (h : m.UserByte c) (hpage : d / pgSize = c / pgSize) : m.UserByte d := by
  refine ⟨?_, hpage ▸ h.2⟩
  have hlt := h.1
  simp only [pgSize, physBase] at *
  omega

theorem userByte_word_iff {c : ℕ} (h : m.UserByte c) :
    (m.UserByte (c + 1) ∧ m.UserByte (c + 2) ∧ m.UserByte (c + 3)) ↔
      ¬ (pgSize - 4 < c % pgSize ∧ ¬ m.UserByte ((c / pgSize + 1) * pgSize)) := by
  have hdiv := Nat.div_add_mod' c pgSize
  have hmod : c % pgSize < pgSize := Nat.mod_lt c (by decide)
  constructor
  · rintro ⟨hone, htwo, hthree⟩ ⟨hcross, hnot⟩
    have hnext : (c / pgSize + 1) * pgSize = c + 1 ∨ (c / pgSize + 1) * pgSize = c + 2 ∨
        (c / pgSize + 1) * pgSize = c + 3 := by
      simp only [pgSize] at *
      omega
    rcases hnext with heq | heq | heq
    · exact hnot (heq ▸ hone)
    · exact hnot (heq ▸ htwo)
    · exact hnot (heq ▸ hthree)
  · intro hsafe
    have hbyte : ∀ i < 4, m.UserByte (c + i) := by
      intro i hi
      by_cases hpage : (c + i) / pgSize = c / pgSize
      · exact h.same_page hpage
      · have hcross : pgSize - 4 < c % pgSize := by
          simp only [pgSize] at *
          omega
        have hnext : m.UserByte ((c / pgSize + 1) * pgSize) := by_contra fun hnot => hsafe ⟨hcross, hnot⟩
        refine hnext.same_page ?_
        simp only [pgSize] at *
        omega
    exact ⟨hbyte 1 (by decide), hbyte 2 (by decide), hbyte 3 (by decide)⟩

theorem load_ne_outside_iff (h : m.UserByte a.toNat) : m.load a ≠ .outside ↔ ¬ m.Straddles a := by
  have hsucc : ∀ i : UInt32, i.toNat < 4 → (a + i).toNat = a.toNat + i.toNat := fun i hi =>
    toNat_add_of_lt ((Nat.add_lt_add h.1 hi).trans (by decide))
  have hword := userByte_word_iff h
  unfold load
  rw [hsucc 1 (by decide), hsucc 2 (by decide), hsucc 3 (by decide)]
  split_ifs with hall
  · exact iff_of_true (fun heq => Argument.noConfusion heq) (hword.mp hall.2)
  · exact iff_of_false (fun hne => hne rfl) fun hnot => hall ⟨h, hword.mpr hnot⟩

theorem accessOk_exact_iff (m : UserPages) :
    (∀ vaddr size : UInt32, (m.accessOk vaddr size = true ↔ m.Valid vaddr size) ↔
        ¬ m.Wraps vaddr size ∧ ¬ m.Hole vaddr size ∧ ¬ m.Edge vaddr size) ∧
      ∀ esp offset : UInt32, m.readArgument esp offset ≠ .outside ↔
        ¬ (m.UserByte esp.toNat ∧ m.UserByte (esp + offset * 4).toNat ∧ m.Straddles (esp + offset * 4)) := by
  refine ⟨fun vaddr size => ?_, fun esp offset => ?_⟩
  · constructor
    · exact fun h => ⟨not_wraps_of_exact h, not_hole_of_exact h, not_edge_of_exact h⟩
    · rintro ⟨hwraps, hhole, hedge⟩
      exact ⟨valid_of_accessOk hwraps hhole, accessOk_of_valid hedge⟩
  · unfold readArgument
    cases hok : m.accessOk esp (offset * 4) with
    | true =>
      obtain ⟨hstart, hend⟩ := accessOk_iff.mp hok
      rw [Bool.not_true, if_neg Bool.false_ne_true, load_ne_outside_iff hend]
      exact not_congr ⟨fun hstraddles => ⟨hstart, hend, hstraddles⟩, fun h => h.2.2⟩
    | false =>
      refine iff_of_true (fun heq => Argument.noConfusion heq) fun h => ?_
      rw [accessOk_iff.mpr ⟨h.1, h.2.1⟩] at hok
      cases hok

def twoPages : UserPages := ⟨fun p => p = 0x8048 || p = 0x804a, fun _ => 0⟩

theorem accessOk_twoPages :
    (twoPages.accessOk 0x8048000 0x1000 = false ∧ twoPages.Valid 0x8048000 0x1000) ∧
      (twoPages.accessOk 0x8048000 0x2000 = true ∧ ¬ twoPages.Valid 0x8048000 0x2000) ∧
      (twoPages.accessOk 0x8048001 0xffffffff = true ∧ ¬ twoPages.Valid 0x8048001 0xffffffff) ∧
      twoPages.readArgument 0x8048ffe 0 = .outside := by
  refine ⟨⟨rfl, by decide, fun i hi => ?_⟩, ⟨rfl, fun h => ?_⟩, ⟨rfl, fun h => ?_⟩, rfl⟩
  · have hfirst : twoPages.UserByte 0x8048000 := by decide
    have hi : i < 4096 := hi
    refine hfirst.same_page ?_
    show (0x8048000 + i) / 4096 = 0x8048000 / 4096
    omega
  · exact absurd (h.2 0x1000 (by decide)) (by decide)
  · exact absurd (h.2 0x1000 (by decide)) (by decide)

end UserPages
end Cs162.Userprog
