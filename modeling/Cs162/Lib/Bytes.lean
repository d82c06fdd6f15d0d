import Mathlib.Algebra.Group.Nat.Defs
import Mathlib.Data.List.TakeWhile
import Mathlib.Order.Lattice

namespace Cs162.Lib

structure CString where
  bytes : List UInt8
  noNull : 0 ∉ bytes
deriving DecidableEq

namespace CString

def stored (s : CString) : List UInt8 := s.bytes ++ [0]

theorem ext_bytes {s t : CString} (h : s.bytes = t.bytes) : s = t := by
  cases s
  cases t
  cases h
  rfl

def take (n : ℕ) (s : CString) : CString := ⟨s.bytes.take n, fun h => s.noNull (List.mem_of_mem_take h)⟩

theorem take_of_length_le {n : ℕ} {s : CString} (h : s.bytes.length ≤ n) : s.take n = s :=
  ext_bytes (List.take_of_length_le h)

@[simp]
theorem length_stored (s : CString) : s.stored.length = s.bytes.length + 1 := List.length_append

theorem zero_not_mem_takeWhile (bytes : List UInt8) : 0 ∉ bytes.takeWhile (· != 0) := fun h =>
  absurd (List.mem_takeWhile_imp h) (by decide)

def ofBytes (bytes : List UInt8) : CString := ⟨bytes.takeWhile (· != 0), zero_not_mem_takeWhile bytes⟩

theorem ofBytes_stored (s : CString) (back : List UInt8) : ofBytes (s.stored ++ back) = s := by
  have hall : ∀ b ∈ s.bytes, (b != 0) = true := fun b hb => bne_iff_ne.mpr fun h0 => s.noNull (h0 ▸ hb)
  refine ext_bytes ?_
  rw [stored, List.append_assoc]
  show (s.bytes ++ ([0] ++ back)).takeWhile (· != 0) = s.bytes
  rw [List.takeWhile_append_of_pos hall]
  exact List.append_nil _

end CString

def wordBytes (w : ℕ) : List UInt8 :=
  [UInt8.ofNat w, UInt8.ofNat (w / 256), UInt8.ofNat (w / 65536), UInt8.ofNat (w / 16777216)]

def wordOf (bytes : List UInt8) : ℕ := bytes.foldr (fun b n => b.toNat + 256 * n) 0

@[simp]
theorem length_wordBytes (w : ℕ) : (wordBytes w).length = 4 := rfl

theorem wordOf_wordBytes (w : ℕ) : wordOf (wordBytes w) = w % 2 ^ 32 := by
  simp only [wordOf, wordBytes, List.foldr_cons, List.foldr_nil, UInt8.toNat_ofNat']
  omega

abbrev ByteMemory := ℤ → UInt8

namespace ByteMemory
variable (m : ByteMemory) (a : ℤ)

def store (bytes : List UInt8) : ByteMemory := fun x => if a ≤ x then (bytes[(x - a).toNat]?).getD (m x) else m x

def bytesAt (n : ℕ) : List UInt8 := (List.range n).map fun i : ℕ => m (a + i)

def wordAt : ℕ := wordOf (m.bytesAt a 4)

theorem store_nil : m.store a [] = m := funext fun _ => ite_self _

theorem store_of_lt {bytes : List UInt8} {x : ℤ} (h : x < a) : m.store a bytes x = m x := if_neg (not_le.mpr h)

theorem store_add (bytes : List UInt8) (i : ℕ) : m.store a bytes (a + i) = bytes[i]?.getD (m (a + i)) := by
  unfold store
  rw [if_pos (by omega), show (a + i - a).toNat = i by omega]

theorem store_eq_of_mem (m' : ByteMemory) {bytes : List UInt8} {a x : ℤ} (hle : a ≤ x) (hlt : x < a + bytes.length) :
    m.store a bytes x = m'.store a bytes x := by
  obtain ⟨i, rfl⟩ := Int.le.dest hle
  rw [store_add, store_add, List.getElem?_eq_getElem (by omega), Option.getD_some, Option.getD_some]

theorem store_store (front bytes : List UInt8) :
    (m.store (a + front.length) bytes).store a front = m.store a (front ++ bytes) := by
  funext x
  rcases lt_or_ge x a with hlt | hle
  · rw [store_of_lt _ _ hlt, store_of_lt _ _ hlt, store_of_lt _ _ (by omega)]
  · obtain ⟨i, rfl⟩ := Int.le.dest hle
    rw [store_add, store_add]
    rcases lt_or_ge i front.length with hi | hi
    · rw [List.getElem?_append_left hi, List.getElem?_eq_getElem hi]
      rfl
    · obtain ⟨j, rfl⟩ := Nat.exists_eq_add_of_le hi
      rw [List.getElem?_eq_none hi, List.getElem?_append_right hi, Nat.add_sub_cancel_left]
      have hpos : a + ((front.length + j : ℕ) : ℤ) = a + front.length + j := by omega
      rw [Option.getD_none, hpos, store_add]

theorem bytesAt_store (front bytes back : List UInt8) :
    (m.store a (front ++ (bytes ++ back))).bytesAt (a + front.length) bytes.length = bytes := by
  refine List.ext_getElem (by simp [bytesAt]) fun i hi hi' => ?_
  have hpos : a + (front.length : ℤ) + i = a + ((front.length + i : ℕ) : ℤ) := by omega
  simp only [bytesAt, List.getElem_map, List.getElem_range]
  rw [hpos, store_add, List.getElem?_append_right (Nat.le_add_right ..), Nat.add_sub_cancel_left,
    List.getElem?_append_left hi', List.getElem?_eq_getElem hi', Option.getD_some]

theorem bytesAt_congr {m m' : ByteMemory} {a : ℤ} {n : ℕ} (h : ∀ x, a ≤ x → x < a + n → m x = m' x) :
    m.bytesAt a n = m'.bytesAt a n := by
  refine List.map_congr_left fun i hi => ?_
  have := List.mem_range.mp hi
  exact h _ (by omega) (by omega)

theorem wordAt_store (front back : List UInt8) (w : ℕ) :
    (m.store a (front ++ (wordBytes w ++ back))).wordAt (a + front.length) = w % 2 ^ 32 := by
  have hbytes := bytesAt_store m a front (wordBytes w) back
  rw [wordAt, ← length_wordBytes w, hbytes, wordOf_wordBytes]

theorem wordAt_congr {m m' : ByteMemory} {a : ℤ} (h : ∀ x, a ≤ x → x < a + 4 → m x = m' x) :
    m.wordAt a = m'.wordAt a :=
  congrArg wordOf (bytesAt_congr h)

end ByteMemory
end Cs162.Lib
