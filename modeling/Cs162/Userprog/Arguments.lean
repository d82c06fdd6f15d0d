import Mathlib.Algebra.Group.Int.Defs
import Cs162.Lib.Bytes
import Cs162.Userprog.Syscall

namespace Cs162.Userprog
open Lib
open Syscall (pgSize physBase)

structure Stack where
  mem : ByteMemory
  top : ℤ

namespace Stack

def put (st : Stack) (bytes : List UInt8) : Stack :=
  ⟨st.mem.store (st.top - bytes.length) bytes, st.top - bytes.length⟩

def word (w : ℤ) : List UInt8 := wordBytes (w % 2 ^ 32).toNat

def pushAddress (esp : ℤ) (st : Stack) (address : ℤ) : Bool × Stack :=
  if esp - (st.top - 4) > pgSize then (false, st) else (true, st.put (word address))

def copyArguments (st : Stack) (argv : List CString) : Stack × List ℤ :=
  argv.foldr (fun s r => (r.1.put s.stored, (r.1.put s.stored).top :: r.2)) (st, [])

def pad (esp : ℤ) (st : Stack) : Stack := st.put (List.replicate (4 - (esp - st.top) % 4).toNat 0)

def pushAddresses (esp : ℤ) (st : Stack) (addresses : List ℤ) : Stack :=
  addresses.foldr (fun a st => (pushAddress esp st a).2) st

def argumentPassing (argv : List CString) (mem : ByteMemory) (esp : ℤ) : Bool × Stack :=
  let (st, argAddr) := copyArguments ⟨mem, esp⟩ argv
  let st := pad esp st
  let st := (pushAddress esp st 0).2
  let st := pushAddresses esp st argAddr
  let startArg := st.top
  let st := (pushAddress esp st startArg).2
  let st := (pushAddress esp st argv.length).2
  let st := (pushAddress esp st 0).2
  (true, st)

def grown (mem : ByteMemory) (esp : ℤ) (bytes : List UInt8) : Stack := Stack.put ⟨mem, esp⟩ bytes

theorem grown_top (mem : ByteMemory) (esp : ℤ) (bytes : List UInt8) :
    (grown mem esp bytes).top = esp - bytes.length := rfl

theorem put_grown (mem : ByteMemory) (esp : ℤ) (bytes front : List UInt8) :
    (grown mem esp bytes).put front = grown mem esp (front ++ bytes) := by
  have htop : esp - (bytes.length : ℤ) - front.length = esp - ((front ++ bytes).length : ℤ) := by
    rw [List.length_append]
    omega
  have hback : esp - ((front ++ bytes).length : ℤ) + front.length = esp - bytes.length := by omega
  simp only [grown, put, htop]
  rw [← hback, ByteMemory.store_store]

def pushBytes (bytes : List UInt8) (w : ℤ) : List UInt8 :=
  if bytes.length + 4 ≤ pgSize then word w ++ bytes else bytes

def pushAll (bytes : List UInt8) (ws : List ℤ) : List UInt8 := ws.foldr (fun w l => pushBytes l w) bytes

@[simp]
theorem length_word (w : ℤ) : (word w).length = 4 := rfl

theorem length_words (ws : List ℤ) : (ws.flatMap word).length = 4 * ws.length := by
  induction ws with
  | nil => rfl
  | cons w ws ih =>
    rw [List.flatMap_cons, List.length_append, length_word, ih, List.length_cons]
    omega

theorem pushAddress_grown (mem : ByteMemory) (esp : ℤ) (bytes : List UInt8) (w : ℤ) :
    (pushAddress esp (grown mem esp bytes) w).2 = grown mem esp (pushBytes bytes w) := by
  unfold pushAddress pushBytes
  rw [grown_top]
  split_ifs with hfull hroom
  · omega
  · rfl
  · exact put_grown ..
  · omega

theorem pushAddresses_grown (mem : ByteMemory) (esp : ℤ) (bytes : List UInt8) (ws : List ℤ) :
    pushAddresses esp (grown mem esp bytes) ws = grown mem esp (pushAll bytes ws) := by
  induction ws with
  | nil => rfl
  | cons w ws ih =>
    show (pushAddress esp (pushAddresses esp (grown mem esp bytes) ws) w).2 = _
    rw [ih, pushAddress_grown]
    rfl

def flat (argv : List CString) : List UInt8 := argv.flatMap CString.stored

def argAddresses (esp : ℤ) : List CString → List ℤ
  | [] => []
  | s :: argv => (esp - (flat (s :: argv)).length) :: argAddresses esp argv

theorem copyArguments_grown (mem : ByteMemory) (esp : ℤ) (argv : List CString) :
    copyArguments ⟨mem, esp⟩ argv = (grown mem esp (flat argv), argAddresses esp argv) := by
  induction argv with
  | nil =>
    have htop : esp - (([] : List UInt8).length : ℤ) = esp := Int.sub_zero esp
    show ((⟨mem, esp⟩ : Stack), ([] : List ℤ)) = (put ⟨mem, esp⟩ [], [])
    rw [put, ByteMemory.store_nil, htop]
  | cons s argv ih =>
    have hput := put_grown mem esp (flat argv) s.stored
    show ((copyArguments ⟨mem, esp⟩ argv).1.put s.stored,
      ((copyArguments ⟨mem, esp⟩ argv).1.put s.stored).top :: (copyArguments ⟨mem, esp⟩ argv).2) = _
    rw [ih, hput]
    rfl

def ground (argv : List CString) : List UInt8 := List.replicate (4 - (flat argv).length % 4) 0 ++ flat argv

theorem pad_grown (mem : ByteMemory) (esp : ℤ) (argv : List CString) :
    pad esp (grown mem esp (flat argv)) = grown mem esp (ground argv) := by
  have hcount : (4 - (esp - (grown mem esp (flat argv)).top) % 4).toNat = 4 - (flat argv).length % 4 := by
    show (4 - (esp - (esp - ((flat argv).length : ℤ))) % 4).toNat = _
    omega
  unfold pad
  rw [hcount, put_grown]
  rfl

def pointers (esp : ℤ) (argv : List CString) : List UInt8 :=
  pushAll (pushBytes (ground argv) 0) (argAddresses esp argv)

def built (esp : ℤ) (argv : List CString) : List UInt8 :=
  pushBytes (pushAll (pointers esp argv) [(argv.length : ℤ), esp - (pointers esp argv).length]) 0

theorem argumentPassing_eq (argv : List CString) (mem : ByteMemory) (esp : ℤ) :
    argumentPassing argv mem esp = (true, grown mem esp (built esp argv)) := by
  unfold argumentPassing
  rw [copyArguments_grown]
  dsimp only
  rw [pad_grown, pushAddress_grown, pushAddresses_grown, pushAddress_grown, pushAddress_grown, pushAddress_grown]
  rfl

theorem pushBytes_of_full {bytes : List UInt8} (h : pgSize < bytes.length + 4) (w : ℤ) : pushBytes bytes w = bytes :=
  if_neg (not_le.mpr h)

theorem pushAll_of_full {bytes : List UInt8} (h : pgSize < bytes.length + 4) (ws : List ℤ) :
    pushAll bytes ws = bytes := by
  induction ws with
  | nil => rfl
  | cons w ws ih =>
    show pushBytes (pushAll bytes ws) w = bytes
    rw [ih, pushBytes_of_full h]

theorem pushAll_of_room {bytes : List UInt8} {ws : List ℤ} (h : bytes.length + 4 * ws.length ≤ pgSize) :
    pushAll bytes ws = ws.flatMap word ++ bytes := by
  induction ws with
  | nil => rfl
  | cons w ws ih =>
    rw [List.length_cons] at h
    show pushBytes (pushAll bytes ws) w = _
    have hroom : (ws.flatMap word ++ bytes).length + 4 ≤ pgSize := by
      rw [List.length_append, length_words]
      omega
    rw [ih (by omega), pushBytes, if_pos hroom, List.flatMap_cons, List.append_assoc]

theorem length_pushAll {bytes : List UInt8} (hle : bytes.length ≤ pgSize) (hmod : bytes.length % 4 = 0)
    (ws : List ℤ) : (pushAll bytes ws).length = min pgSize (bytes.length + 4 * ws.length) := by
  induction ws with
  | nil => exact (Nat.min_eq_right hle).symm
  | cons w ws ih =>
    show (pushBytes (pushAll bytes ws) w).length = _
    unfold pushBytes
    split_ifs with hroom
    · rw [List.length_append, length_word, ih, List.length_cons]
      rw [ih] at hroom
      simp only [pgSize] at *
      omega
    · rw [ih] at hroom ⊢
      rw [List.length_cons]
      simp only [pgSize] at *
      omega

def Headed (bytes : List UInt8) : Prop := ∃ w back, bytes = word w ++ back ∧ w % 2 ^ 32 ≠ 0

theorem headed_pushAll {bytes : List UInt8} {ws : List ℤ} (hroom : bytes.length + 4 ≤ pgSize) (hne : ws ≠ [])
    (hws : ∀ w ∈ ws, w % 2 ^ 32 ≠ 0) : Headed (pushAll bytes ws) := by
  induction ws with
  | nil => exact absurd rfl hne
  | cons w ws ih =>
    have hw := hws w List.mem_cons_self
    show Headed (pushBytes (pushAll bytes ws) w)
    by_cases hnil : ws = []
    · subst hnil
      exact ⟨w, bytes, if_pos hroom, hw⟩
    · have hrest := ih hnil fun w' hw' => hws w' (List.mem_cons_of_mem w hw')
      unfold pushBytes
      split_ifs
      · exact ⟨w, _, rfl, hw⟩
      · exact hrest

def depth (argv : List CString) : ℕ := (flat argv).length + (4 - (flat argv).length % 4)

theorem length_ground (argv : List CString) : (ground argv).length = depth argv := by
  simp [ground, depth, Nat.add_comm]

theorem depth_mod (argv : List CString) : depth argv % 4 = 0 := by
  unfold depth
  omega

theorem flat_cons (s : CString) (argv : List CString) : flat (s :: argv) = s.bytes ++ 0 :: flat argv := by
  simp [flat, CString.stored]

theorem length_le_flat (argv : List CString) : argv.length ≤ (flat argv).length := by
  induction argv with
  | nil => exact le_refl 0
  | cons s argv ih =>
    rw [flat_cons, List.length_append, List.length_cons, List.length_cons]
    omega

theorem length_argAddresses (esp : ℤ) (argv : List CString) : (argAddresses esp argv).length = argv.length := by
  induction argv with
  | nil => rfl
  | cons s argv ih => simp [argAddresses, ih]

theorem mem_argAddresses {esp a : ℤ} {argv : List CString} (h : a ∈ argAddresses esp argv) :
    esp - (flat argv).length ≤ a ∧ a < esp := by
  induction argv with
  | nil => cases h
  | cons s argv ih =>
    have hlen : (flat (s :: argv)).length = s.bytes.length + ((flat argv).length + 1) := by
      rw [flat_cons, List.length_append, List.length_cons]
    rcases List.mem_cons.mp h with rfl | hmem
    · omega
    · have := ih hmem
      omega

end Stack
end Cs162.Userprog
