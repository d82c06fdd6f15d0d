import Mathlib.Data.List.Sort
import Cs162.Kvstore.Message

namespace Cs162.Kvstore

def hashTo64bit (string : JString) : ℤ :=
  (string.foldl (fun h ch => 31 * h + ch.toBitVec.zeroExtend 64) (1125899906842597 : BitVec 64)).toInt

def longToString (n : ℤ) : JString := (toString n).toList.map fun ch => UInt16.ofNat ch.toNat

def findFirstReplica (slaves : List ℤ) (key : JString) : Option ℤ :=
  (slaves.find? fun id => hashTo64bit key ≤ id).or slaves.head?

def findSuccessor (slaves : List ℤ) (firstReplica : ℤ) : Option ℤ :=
  (slaves.find? fun id => firstReplica < id).or slaves.head?

theorem mem_of_findFirstReplica {slaves : List ℤ} {key : JString} {id : ℤ}
    (h : findFirstReplica slaves key = some id) : id ∈ slaves := by
  rcases Option.or_eq_some_iff.mp h with h | ⟨-, h⟩
  · exact List.mem_of_find?_eq_some h
  · exact List.mem_of_mem_head? h

theorem findSuccessor_ne {slaves : List ℤ} (hs : slaves.Pairwise (· < ·)) (hlen : 2 ≤ slaves.length)
    {first id : ℤ} (h : findSuccessor slaves first = some id) : id ≠ first := by
  rcases Option.or_eq_some_iff.mp h with h | ⟨hnone, h⟩
  · have hlt : first < id := by simpa using List.find?_some h
    exact hlt.ne'
  · -- No slave lies above `first`, but the head lies below the second slave.
    obtain ⟨a, b, rest, rfl⟩ : ∃ a b rest, slaves = a :: b :: rest := by
      match slaves, hlen with
      | a :: b :: rest, _ => exact ⟨a, b, rest, rfl⟩
    have hab : a < b := (List.pairwise_cons.mp hs).1 b (by simp)
    have hb : ¬ first < b := by simpa using List.find?_eq_none.mp hnone b (by simp)
    cases h
    intro heq
    exact hb (heq ▸ hab)

theorem findSuccessor_isSome {slaves : List ℤ} (hne : slaves ≠ []) (first : ℤ) :
    (findSuccessor slaves first).isSome := by
  obtain ⟨a, rest, rfl⟩ := List.exists_cons_of_ne_nil hne
  unfold findSuccessor
  cases List.find? (fun id => first < id) (a :: rest) <;> rfl

end Cs162.Kvstore
