import Mathlib.Data.Vector.Basic

namespace Cs162.Lib
variable {α : Type*} {m n k ofs : ℕ}

def slice (v : List.Vector α m) (ofs n : ℕ) (h : ofs + n ≤ m) : List.Vector α n :=
  ⟨(v.toList.drop ofs).take n, by simp; omega⟩

theorem toList_slice (v : List.Vector α m) (h : ofs + n ≤ m) :
    (slice v ofs n h).toList = (v.toList.drop ofs).take n := rfl

theorem drop_toList (v : List.Vector α m) (h : m ≤ k) : v.toList.drop k = [] :=
  List.drop_eq_nil_of_le (by simpa using h)

def fill (n : ℕ) (a : α) (l : List α) : List.Vector α n := ⟨(l ++ List.replicate n a).take n, by simp⟩

theorem toList_fill {l : List α} (a : α) (h : l.length ≤ n) :
    (fill n a l).toList = l ++ List.replicate (n - l.length) a := by
  change (l ++ List.replicate n a).take n = _
  rw [List.take_append, List.take_of_length_le h, List.take_replicate, Nat.min_eq_left (Nat.sub_le ..)]

end Cs162.Lib
