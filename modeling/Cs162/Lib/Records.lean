import Mathlib.Algebra.Order.Group.Nat

namespace Cs162.Lib
variable {α : Type*} {file bytes : List α} {size ofs i k : ℕ}

def readAt (file : List α) (ofs size : ℕ) : List α := (file.drop ofs).take size

def writeAt (a : α) (file : List α) (ofs : ℕ) (bytes : List α) : List α :=
  (file ++ List.replicate (ofs - file.length) a).take ofs ++ (bytes ++ file.drop (ofs + bytes.length))

def records (size : ℕ) (file : List α) : List (List α) :=
  (List.range (file.length / size)).map fun i => readAt file (size * i) size

theorem length_readAt : (readAt file ofs size).length = min size (file.length - ofs) := by simp [readAt]

theorem getElem?_readAt (hk : k < size) : (readAt file ofs size)[k]? = file[ofs + k]? := by
  rw [readAt, List.getElem?_take_of_lt hk, List.getElem?_drop]

theorem length_records : (records size file).length = file.length / size := by simp [records]

theorem getElem?_records (hi : i < file.length / size) : (records size file)[i]? = some (readAt file (size * i) size) := by
  rw [records, List.getElem?_map, List.getElem?_range hi]
  rfl

theorem mul_succ_le_of_lt_div (hi : i < file.length / size) : size * i + size ≤ file.length := by
  have h := Nat.div_mul_le_self file.length size
  calc size * i + size = (i + 1) * size := by rw [Nat.add_mul, Nat.mul_comm, Nat.one_mul]
    _ ≤ file.length / size * size := Nat.mul_le_mul_right size hi
    _ ≤ file.length := h

theorem length_readAt_of_lt (hi : i < file.length / size) : (readAt file (size * i) size).length = size := by
  have := mul_succ_le_of_lt_div hi
  rw [length_readAt]
  omega

theorem length_readAt_ne (hsize : 0 < size) (hi : file.length / size ≤ i) : (readAt file (size * i) size).length ≠ size := by
  have h := Nat.lt_mul_div_succ file.length hsize
  have hmul : size * (file.length / size) ≤ size * i := Nat.mul_le_mul_left size hi
  rw [Nat.mul_add, Nat.mul_one] at h
  rw [length_readAt]
  omega

theorem getElem?_writeAt (a : α) (hofs : ofs ≤ file.length) (k : ℕ) :
    (writeAt a file ofs bytes)[k]? =
      if k < ofs then file[k]? else if k < ofs + bytes.length then bytes[k - ofs]? else file[k]? := by
  have hlen : (file.take ofs).length = ofs := List.length_take_of_le hofs
  rw [writeAt, Nat.sub_eq_zero_of_le hofs, List.replicate_zero, List.append_nil]
  split_ifs with hk hk'
  · rw [List.getElem?_append_left (by omega), List.getElem?_take_of_lt hk]
  · rw [List.getElem?_append_right (by omega), hlen, List.getElem?_append_left (by omega)]
  · rw [List.getElem?_append_right (by omega), hlen, List.getElem?_append_right (by omega), List.getElem?_drop]
    congr 1
    omega

theorem length_writeAt (a : α) (hofs : ofs ≤ file.length) :
    (writeAt a file ofs bytes).length = max file.length (ofs + bytes.length) := by
  simp only [writeAt, List.length_append, List.length_take, List.length_replicate, List.length_drop]
  omega

theorem readAt_writeAt_append (a : α) (hofs : ofs ≤ file.length) (hle : bytes.length ≤ size) :
    ∃ back, readAt (writeAt a file ofs bytes) ofs size = bytes ++ back := by
  have hlen : (file.take ofs).length = ofs := List.length_take_of_le hofs
  refine ⟨(file.drop (ofs + bytes.length)).take (size - bytes.length), ?_⟩
  rw [readAt, writeAt, Nat.sub_eq_zero_of_le hofs, List.replicate_zero, List.append_nil,
    List.drop_append_of_le_length hlen.ge, List.drop_eq_nil_of_le hlen.le, List.nil_append, List.take_append,
    List.take_of_length_le hle]

theorem readAt_writeAt_self (a : α) (hofs : ofs ≤ file.length) :
    readAt (writeAt a file ofs bytes) ofs bytes.length = bytes := by
  obtain ⟨back, hback⟩ := readAt_writeAt_append a hofs (le_refl bytes.length)
  have hlen : (bytes ++ back).length ≤ bytes.length := hback ▸ List.length_take_le ..
  rw [List.length_append] at hlen
  rw [hback, List.eq_nil_of_length_eq_zero (by omega : back.length = 0), List.append_nil]

theorem readAt_writeAt_of_disjoint (a : α) (hofs : ofs ≤ file.length) {ofs' : ℕ}
    (h : ofs' + size ≤ ofs ∨ ofs + bytes.length ≤ ofs') :
    readAt (writeAt a file ofs bytes) ofs' size = readAt file ofs' size := by
  refine List.ext_getElem? fun k => ?_
  by_cases hk : k < size
  · rw [getElem?_readAt hk, getElem?_readAt hk, getElem?_writeAt a hofs]
    rcases h with h | h
    · rw [if_pos (by omega)]
    · rw [if_neg (by omega), if_neg (by omega)]
  · rw [List.getElem?_eq_none, List.getElem?_eq_none]
    · rw [length_readAt]
      omega
    · rw [length_readAt]
      omega

theorem readAt_writeAt_record (a : α) (hbytes : bytes.length = size) (hofs : size * i ≤ file.length) {j : ℕ}
    (hj : j ≠ i) : readAt (writeAt a file (size * i) bytes) (size * j) size = readAt file (size * j) size := by
  refine readAt_writeAt_of_disjoint a hofs ?_
  rw [hbytes]
  rcases Nat.lt_or_gt_of_ne hj with h | h
  · exact .inl (Nat.mul_succ size j ▸ Nat.mul_le_mul_left size h)
  · exact .inr (Nat.mul_succ size i ▸ Nat.mul_le_mul_left size h)

theorem records_writeAt (a : α) (hbytes : bytes.length = size) (hi : i < file.length / size) :
    records size (writeAt a file (size * i) bytes) = (records size file).set i bytes := by
  have hle := mul_succ_le_of_lt_div hi
  have hofs : size * i ≤ file.length := (Nat.le_add_right ..).trans hle
  have hlen : (writeAt a file (size * i) bytes).length = file.length := by
    rw [length_writeAt a hofs, hbytes, Nat.max_eq_left hle]
  refine List.ext_getElem? fun j => ?_
  rw [List.getElem?_set, length_records]
  by_cases hj : j < file.length / size
  · rw [getElem?_records (hlen ▸ hj)]
    split_ifs with hij
    · subst hij
      exact congrArg some (hbytes ▸ readAt_writeAt_self a (hbytes.symm ▸ hofs))
    · rw [readAt_writeAt_record a hbytes hofs (Ne.symm hij), getElem?_records hj]
  · have hij : i ≠ j := fun heq => hj (heq ▸ hi)
    rw [if_neg hij, List.getElem?_eq_none, List.getElem?_eq_none]
    · rw [length_records]
      exact not_lt.mp hj
    · rw [length_records, hlen]
      exact not_lt.mp hj

theorem records_writeAt_of_eq_append (a : α) (hbytes : bytes.length = size) {pre post : List (List α)} {r : List α}
    (h : records size file = pre ++ r :: post) :
    records size (writeAt a file (size * pre.length) bytes) = pre ++ bytes :: post := by
  have hlt : pre.length < file.length / size := by
    rw [← length_records, h, List.length_append, List.length_cons]
    omega
  rw [records_writeAt a hbytes hlt, h, List.set_append_right _ _ (le_refl _), Nat.sub_self, List.set_cons_zero]

theorem records_writeAt_end(a : α) (hsize : 0 < size) (hbytes : bytes.length = size) :
    records size (writeAt a file (size * (file.length / size)) bytes) = records size file ++ [bytes] := by
  have hofs : size * (file.length / size) ≤ file.length := Nat.mul_div_le ..
  have hlt := Nat.lt_mul_div_succ file.length hsize
  have hlen : (writeAt a file (size * (file.length / size)) bytes).length / size = file.length / size + 1 := by
    rw [Nat.mul_add, Nat.mul_one] at hlt
    rw [length_writeAt a hofs, hbytes, Nat.max_eq_right hlt.le, Nat.mul_add_div hsize, Nat.div_self hsize]
  refine List.ext_getElem? fun j => ?_
  rcases Nat.lt_trichotomy j (file.length / size) with hj | rfl | hj
  · rw [getElem?_records (by omega), readAt_writeAt_record a hbytes hofs hj.ne, List.getElem?_append_left, getElem?_records hj]
    rwa [length_records]
  · rw [getElem?_records (by omega), List.getElem?_append_right length_records.le, length_records, Nat.sub_self]
    exact congrArg some (hbytes ▸ readAt_writeAt_self a (hbytes.symm ▸ hofs))
  · rw [List.getElem?_eq_none, List.getElem?_eq_none]
    · rw [List.length_append, length_records]
      exact hj
    · rw [length_records, hlen]
      exact hj

section Scan
variable (stop : List α → Bool) (size : ℕ) (file : List α)

def scanRounds : ℕ → ℕ → List α → Bool × ℕ × List α
  | 0, ofs, e => (false, ofs, e)
  | rounds + 1, ofs, e =>
    let got := readAt file ofs size
    let e := got ++ e.drop got.length
    if got.length = size then
      if stop e then (true, ofs, e) else scanRounds rounds (ofs + size) e
    else (false, ofs, e)

def scan (ofs : ℕ) (e : List α) : Bool × ℕ × List α := scanRounds stop size file (file.length / size + 1) ofs e

end Scan

variable {stop : List α → Bool} {e : List α}

def Scanned (stop : List α → Bool) (size i : ℕ) (rest : List (List α)) (found : Bool × ℕ × List α) : Prop :=
  (∃ pre r post, rest = pre ++ r :: post ∧ (∀ x ∈ pre, stop x = false) ∧ stop r = true ∧
    found = (true, size * (i + pre.length), r)) ∨
  (∀ x ∈ rest, stop x = false) ∧ ∃ e, e.length = size ∧ found = (false, size * (i + rest.length), e)

theorem Scanned.cons {rest : List (List α)} {found : Bool × ℕ × List α} (h : Scanned stop size (i + 1) rest found)
    (r : List α) (hr : stop r = false) : Scanned stop size i (r :: rest) found := by
  have hcount (l : List (List α)) : size * (i + 1 + l.length) = size * (i + (r :: l).length) := by
    rw [List.length_cons]
    congr 1
    omega
  rcases h with ⟨pre, x, post, rfl, hpre, hx, rfl⟩ | ⟨hrest, e, he, rfl⟩
  · exact .inl ⟨r :: pre, x, post, rfl, List.forall_mem_cons.mpr ⟨hr, hpre⟩, hx, by rw [hcount]⟩
  · exact .inr ⟨List.forall_mem_cons.mpr ⟨hr, hrest⟩, e, he, by rw [hcount]⟩

theorem drop_records (hi : i < file.length / size) :
    (records size file).drop i = readAt file (size * i) size :: (records size file).drop (i + 1) := by
  have hlt : i < (records size file).length := length_records.symm ▸ hi
  have hget := getElem?_records hi
  rw [List.getElem?_eq_getElem hlt] at hget
  rw [List.drop_eq_getElem_cons hlt, Option.some.inj hget]

theorem scanRounds_scanned (hsize : 0 < size) {rounds : ℕ} (hrounds : file.length / size < i + rounds)
    (he : e.length = size) :
    Scanned stop size i ((records size file).drop i) (scanRounds stop size file rounds (size * i) e) := by
  induction rounds generalizing i e with
  | zero =>
    have hnil : (records size file).drop i = [] := by
      rw [List.drop_eq_nil_iff, length_records]
      omega
    rw [hnil]
    exact .inr ⟨fun x hx => absurd hx List.not_mem_nil, e, he, rfl⟩
  | succ rounds ih =>
    rw [scanRounds]
    by_cases hi : i < file.length / size
    · have hgot := length_readAt_of_lt hi
      have hbuffer : e.drop size = [] := List.drop_eq_nil_of_le he.le
      rw [drop_records hi]
      simp only [hgot, hbuffer, List.append_nil, if_true]
      split_ifs with hstop
      · exact .inl ⟨[], _, _, rfl, fun x hx => absurd hx List.not_mem_nil, hstop, rfl⟩
      · exact (ih (by omega) hgot).cons _ (Bool.not_eq_true _ ▸ hstop)
    · have hshort := length_readAt_ne hsize (not_lt.mp hi)
      have hnil : (records size file).drop i = [] := by
        rw [List.drop_eq_nil_iff, length_records]
        exact not_lt.mp hi
      have hbuffer : (readAt file (size * i) size ++ e.drop (readAt file (size * i) size).length).length = size := by
        have hle : (readAt file (size * i) size).length ≤ size := List.length_take_le ..
        rw [List.length_append, List.length_drop]
        omega
      simp only [if_neg hshort]
      rw [hnil]
      exact .inr ⟨fun x hx => absurd hx List.not_mem_nil, _, hbuffer, rfl⟩

theorem scan_scanned (stop : List α → Bool) (file : List α) (hsize : 0 < size) (i : ℕ) (he : e.length = size) :
    Scanned stop size i ((records size file).drop i) (scan stop size file (size * i) e) :=
  scanRounds_scanned hsize (by omega) he

theorem scan_zero_scanned (stop : List α → Bool) (file : List α) (hsize : 0 < size) (he : e.length = size) :
    Scanned stop size 0 (records size file) (scan stop size file 0 e) := scan_scanned stop file hsize 0 he

end Cs162.Lib
