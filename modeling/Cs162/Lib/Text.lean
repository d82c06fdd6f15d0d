import Mathlib.Data.List.DropRight
import Mathlib.Data.Nat.Digits.Lemmas

namespace Cs162.Lib.Text
variable {α : Type*}

theorem intercalate_replicate_nil (sep : α) (part : List α) (n : ℕ) :
    [sep].intercalate (part :: List.replicate n []) = part ++ List.replicate n sep := by
  induction n generalizing part with
  | zero => simp
  | succ n ih => simp [List.replicate_succ, List.intercalate_cons_cons, ih]

theorem rdropWhile_isEmpty_append {l : List (List α)} {part : List α} (h : part ≠ []) (n : ℕ) :
    (l ++ part :: List.replicate n []).rdropWhile List.isEmpty = l ++ [part] := by
  induction n with
  | zero => exact List.rdropWhile_concat_neg _ _ _ (by simpa using h)
  | succ n ih =>
    rw [List.replicate_succ', ← List.cons_append, ← List.append_assoc]
    exact (List.rdropWhile_concat_pos _ _ _ rfl).trans ih

section Split
variable [DecidableEq α] {sep : α}

def split (sep : α) (s : List α) : List (List α) :=
  if sep ∈ s then (s.splitOn sep).rdropWhile List.isEmpty else [s]

theorem notMem_of_mem_splitOn {s part : List α} (h : part ∈ s.splitOn sep) : sep ∉ part := by
  induction s generalizing part with
  | nil =>
    rw [List.splitOn_nil, List.mem_singleton] at h
    rw [h]
    exact List.not_mem_nil
  | cons c s ih =>
    rw [List.splitOn, List.splitOnP_cons_eq_if_modifyHead] at h
    split at h
    · rcases List.mem_cons.mp h with rfl | h
      · exact List.not_mem_nil
      · exact ih h
    · rename_i hc
      obtain ⟨first, rest, hs⟩ := List.exists_cons_of_ne_nil (List.splitOnP_ne_nil (· == sep) s)
      rw [hs, List.modifyHead_cons] at h
      have hparts {p : List α} (hp : p ∈ first :: rest) : sep ∉ p := ih (hs.symm ▸ hp :)
      rcases List.mem_cons.mp h with rfl | h
      · have hne : sep ≠ c := fun e => hc (by simp [e])
        simpa [hne] using hparts List.mem_cons_self
      · exact hparts (List.mem_cons_of_mem _ h)

theorem split_eq_pair_iff {s a b : List α} :
    split sep s = [a, b] ↔
      sep ∉ a ∧ sep ∉ b ∧ b ≠ [] ∧ ∃ n, s = a ++ sep :: (b ++ List.replicate n sep) := by
  constructor
  · intro h
    unfold split at h
    split at h
    · have hsplit := (List.rdropWhile_append_rtakeWhile (l := s.splitOn sep) (p := List.isEmpty)).symm
      have hlast := List.rdropWhile_last_not List.isEmpty (s.splitOn sep) (by simp [h])
      obtain ⟨n, hn⟩ : ∃ n, (s.splitOn sep).rtakeWhile List.isEmpty = List.replicate n [] :=
        ⟨_, List.eq_replicate_of_mem fun p hp => List.isEmpty_iff.mp (List.mem_rtakeWhile_imp hp)⟩
      rw [h, hn] at hsplit
      have hparts {p : List α} (hp : p ∈ [a, b]) : sep ∉ p :=
        notMem_of_mem_splitOn (hsplit ▸ List.mem_append_left _ hp)
      refine ⟨hparts (by simp), hparts (by simp), by simpa [h] using hlast, n, ?_⟩
      have hs : [sep].intercalate (s.splitOn sep) = s := List.intercalate_splitOn sep
      rw [← hs, hsplit]
      simp [List.intercalate_cons_cons, intercalate_replicate_nil]
    · cases h
  · rintro ⟨ha, hb, hne, n, rfl⟩
    have hs : a ++ sep :: (b ++ List.replicate n sep) =
        [sep].intercalate ([a] ++ b :: List.replicate n []) := by
      simp [List.intercalate_cons_cons, intercalate_replicate_nil]
    have hparts : ∀ p ∈ [a] ++ b :: List.replicate n [], sep ∉ p := by
      intro p hp
      rcases List.mem_append.mp hp with hp | hp
      · rwa [List.mem_singleton.mp hp]
      · rcases List.mem_cons.mp hp with rfl | hp
        · exact hb
        · rw [List.eq_of_mem_replicate hp]
          exact List.not_mem_nil
    rw [split, if_pos (by simp), hs, List.splitOn_intercalate sep hparts (by simp)]
    exact rdropWhile_isEmpty_append hne n

end Split

section Trim
variable {blank : α → Bool}

def trim (blank : α → Bool) (s : List α) : List α := (s.dropWhile blank).rdropWhile blank

theorem trim_eq_self_of_ends {s : List α} (hfront : ∀ c, s.head? = some c → blank c = false)
    (hback : ∀ c, s.getLast? = some c → blank c = false) : trim blank s = s := by
  have hdrop : s.dropWhile blank = s := by
    cases s with
    | nil => rfl
    | cons c s => rw [List.dropWhile_cons, if_neg (by simp [hfront c rfl])]
  rw [trim, hdrop]
  exact List.rdropWhile_eq_self_iff.mpr fun hl => by simp [hback _ (List.getLast?_eq_getLast_of_ne_nil hl)]

theorem trim_eq_self {s : List α} (h : ∀ c ∈ s, blank c = false) : trim blank s = s :=
  trim_eq_self_of_ends (fun _ hc => h _ (List.mem_of_mem_head? hc)) fun _ hc => h _ (List.mem_of_mem_getLast? hc)

theorem mem_of_mem_trim {s : List α} {c : α} (h : c ∈ trim blank s) : c ∈ s :=
  (List.dropWhile_sublist _).mem ((List.rdropWhile_prefix _ _).mem h)

@[simp] theorem trim_trim (s : List α) : trim blank (trim blank s) = trim blank s := by
  have hfront : (trim blank s).dropWhile blank = trim blank s := by
    refine List.dropWhile_eq_self_iff.mpr fun hl => ?_
    -- The first character of a front part is the first character left by the first pass.
    have hpre : trim blank s <+: s.dropWhile blank := List.rdropWhile_prefix _ _
    have hl' : 0 < (s.dropWhile blank).length := hl.trans_le hpre.length_le
    rw [hpre.getElem hl]
    exact List.dropWhile_get_zero_not _ _ hl'
  rw [trim, hfront]
  exact List.rdropWhile_idempotent _ _

end Trim

section Numeral
variable (digit : α → Option ℕ)

def numeral : List α → Option ℕ
  | [] => none
  | s => s.foldlM (fun n c => (digit c).map (10 * n + ·)) 0

def signedNumeral [DecidableEq α] (minus plus : α) : List α → Option ℤ
  | [] => none
  | c :: s =>
    if c = minus then (numeral digit s).map fun n : ℕ => -(n : ℤ)
    else if c = plus then (numeral digit s).map fun n : ℕ => (n : ℤ)
    else (numeral digit (c :: s)).map fun n : ℕ => (n : ℤ)

variable {digit} {encode : Char → α} (hdigit : ∀ d < 10, digit (encode d.digitChar) = some d)
include hdigit

theorem numeral_toDigits (n : ℕ) : numeral digit ((Nat.toDigits 10 n).map encode) = some n := by
  have hfold : ((Nat.toDigits 10 n).map encode).foldlM (fun n c => (digit c).map (10 * n + ·)) 0 = some n := by
    induction n using Nat.strongRecOn with
    | ind n ih =>
      by_cases hn : n < 10
      · rw [Nat.toDigits_of_lt_base hn]
        simp [hdigit n hn]
      · -- The last digit is the remainder, the digits before it are those of the quotient.
        have hlast : n % 10 < 10 := Nat.mod_lt _ (by decide)
        have hsplit := Nat.toDigits_append_toDigits (b := 10) (n := n / 10) (by decide) (by omega) hlast
        rw [Nat.div_add_mod, Nat.toDigits_of_lt_base hlast] at hsplit
        rw [← hsplit, List.map_append, List.foldlM_append, ih (n / 10) (by omega)]
        simp [hdigit _ hlast, Nat.div_add_mod]
  obtain ⟨c, s, hs⟩ := List.exists_cons_of_ne_nil (Nat.toDigits_ne_nil (b := 10) (n := n))
  rw [hs] at hfold ⊢
  exact hfold

theorem signedNumeral_toString [DecidableEq α] {minus plus : α} (hminus : encode '-' = minus)
    (hm : digit minus = none) (hp : digit plus = none) (z : ℤ) :
    signedNumeral digit minus plus ((toString z).toList.map encode) = some z := by
  rw [Int.toString_eq_repr, Int.repr_eq_if]
  split
  · rename_i hz
    have hnum := numeral_toDigits hdigit z.toNat
    rw [Nat.toList_repr]
    match hs : (Nat.toDigits 10 z.toNat).map encode with
    | [] => simp [hs, numeral] at hnum
    | c :: s =>
      -- The first character has a value, so it is no sign.
      have hc : digit c ≠ none := by
        intro hc
        rw [hs] at hnum
        simp [numeral, hc] at hnum
      have hcm : c ≠ minus := fun e => hc (e ▸ hm)
      have hcp : c ≠ plus := fun e => hc (e ▸ hp)
      rw [signedNumeral, if_neg hcm, if_neg hcp, ← hs, hnum]
      simp [hz]
  · rename_i hz
    have hnum := numeral_toDigits hdigit (-z).toNat
    simp only [String.toList_append, Nat.toList_repr, List.map_append]
    change signedNumeral digit minus plus (encode '-' :: (Nat.toDigits 10 (-z).toNat).map encode) = _
    rw [signedNumeral, if_pos hminus, hnum, Option.map_some, Option.some.injEq]
    omega

end Numeral

end Cs162.Lib.Text
