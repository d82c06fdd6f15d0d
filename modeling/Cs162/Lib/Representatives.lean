import Mathlib.Data.Finset.Card

namespace Cs162.Lib

structure Representatives {α : Type*} (r : Setoid α) where
  elems : Finset α
  unique : ∀ {a b}, a ∈ elems → b ∈ elems → r a b → a = b

namespace Representatives
variable {α : Type*} {r : Setoid α}

def empty : Representatives r := ⟨∅, fun h => absurd h (Finset.notMem_empty _)⟩

open Classical in
noncomputable def find (s : Representatives r) (a : α) : Option α :=
  if h : ∃ b ∈ s.elems, r b a then some h.choose else none

open Classical in
noncomputable def erase (s : Representatives r) (a : α) : Representatives r :=
  ⟨s.elems.filter (¬ r · a), fun hb hc => s.unique (Finset.mem_filter.mp hb).1 (Finset.mem_filter.mp hc).1⟩

theorem mem_erase {s : Representatives r} {a b : α} : b ∈ (s.erase a).elems ↔ b ∈ s.elems ∧ ¬ r b a := by
  simp [erase]

open Classical in
noncomputable def replace (s : Representatives r) (a : α) : Representatives r where
  elems := insert a (s.erase a).elems
  unique {b c} hb hc h := by
    simp only [Finset.mem_insert, mem_erase] at hb hc
    obtain rfl | ⟨hb, hba⟩ := hb <;> obtain rfl | ⟨hc, hca⟩ := hc
    · rfl
    · exact absurd (r.symm h) hca
    · exact absurd h hba
    · exact s.unique hb hc h

noncomputable def insert (s : Representatives r) (a : α) : Representatives r :=
  if s.find a = none then s.replace a else s

variable {s : Representatives r} {a b : α}

theorem mem_replace : b ∈ (s.replace a).elems ↔ b = a ∨ b ∈ s.elems ∧ ¬ r b a := by
  simp [replace, mem_erase]

theorem find_eq_some : s.find a = some b ↔ b ∈ s.elems ∧ r b a := by
  classical
  rw [find]
  split_ifs with h
  · obtain ⟨hmem, hr⟩ := h.choose_spec
    rw [Option.some.injEq]
    constructor
    · rintro rfl
      exact ⟨hmem, hr⟩
    · rintro ⟨hb, hba⟩
      exact s.unique hmem hb (r.trans hr (r.symm hba))
  · exact iff_of_false nofun fun hb => h ⟨b, hb⟩

theorem find_eq_none : s.find a = none ↔ ∀ b ∈ s.elems, ¬ r b a := by
  rw [Option.eq_none_iff_forall_ne_some]
  exact ⟨fun h b hb hr => h b (find_eq_some.mpr ⟨hb, hr⟩), fun h b hb =>
    h b (find_eq_some.mp hb).1 (find_eq_some.mp hb).2⟩

theorem find_erase : (s.erase a).find a = none := find_eq_none.mpr fun _ hb => (mem_erase.mp hb).2

theorem replace_erase : ((s.erase a).replace a).elems = (s.replace a).elems := by
  ext b
  simp only [mem_replace, mem_erase]
  tauto

theorem erase_of_find_eq_none(h : s.find a = none) : (s.erase a).elems = s.elems := by
  ext b
  rw [mem_erase]
  exact and_iff_left_of_imp (find_eq_none.mp h b)

theorem mem_erase_of_find_eq_some {c : α} (h : s.find a = some b) : c ∈ (s.erase a).elems ↔ c ≠ b ∧ c ∈ s.elems := by
  obtain ⟨hb, hba⟩ := find_eq_some.mp h
  rw [mem_erase, and_comm]
  refine and_congr_left fun hc => not_congr ⟨fun hca => ?_, ?_⟩
  · exact s.unique hc hb (r.trans hca (r.symm hba))
  · rintro rfl
    exact hba

theorem card_erase (h : s.find a = some b) : (s.erase a).elems.card + 1 = s.elems.card := by
  classical
  have herase : (s.erase a).elems = s.elems.erase b := by
    ext c
    rw [mem_erase_of_find_eq_some h, Finset.mem_erase]
  rw [herase]
  exact Finset.card_erase_add_one (find_eq_some.mp h).1

theorem card_replace : (s.replace a).elems.card = (s.erase a).elems.card + 1 := by
  classical
  rw [replace]
  exact Finset.card_insert_of_notMem fun h => (mem_erase.mp h).2 (r.refl a)

end Representatives
end Cs162.Lib
