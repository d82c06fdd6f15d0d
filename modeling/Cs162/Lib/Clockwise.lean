import Mathlib.Data.List.Sort
import Mathlib.Algebra.Order.Group.Int

namespace Cs162.Lib
variable {N lo a x y : ℤ}

def clockwise (N a b : ℤ) : ℤ := (b - a) % N

def InWindow (N lo x : ℤ) : Prop := lo ≤ x ∧ x < lo + N

theorem clockwise_of_le (ha : InWindow N lo a) (hx : InWindow N lo x) (h : a ≤ x) :
    clockwise N a x = x - a :=
  Int.emod_eq_of_lt (by omega) (by unfold InWindow at ha hx; omega)

theorem clockwise_of_lt (ha : InWindow N lo a) (hx : InWindow N lo x) (h : x < a) :
    clockwise N a x = x - a + N := by
  unfold InWindow at ha hx
  rw [clockwise, ← Int.add_emod_right]
  exact Int.emod_eq_of_lt (by omega) (by omega)

theorem clockwise_lt_of_lt (ha : InWindow N lo a) (hx : InWindow N lo x) (hy : InWindow N lo y)
    (hxy : x < y) (hside : a ≤ x ∨ y < a) : clockwise N a x < clockwise N a y := by
  rcases hside with hx' | hy'
  · rw [clockwise_of_le ha hx hx', clockwise_of_le ha hy (hx'.trans hxy.le)]
    omega
  · rw [clockwise_of_lt ha hx (hxy.trans hy'), clockwise_of_lt ha hy hy']
    omega

theorem clockwise_lt_of_wrap (ha : InWindow N lo a) (hx : InWindow N lo x) (hy : InWindow N lo y)
    (hx' : a ≤ x) (hy' : y < a) : clockwise N a x < clockwise N a y := by
  rw [clockwise_of_le ha hx hx', clockwise_of_lt ha hy hy']
  unfold InWindow at hx hy
  omega

section Ascending
variable {α : Type*} {pos : α → ℤ} {l : List α} {u v : α}

def firstOrHead (p : α → Bool) (l : List α) : Option α := (l.find? p).or l.head?

theorem firstOrHead_isSome (p : α → Bool) (hl : l ≠ []) : ∃ u, firstOrHead p l = some u := by
  obtain ⟨w, rest, rfl⟩ := List.exists_cons_of_ne_nil hl
  unfold firstOrHead
  cases List.find? p (w :: rest) with
  | none => exact ⟨w, rfl⟩
  | some u => exact ⟨u, rfl⟩

theorem mem_of_firstOrHead {p : α → Bool} (h : firstOrHead p l = some u) : u ∈ l := by
  rcases Option.or_eq_some_iff.mp h with h | ⟨-, h⟩
  · exact List.mem_of_find?_eq_some h
  · exact List.mem_of_mem_head? h

theorem pos_le_of_head (hs : l.Pairwise fun u v => pos u < pos v) (hu : l.head? = some u) (hv : v ∈ l) :
    pos u ≤ pos v := by
  obtain ⟨rest, rfl⟩ : ∃ rest, l = u :: rest := ⟨_, List.eq_cons_of_mem_head? hu⟩
  rcases List.mem_cons.mp hv with rfl | hv
  · exact le_rfl
  · exact ((List.pairwise_cons.mp hs).1 v hv).le

theorem firstOrHead_spec (hs : l.Pairwise fun u v => pos u < pos v) {p : α → Bool}
    (h : firstOrHead p l = some u) :
    (p u ∧ ∀ v ∈ l, p v → pos u ≤ pos v) ∨ ((∀ v ∈ l, ¬ p v) ∧ ∀ v ∈ l, pos u ≤ pos v) := by
  rcases Option.or_eq_some_iff.mp h with h | ⟨hnone, h⟩
  · refine .inl ⟨List.find?_some h, fun v hv hp => ?_⟩
    rw [← List.head?_filter] at h
    exact pos_le_of_head (hs.filter p) h (List.mem_filter.mpr ⟨hv, hp⟩)
  · exact .inr ⟨List.find?_eq_none.mp hnone, fun v hv => pos_le_of_head hs h hv⟩

variable (pos)
variable (hs : l.Pairwise fun u v => pos u < pos v) (hl : ∀ v ∈ l, InWindow N lo (pos v)) (ha : InWindow N lo a)
include hs hl ha

theorem clockwise_lt_of_firstOrHead (h : firstOrHead (fun v => decide (a ≤ pos v)) l = some u)
    (hv : v ∈ l) (hne : pos v ≠ pos u) : clockwise N a (pos u) < clockwise N a (pos v) := by
  have hu := hl u (mem_of_firstOrHead h)
  rcases firstOrHead_spec hs h with ⟨hfrom, hleast⟩ | ⟨hbelow, hleast⟩
  · have hau : a ≤ pos u := of_decide_eq_true hfrom
    rcases lt_or_ge (pos v) a with hva | hva
    · exact clockwise_lt_of_wrap ha hu (hl v hv) hau hva
    · have huv := hleast v hv (decide_eq_true hva)
      exact clockwise_lt_of_lt ha hu (hl v hv) (lt_of_le_of_ne huv hne.symm) (.inl hau)
  · have hva : pos v < a := by simpa using hbelow v hv
    exact clockwise_lt_of_lt ha hu (hl v hv) (lt_of_le_of_ne (hleast v hv) hne.symm) (.inr hva)

theorem clockwise_lt_of_firstOrHead_after (h : firstOrHead (fun v => decide (a < pos v)) l = some u)
    (hv : v ∈ l) (hva : pos v ≠ a) :
    pos u ≠ a ∧ (pos v ≠ pos u → clockwise N a (pos u) < clockwise N a (pos v)) := by
  have hu := hl u (mem_of_firstOrHead h)
  rcases firstOrHead_spec hs h with ⟨hafter, hleast⟩ | ⟨hupto, hleast⟩
  · have hau : a < pos u := of_decide_eq_true hafter
    refine ⟨hau.ne', fun hne => ?_⟩
    rcases lt_or_gt_of_ne hva with hlt | hgt
    · exact clockwise_lt_of_wrap ha hu (hl v hv) hau.le hlt
    · have huv := hleast v hv (decide_eq_true hgt)
      exact clockwise_lt_of_lt ha hu (hl v hv) (lt_of_le_of_ne huv hne.symm) (.inl hau.le)
  · have hle : pos v ≤ a := by simpa using hupto v hv
    have hlt : pos v < a := lt_of_le_of_ne hle hva
    refine ⟨((hleast v hv).trans_lt hlt).ne, fun hne => ?_⟩
    exact clockwise_lt_of_lt ha hu (hl v hv) (lt_of_le_of_ne (hleast v hv) hne.symm) (.inr hlt)

end Ascending

end Cs162.Lib
