import Mathlib.Data.List.Nodup

namespace Cs162.Lib
open Function

structure Buckets (ι κ : Type*) where
  queue : κ → List ι
  entered : ι → ℕ
  pushes : ℕ

namespace Buckets

variable {ι κ : Type*}

def empty : Buckets ι κ := ⟨fun _ => [], fun _ => 0, 0⟩

structure Sorted (B : Buckets ι κ) (key : ι → κ) (R : ι → Prop) : Prop where
  mem : ∀ i k, i ∈ B.queue k ↔ R i ∧ key i = k
  fifo : ∀ k, (B.queue k).Pairwise fun i j => B.entered i < B.entered j
  past : ∀ i k, i ∈ B.queue k → B.entered i < B.pushes

variable {B : Buckets ι κ} {key key' : ι → κ} {R R' : ι → Prop} {i j : ι} {k : κ} {l : List ι}

theorem sorted_empty (key : ι → κ) : (empty : Buckets ι κ).Sorted key fun _ => False where
  mem _ _ := by simp [empty]
  fifo _ := .nil
  past _ _ h := by simp [empty] at h

theorem Sorted.nodup (h : B.Sorted key R) (k : κ) : (B.queue k).Nodup :=
  (h.fifo k).imp fun hlt heq => absurd hlt (by simp [heq])

theorem Sorted.congr (h : B.Sorted key R) (hR : ∀ i, R' i ↔ R i)
    (hkey : ∀ i, R i → key' i = key i) : B.Sorted key' R' where
  mem i k := by
    rw [h.mem, hR]
    exact and_congr_right fun hi => by rw [hkey i hi]
  fifo := h.fifo
  past := h.past

theorem Sorted.front (h : B.Sorted key R) (hk : B.queue k = i :: l) :
    R i ∧ key i = k ∧ ∀ j, R j → key j = k → B.entered i ≤ B.entered j := by
  have hi := (h.mem i k).mp (by simp [hk])
  refine ⟨hi.1, hi.2, fun j hj hkey => ?_⟩
  have hmem := (h.mem j k).mpr ⟨hj, hkey⟩
  have hp := h.fifo k
  rw [hk] at hmem hp
  rcases List.mem_cons.mp hmem with rfl | hmem
  · exact Nat.le_refl _
  · exact Nat.le_of_lt ((List.pairwise_cons.mp hp).1 j hmem)

variable [DecidableEq ι] [DecidableEq κ]

def push (B : Buckets ι κ) (k : κ) (i : ι) : Buckets ι κ where
  queue := update B.queue k (B.queue k ++ [i])
  entered := update B.entered i B.pushes
  pushes := B.pushes + 1

theorem Sorted.push (h : B.Sorted key R) (hi : ¬ R i) :
    (B.push (key i) i).Sorted key fun j => R j ∨ j = i := by
  have hnot : ∀ k, i ∉ B.queue k := fun k hin => hi ((h.mem i k).mp hin).1
  have hentered : ∀ k, ∀ j ∈ B.queue k, (B.push (key i) i).entered j = B.entered j := by
    intro k j hj
    refine update_of_ne ?_ ..
    rintro rfl
    exact hnot k hj
  have hself : (B.push (key i) i).entered i = B.pushes := update_self ..
  have hold : ∀ k, (B.queue k).Pairwise fun a b =>
      (B.push (key i) i).entered a < (B.push (key i) i).entered b := by
    intro k
    refine (h.fifo k).imp_of_mem fun ha hb hlt => ?_
    rwa [hentered k _ ha, hentered k _ hb]
  refine ⟨fun j k => ?_, fun k => ?_, fun j k hj => ?_⟩
  · by_cases hk : k = key i
    · subst hk
      simp only [Buckets.push, update_self, List.mem_append, List.mem_singleton, h.mem]
      constructor
      · rintro (⟨hR, hkey⟩ | rfl)
        · exact ⟨.inl hR, hkey⟩
        · exact ⟨.inr rfl, rfl⟩
      · rintro ⟨hR | rfl, hkey⟩
        · exact .inl ⟨hR, hkey⟩
        · exact .inr rfl
    · simp only [Buckets.push, update_of_ne hk, h.mem]
      refine and_congr_left fun hkey => ⟨.inl, fun hj => hj.elim id ?_⟩
      rintro rfl
      exact absurd hkey.symm hk
  · by_cases hk : k = key i
    · subst hk
      simp only [Buckets.push, update_self]
      refine List.pairwise_append.mpr ⟨hold _, List.pairwise_singleton .., ?_⟩
      intro a ha b hb
      rw [List.mem_singleton.mp hb]
      have := h.past a _ ha
      rwa [← hentered _ a ha, ← hself] at this
    · simp only [Buckets.push, update_of_ne hk]
      exact hold k
  · show _ < B.pushes + 1
    by_cases hji : j = i
    · rw [hji, hself]
      exact Nat.lt_succ_self _
    · have hj' : j ∈ B.queue k := by
        by_cases hk : k = key i
        · subst hk
          simp only [Buckets.push, update_self, List.mem_append, List.mem_singleton] at hj
          exact hj.resolve_right hji
        · simpa only [Buckets.push, update_of_ne hk] using hj
      rw [hentered k j hj']
      exact Nat.lt_succ_of_lt (h.past j k hj')

omit [DecidableEq κ] in
def remove (B : Buckets ι κ) (i : ι) : Buckets ι κ :=
  { B with queue := fun k => (B.queue k).erase i }

omit [DecidableEq κ] in
theorem Sorted.remove (h : B.Sorted key R) (i : ι) :
    (B.remove i).Sorted key fun j => R j ∧ j ≠ i where
  mem j k := by
    simp only [Buckets.remove, (h.nodup k).mem_erase_iff, h.mem]
    tauto
  fifo k := (h.fifo k).sublist List.erase_sublist
  past j k hj := h.past j k (List.mem_of_mem_erase hj)

omit [DecidableEq ι] in
def popFront (B : Buckets ι κ) (k : κ) : Buckets ι κ :=
  { B with queue := update B.queue k (B.queue k).tail }

omit [DecidableEq ι] in
theorem Sorted.popFront (h : B.Sorted key R) (hk : B.queue k = i :: l) :
    (B.popFront k).Sorted key fun j => R j ∧ j ≠ i := by
  have hi := (h.mem i k).mp (by simp [hk])
  have hsub : ∀ k', ((B.popFront k).queue k').Sublist (B.queue k') := by
    intro k'
    by_cases hk' : k' = k
    · subst hk'
      simp only [Buckets.popFront, update_self]
      exact List.tail_sublist _
    · simp only [Buckets.popFront, update_of_ne hk']
      exact List.Sublist.refl _
  refine ⟨fun j k' => ?_, fun k' => (h.fifo k').sublist (hsub k'), fun j k' hj => ?_⟩
  · by_cases hk' : k' = k
    · subst hk'
      have hnd := h.nodup k'
      have hmem := h.mem j k'
      rw [hk] at hnd hmem
      simp only [Buckets.popFront, update_self, hk, List.tail_cons]
      rw [List.mem_cons] at hmem
      have hnot := (List.nodup_cons.mp hnd).1
      constructor
      · intro hj
        have := hmem.mp (.inr hj)
        exact ⟨⟨this.1, fun heq => hnot (heq ▸ hj)⟩, this.2⟩
      · rintro ⟨⟨hR, hne⟩, hkey⟩
        exact (hmem.mpr ⟨hR, hkey⟩).resolve_left hne
    · simp only [Buckets.popFront, update_of_ne hk', h.mem]
      refine and_congr_left fun hkey => ⟨fun hR => ⟨hR, ?_⟩, And.left⟩
      rintro rfl
      exact hk' (hkey.symm.trans hi.2)
  · exact h.past j k' ((hsub k').subset hj)

end Buckets

end Cs162.Lib
