import Mathlib.Tactic.Common

namespace Cs162.Lib
variable {α : Type*} {P : List α → List α → Prop}

structure Drains (P : List α → List α → Prop) : Prop where
  append : ∀ {log : List α} {x : α} {queue : List α}, P log (x :: queue) → P (log ++ [x]) queue
  lose : ∀ {log : List α} {x : α} {queue : List α}, P log (x :: queue) → P log queue

theorem Drains.clear (h : Drains P) {log queue : List α} (hp : P log queue) : P log [] := by
  induction queue with
  | nil => exact hp
  | cons x queue ih => exact ih (h.lose hp)

theorem drains_sublist (l : List α) : Drains fun log queue => (log ++ queue).Sublist l where
  append h := by simpa using h
  lose h := (List.Sublist.append_left (List.sublist_cons_self _ _) _).trans h

theorem drains_exists {ι : Sort*} {Q : ι → List α → List α → Prop} (h : ∀ i, Drains (Q i)) :
    Drains fun log queue => ∃ i, Q i log queue where
  append := fun ⟨i, hi⟩ => ⟨i, (h i).append hi⟩
  lose := fun ⟨i, hi⟩ => ⟨i, (h i).lose hi⟩

theorem drains_done (Q : List α → Prop) : Drains fun log queue => Q log ∧ queue = [] where
  append h := absurd h.2 (List.cons_ne_nil _ _)
  lose h := absurd h.2 (List.cons_ne_nil _ _)

theorem drains_repeat (l : List α) (d : α) : Drains fun log queue =>
    ∃ a b, log = l ++ List.replicate a d ∧ queue = List.replicate b d where
  append := by
    rintro log x queue ⟨a, b, rfl, hq⟩
    cases b with
    | zero => exact absurd hq (List.cons_ne_nil _ _)
    | succ b =>
      rw [List.replicate_succ, List.cons.injEq] at hq
      obtain ⟨rfl, rfl⟩ := hq
      refine ⟨a + 1, b, ?_, rfl⟩
      rw [List.append_assoc, List.replicate_succ']
  lose := by
    rintro log x queue ⟨a, b, rfl, hq⟩
    cases b with
    | zero => exact absurd hq (List.cons_ne_nil _ _)
    | succ b =>
      rw [List.replicate_succ, List.cons.injEq] at hq
      exact ⟨a, b, rfl, hq.2⟩

end Cs162.Lib
