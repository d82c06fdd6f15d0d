import Mathlib.Tactic.Common

namespace Cs162.Lib

structure Clock (σ α : Type*) where
  table : List α
  mem_table : ∀ a, a ∈ table
  candidate : σ → α → Bool
  marked : σ → α → Bool
  unmark : α → σ → σ
  rest : σ → List α
  rewind : σ → σ
  candidate_unmark : ∀ s a b, candidate (unmark a s) b = candidate s b
  marked_unmark_self : ∀ s a, marked (unmark a s) a = false
  marked_of_unmark : ∀ s a b, marked (unmark a s) b = true → marked s b = true
  rest_rewind : ∀ s, rest (rewind s) = table
  candidate_rewind : ∀ s a, candidate (rewind s) a = candidate s a
  marked_rewind : ∀ s a, marked (rewind s) a = marked s a

namespace Clock
variable {σ α : Type*} (C : Clock σ α) {s s' s'' : σ}

def pass : List α → σ → List α × Option α × σ
  | [], s => ([], none, s)
  | a :: l, s =>
    if C.candidate s a then
      if C.marked s a then
        let r := pass l (C.unmark a s)
        (a :: r.1, r.2)
      else ([], some a, s)
    else pass l s

def search : ℕ → σ → Option (List α × α × σ)
  | 0, _ => none
  | n + 1, s =>
    match C.pass (C.rest s) s with
    | (skipped, some a, s) => some (skipped, a, s)
    | (skipped, none, s) => (search n (C.rewind s)).map fun r => (skipped ++ r.1, r.2)

structure Cooled (s s' : σ) : Prop where
  candidate : ∀ a, C.candidate s' a = C.candidate s a
  unmarked : ∀ a, C.marked s a = false → C.marked s' a = false

variable {C}

theorem Cooled.refl (s : σ) : C.Cooled s s := ⟨fun _ => rfl, fun _ => id⟩

theorem Cooled.trans (h : C.Cooled s s') (h' : C.Cooled s' s'') : C.Cooled s s'' :=
  ⟨fun a => (h'.candidate a).trans (h.candidate a), fun a ha => h'.unmarked a (h.unmarked a ha)⟩

theorem cooled_unmark (a : α) (s : σ) : C.Cooled s (C.unmark a s) := by
  refine ⟨fun b => C.candidate_unmark s a b, fun b hb => ?_⟩
  by_contra hmarked
  have hbefore := C.marked_of_unmark s a b (Bool.of_not_eq_false hmarked)
  exact absurd hbefore (by simp [hb])

theorem cooled_rewind (s : σ) : C.Cooled s (C.rewind s) :=
  ⟨C.candidate_rewind s, fun a ha => (C.marked_rewind s a).trans ha⟩

structure Passed (C : Clock σ α) (l : List α) (s : σ) (r : List α × Option α × σ) : Prop where
  cooled : C.Cooled s r.2.2
  skipped : ∀ a ∈ r.1, C.marked r.2.2 a = false
  taken : ∀ a, r.2.1 = some a → C.candidate r.2.2 a = true ∧ C.marked r.2.2 a = false
  exhausted : r.2.1 = none → ∀ a ∈ l, C.candidate s a = true → C.marked r.2.2 a = false

theorem passed_pass (l : List α) (s : σ) : C.Passed l s (C.pass l s) := by
  induction l generalizing s with
  | nil =>
    refine ⟨.refl s, fun a ha => absurd ha List.not_mem_nil, fun a ha => ?_, fun _ a ha => absurd ha List.not_mem_nil⟩
    exact absurd ha.symm (Option.some_ne_none a)
  | cons a l ih =>
    unfold pass
    split_ifs with hcand hmark
    · have h := ih (C.unmark a s)
      have hself : C.marked (C.pass l (C.unmark a s)).2.2 a = false :=
        h.cooled.unmarked a (C.marked_unmark_self s a)
      refine ⟨(cooled_unmark a s).trans h.cooled, ?_, h.taken, ?_⟩
      · intro b hb
        rcases List.mem_cons.mp hb with rfl | hb
        · exact hself
        · exact h.skipped b hb
      · intro hnone b hb hcandb
        rcases List.mem_cons.mp hb with rfl | hb
        · exact hself
        · exact h.exhausted hnone b hb ((C.candidate_unmark s a b).trans hcandb)
    · refine ⟨.refl s, fun b hb => absurd hb List.not_mem_nil, fun b hb => ?_, fun hnone => ?_⟩
      · exact Option.some.inj hb ▸ ⟨hcand, Bool.eq_false_iff.mpr hmark⟩
      · exact absurd hnone (Option.some_ne_none a)
    · have h := ih s
      refine ⟨h.cooled, h.skipped, h.taken, fun hnone b hb hcandb => ?_⟩
      rcases List.mem_cons.mp hb with rfl | hb
      · exact absurd hcandb hcand
      · exact h.exhausted hnone b hb hcandb

theorem pass_ne_none {l : List α} (hcold : ∀ a ∈ l, C.candidate s a = true → C.marked s a = false)
    {a : α} (ha : a ∈ l) (hcand : C.candidate s a = true) : (C.pass l s).2.1 ≠ none := by
  induction l with
  | nil => exact absurd ha List.not_mem_nil
  | cons b l ih =>
    unfold pass
    split_ifs with hb hmark
    · exact absurd (hcold b List.mem_cons_self hb) (by simp [hmark])
    · exact Option.some_ne_none b
    · rcases List.mem_cons.mp ha with rfl | ha
      · exact absurd hcand hb
      · exact ih (fun c hc => hcold c (List.mem_cons_of_mem b hc)) ha

theorem search_succ (n : ℕ) (s : σ) :
    (∃ a, (C.pass (C.rest s) s).2.1 = some a ∧
      C.search (n + 1) s = some ((C.pass (C.rest s) s).1, a, (C.pass (C.rest s) s).2.2)) ∨
    (C.pass (C.rest s) s).2.1 = none ∧
      C.search (n + 1) s =
        (C.search n (C.rewind (C.pass (C.rest s) s).2.2)).map fun r => ((C.pass (C.rest s) s).1 ++ r.1, r.2) := by
  rw [search]
  generalize C.pass (C.rest s) s = r
  obtain ⟨skipped, found, s'⟩ := r
  cases found with
  | none => exact .inr ⟨rfl, rfl⟩
  | some a => exact .inl ⟨a, rfl, rfl⟩

theorem search_spec {n : ℕ} {skipped : List α} {a : α} (h : C.search n s = some (skipped, a, s')) :
    C.Cooled s s' ∧ (C.candidate s' a = true ∧ C.marked s' a = false) ∧ ∀ b ∈ skipped, C.marked s' b = false := by
  induction n generalizing s skipped with
  | zero => cases h
  | succ n ih =>
    have hp : C.Passed (C.rest s) s (C.pass (C.rest s) s) := passed_pass _ s
    rcases search_succ n s with ⟨b, hb, heq⟩ | ⟨hnone, heq⟩
    · obtain ⟨rfl, rfl, rfl⟩ : _ ∧ _ ∧ _ := by simpa using heq.symm.trans h
      exact ⟨hp.cooled, hp.taken b hb, hp.skipped⟩
    · obtain ⟨r, hr, hrest⟩ := Option.map_eq_some_iff.mp (heq.symm.trans h)
      obtain ⟨later, b, s₁⟩ := r
      obtain ⟨rfl, rfl, rfl⟩ : _ ∧ _ ∧ _ := by simpa using hrest
      obtain ⟨hcool, htaken, hlater⟩ := ih hr
      have hback := (cooled_rewind (C := C) (C.pass (C.rest s) s).2.2).trans hcool
      refine ⟨hp.cooled.trans hback, htaken, fun c hc => ?_⟩
      rcases List.mem_append.mp hc with hc | hc
      · exact hback.unmarked c (hp.skipped c hc)
      · exact hlater c hc

theorem search_one {a : α} (hcand : C.candidate s a = true)
    (hcold : ∀ b, C.candidate s b = true → C.marked s b = false) : C.search 1 (C.rewind s) ≠ none := by
  have hfound : (C.pass (C.rest (C.rewind s)) (C.rewind s)).2.1 ≠ none := by
    refine pass_ne_none (fun b _ hb => ?_) (C.rest_rewind s ▸ C.mem_table a) ((C.candidate_rewind s a).trans hcand)
    rw [C.candidate_rewind] at hb
    exact (C.marked_rewind s b).trans (hcold b hb)
  rcases search_succ 0 (C.rewind s) with ⟨b, -, heq⟩ | ⟨hnone, -⟩
  · rw [heq]
    exact Option.some_ne_none _
  · exact absurd hnone hfound

theorem search_succ_ne_none {n : ℕ}
    (h : (C.pass (C.rest s) s).2.1 = none → C.search n (C.rewind (C.pass (C.rest s) s).2.2) ≠ none) :
    C.search (n + 1) s ≠ none := by
  rcases search_succ n s with ⟨a, -, heq⟩ | ⟨hnone, heq⟩
  · rw [heq]
    exact Option.some_ne_none _
  · rw [heq]
    exact fun hmap => h hnone (Option.map_eq_none_iff.mp hmap)

theorem search_three {a : α} (hcand : C.candidate s a = true) : C.search 3 s ≠ none := by
  apply search_succ_ne_none
  intro _
  generalize hs₁ : (C.pass (C.rest s) s).2.2 = s₁
  have hcool₁ : C.Cooled s s₁ := hs₁ ▸ (passed_pass _ s).cooled
  apply search_succ_ne_none
  intro hnone
  have hp := passed_pass (C := C) (C.rest (C.rewind s₁)) (C.rewind s₁)
  refine search_one (a := a) ?_ fun b hb => ?_
  · rw [hp.cooled.candidate, C.candidate_rewind, hcool₁.candidate]
    exact hcand
  · rw [hp.cooled.candidate] at hb
    exact hp.exhausted hnone b (C.rest_rewind s₁ ▸ C.mem_table b) hb

theorem search_ends_iff : (∃ n, C.search n s ≠ none) ↔ ∃ a, C.candidate s a = true := by
  constructor
  · rintro ⟨n, hn⟩
    obtain ⟨⟨skipped, a, s'⟩, hr⟩ := Option.ne_none_iff_exists'.mp hn
    obtain ⟨hcool, ⟨hcand, -⟩, -⟩ := search_spec hr
    exact ⟨a, (hcool.candidate a).symm.trans hcand⟩
  · rintro ⟨a, ha⟩
    exact ⟨3, search_three ha⟩

end Clock
end Cs162.Lib
