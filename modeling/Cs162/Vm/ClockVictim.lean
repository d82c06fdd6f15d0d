import Cs162.Lib.SecondChance
import Cs162.Vm.Paging

namespace Cs162.Vm.Memory
open Lib Option
variable {n : ℕ} {s s' : Memory n} {cur : ℕ}

def evictable (cur : ℕ) (s : Memory n) (f : Fin n) : Bool :=
  !(s.frames f).pinned && (s.frames f).vpage.any (·.thread == cur)

def frameIsAccessed (s : Memory n) (f : Fin n) : Bool := (s.frames f).vpage.any s.pageIsAccessed

def clearAccessed (f : Fin n) (s : Memory n) : Memory n :=
  match (s.frames f).vpage with
  | some p => s.pageSetAccessed p false
  | none => s

theorem frames_clearAccessed (f : Fin n) (s : Memory n) : (s.clearAccessed f).frames = s.frames := by
  unfold clearAccessed
  split <;> rfl

theorem clockHand_clearAccessed (f : Fin n) (s : Memory n) : (s.clearAccessed f).clockHand = s.clockHand := by
  unfold clearAccessed
  split <;> rfl

theorem pageIsAccessed_pageSetAccessed (s : Memory n) (p q : PagePtr) :
    (s.pageSetAccessed p false).pageIsAccessed q = (s.pageIsAccessed q && !decide (q = p)) := by
  by_cases hq : q = p
  · subst hq
    cases he : s.pagedir q <;> simp [pageIsAccessed, pageSetAccessed, modifyPte, he]
  · simp [pageIsAccessed, pageSetAccessed, modifyPte, hq]

theorem frameIsAccessed_clearAccessed (f g : Fin n) (s : Memory n) :
    (s.clearAccessed f).frameIsAccessed g =
      (s.frameIsAccessed g && !decide ((s.frames g).vpage = (s.frames f).vpage)) := by
  have hframes : ((s.clearAccessed f).frames g).vpage = (s.frames g).vpage := by rw [frames_clearAccessed]
  unfold frameIsAccessed
  rw [hframes]
  cases hg : (s.frames g).vpage with
  | none => rfl
  | some q =>
    unfold clearAccessed
    cases hf : (s.frames f).vpage with
    | none => simp
    | some p => simp [pageIsAccessed_pageSetAccessed]

def clock (cur : ℕ) : Clock (Memory n) (Fin n) where
  table := List.finRange n
  mem_table := List.mem_finRange
  candidate := evictable cur
  marked := frameIsAccessed
  unmark := clearAccessed
  rest s := (List.finRange n).drop s.clockHand
  rewind s := { s with clockHand := 0 }
  candidate_unmark s f g := by
    unfold evictable
    rw [frames_clearAccessed]
  marked_unmark_self s f := by simp [frameIsAccessed_clearAccessed]
  marked_of_unmark s f g h := by
    rw [frameIsAccessed_clearAccessed] at h
    exact (Bool.and_eq_true_iff.mp h).1
  rest_rewind _ := rfl
  candidate_rewind _ _ := rfl
  marked_rewind _ _ := rfl

def victimLoop (cur passes : ℕ) (s : Memory n) : Option (List (Fin n) × Fin n × Memory n) :=
  ((clock cur).search passes s).map fun (skipped, f, s) => (skipped, f, { s with clockHand := f })

theorem clockPass_eq (l : List (Fin n)) (s : Memory n) :
    clockPass cur l s =
      (((clock cur).pass l s).2.1,
        match ((clock cur).pass l s).2.1 with
        | some f => { ((clock cur).pass l s).2.2 with clockHand := f }
        | none => ((clock cur).pass l s).2.2) := by
  induction l generalizing s with
  | nil => rfl
  | cons f l ih =>
    unfold clockPass Clock.pass
    cases hp : (s.frames f).vpage with
    | none =>
      have hcand : (clock cur).candidate s f = false := by simp [clock, evictable, hp]
      simp only [hcand, Bool.false_eq_true, if_false]
      exact ih s
    | some p =>
      have hcand : (clock cur).candidate s f = (!(s.frames f).pinned && p.thread == cur) := by simp [clock, evictable, hp]
      have hmark : (clock cur).marked s f = s.pageIsAccessed p := by simp [clock, frameIsAccessed, hp]
      have hclear : (clock cur).unmark f s = s.pageSetAccessed p false := by simp [clock, clearAccessed, hp]
      simp only [hcand, hmark, hclear]
      split_ifs with h h'
      · exact ih (s.pageSetAccessed p false)
      · rfl
      · exact ih s

theorem clockHand_pass (cur : ℕ) (l : List (Fin n)) (s : Memory n) :
    ((clock cur).pass l s).2.2.clockHand = s.clockHand := by
  induction l generalizing s with
  | nil => rfl
  | cons f l ih =>
    unfold Clock.pass
    split_ifs
    · exact (ih _).trans (clockHand_clearAccessed f s)
    · rfl
    · exact ih s

theorem victimLoop_found {passes : ℕ} {f : Fin n}
    (h : clockPass cur ((List.finRange n).drop s.clockHand) s = (some f, s')) :
    (victimLoop cur (passes + 1) s).map Prod.snd = some (f, s') := by
  rw [clockPass_eq] at h
  obtain ⟨hf, hs'⟩ := Prod.mk.inj h
  rw [hf] at hs'
  rcases Clock.search_succ (C := clock cur) passes s with ⟨g, hg, heq⟩ | ⟨hnone, -⟩
  · obtain rfl : f = g := some.inj (hf.symm.trans hg)
    rw [victimLoop, heq, ← hs']
    rfl
  · exact absurd (hnone.symm.trans hf).symm (some_ne_none f)

theorem victimLoop_missed {passes : ℕ}
    (h : clockPass cur ((List.finRange n).drop s.clockHand) s = (none, s')) :
    (victimLoop cur (passes + 1) s).map Prod.snd = (victimLoop cur passes { s' with clockHand := 0 }).map Prod.snd ∧
      s'.clockHand = s.clockHand := by
  have hhand := clockHand_pass cur ((List.finRange n).drop s.clockHand) s
  rw [clockPass_eq] at h
  obtain ⟨hnone, hs'⟩ := Prod.mk.inj h
  rw [hnone] at hs'
  rcases Clock.search_succ (C := clock cur) passes s with ⟨g, hg, -⟩ | ⟨-, heq⟩
  · exact absurd (hg.symm.trans hnone) (some_ne_none g)
  · refine ⟨?_, hs' ▸ hhand⟩
    rw [victimLoop, heq, victimLoop, ← hs']
    simp only [map_map]
    rfl

theorem selectVictim_eq (s : Memory n) (cur : ℕ) : s.selectVictim cur = (victimLoop cur 3 s).map Prod.snd := by
  unfold selectVictim
  split
  · rename_i f s₁ h₁
    exact (victimLoop_found h₁).symm
  · rename_i s₁ h₁
    rw [(victimLoop_missed h₁).1]
    split
    · rename_i f s₂ h₂
      exact (victimLoop_found h₂).symm
    · rename_i s₂ h₂
      obtain ⟨hmissed, hhand⟩ := victimLoop_missed (s := { s₁ with clockHand := 0 }) h₂
      rw [hmissed]
      -- the hand is at the beginning already
      have hsame : { s₂ with clockHand := 0 } = s₂ := by
        cases s₂
        cases hhand
        rfl
      have hwhole : List.finRange n = (List.finRange n).drop s₂.clockHand := by
        rw [hhand]
        rfl
      rw [hsame]
      split
      · rename_i f s₃ h₃
        rw [hwhole] at h₃
        exact (victimLoop_found h₃).symm
      · rename_i s₃ h₃
        rw [hwhole] at h₃
        rw [(victimLoop_missed h₃).1]
        rfl

structure Chosen (cur : ℕ) (skipped : List (Fin n)) (f : Fin n) (s : Memory n) : Prop where
  unpinned : (s.frames f).pinned = false
  owned : ∃ p, (s.frames f).vpage = some p ∧ p.thread = cur ∧ s.pageIsAccessed p = false
  cleared : ∀ g ∈ skipped, ∀ p, (s.frames g).vpage = some p → s.pageIsAccessed p = false

def SelectsVictim (s : Memory n) (cur : ℕ) : Prop :=
  ∃ passes skipped f s', victimLoop cur passes s = some (skipped, f, s') ∧ Chosen cur skipped f s'

theorem evictable_iff {f : Fin n} :
    evictable cur s f = true ↔ (s.frames f).pinned = false ∧ ∃ p, (s.frames f).vpage = some p ∧ p.thread = cur := by
  simp [evictable, any_eq_true]

theorem chosen_of_victimLoop {passes : ℕ} {skipped : List (Fin n)} {f : Fin n}
    (h : victimLoop cur passes s = some (skipped, f, s')) : Chosen cur skipped f s' := by
  obtain ⟨⟨skipped, f, s₁⟩, hsearch, heq⟩ := map_eq_some_iff.mp h
  obtain ⟨rfl, rfl, rfl⟩ : _ ∧ _ ∧ _ := by simpa using heq
  obtain ⟨-, ⟨hcand, hmark⟩, hskipped⟩ := Clock.search_spec hsearch
  obtain ⟨hpin, p, hp, hthread⟩ := evictable_iff.mp hcand
  have hclear : ∀ g : Fin n, s₁.frameIsAccessed g = false → ∀ q, (s₁.frames g).vpage = some q →
      s₁.pageIsAccessed q = false := by
    intro g hg q hq
    simpa [frameIsAccessed, hq] using hg
  exact ⟨hpin, ⟨p, hp, hthread, hclear f hmark p hp⟩, fun g hg => hclear g (hskipped g hg)⟩

theorem selectsVictim_iff (s : Memory n) (cur : ℕ) :
    s.SelectsVictim cur ↔
      ∃ f, (s.frames f).pinned = false ∧ ∃ p, (s.frames f).vpage = some p ∧ p.thread = cur := by
  have hends : (∃ passes, (clock cur).search passes s ≠ none) ↔ ∃ f, evictable cur s f = true := Clock.search_ends_iff
  simp only [evictable_iff] at hends
  rw [← hends]
  constructor
  · rintro ⟨passes, skipped, f, s', hloop, -⟩
    obtain ⟨r, hr, -⟩ := map_eq_some_iff.mp hloop
    exact ⟨passes, hr ▸ some_ne_none r⟩
  · rintro ⟨passes, hsearch⟩
    obtain ⟨⟨skipped, f, s'⟩, hr⟩ := ne_none_iff_exists'.mp hsearch
    have hloop : victimLoop cur passes s = some (skipped, f, { s' with clockHand := f }) := by rw [victimLoop, hr]; rfl
    exact ⟨passes, skipped, f, _, hloop, chosen_of_victimLoop hloop⟩

theorem selectVictim_eq_none_iff (s : Memory n) (cur : ℕ) :
    s.selectVictim cur = none ↔ ∀ passes, victimLoop cur passes s = none := by
  rw [selectVictim_eq, map_eq_none_iff]
  constructor
  · intro hthree passes
    by_contra hloop
    have hends : ∃ passes, (clock cur).search passes s ≠ none :=
      ⟨passes, fun hnone => hloop (map_eq_none_iff.mpr hnone)⟩
    obtain ⟨f, hf⟩ := Clock.search_ends_iff.mp hends
    exact Clock.search_three hf (map_eq_none_iff.mp hthree)
  · exact fun hloop => hloop 3

def textFrames (pinned : Bool) : Memory 3 where
  supplementalPages p := some ⟨some (Fin.ofNat 3 p.vaddr), false, false, some 0, 0, pgSize, 0, false, mapFailed, 2 ^ 32 - 1⟩
  pagedir p := some ⟨true, Fin.ofNat 3 p.vaddr, false, true, false⟩
  frames f := ⟨some ⟨0, f⟩, pinned || f != 2⟩
  clockHand := 3
  kpages _ _ := 0
  swapBitmap := ⟨0, fun _ => false⟩
  swapDevice _ _ := 0
  inodes _ := ⟨3 * pgSize, fun _ => 0⟩
  denyWriteCnt _ := 0
  fdTable _ _ := none
  mmapList _ := []
  exiting _ := false

example : (victimLoop 0 3 (textFrames false)).map (fun r => (r.1, r.2.1)) = some ([2], 2) := by decide

theorem not_selectsVictim_pinned :
    (∀ f, ((textFrames true).frames f).vpage ≠ none) ∧ ∀ passes, victimLoop 0 passes (textFrames true) = none := by
  refine ⟨fun f => some_ne_none _, (selectVictim_eq_none_iff _ 0).mp ?_⟩
  rfl

end Cs162.Vm.Memory
