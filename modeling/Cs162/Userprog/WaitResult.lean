import Cs162.Userprog.Handshake

namespace Cs162.Userprog
open Lib Function

namespace Processes
variable {s s' : Processes} {t u p c : ℕ} {q : Point}

theorem onward {r q : Point} (h : (r.plain && q.plain && !r.done && r.taken.isNone && r.marked.isNone &&
    (!r.exits || q.exits)) = true) : Onward r q := by
  simp only [Bool.and_eq_true, Bool.or_eq_true, Bool.not_eq_true', Option.isNone_iff_eq_none] at h
  obtain ⟨⟨⟨⟨⟨hr, hq⟩, hdone⟩, htaken⟩, hmarked⟩, hexits⟩ := h
  constructor <;> grind [Point.plain, Point.taken]

theorem Answers.exit {r : Point} {status : ℤ} (hl : s.Linked) (ha : s.Answers) (hp : s.point t = r) (hr : Onward r q)
    (hdone : r.done = false) (hflag : r ≠ .flagging true) (hq : status = -1 ∨ q = .flagging true)
    (hans : Answer ((s.setExitCode t status).goto t q) t q) : Answers ((s.setExitCode t status).goto t q) := by
  refine ha.put hl hp hr (fun x hx => ?_) (fun x hx => ?_) ?_ (fun _ => ?_) (fun h => absurd h hflag) .inl hans
  all_goals
    dsimp only [setExitCode, setProcess]
    grind [update_apply]

theorem Answers.stepRunning {op : Op} (hl : s.Linked) (ha : s.Answers) (hp : s.point t = .running)
    (hs : s.stepRunning t op = some s') : s'.Answers := by
  unfold Processes.stepRunning at hs
  split at hs <;> cases hs
  · exact ha.threadCreate hl hp
  · exact ha.goOn hl hp ⟨rfl, rfl, rfl⟩ ⟨rfl, rfl, rfl, rfl⟩ (onward rfl) (by simp) trivial
  · exact ha.goOn hl hp ⟨rfl, rfl, rfl⟩ ⟨rfl, rfl, rfl, rfl⟩ (onward rfl) (by simp) trivial
  · exact ha.access (ha.exit hl hp (onward rfl) rfl (by simp) (.inr rfl) trivial)
  · exact ha.access (ha.exit hl hp (onward rfl) rfl (by simp) (.inl rfl) (update_self ..))
  · exact ha.access ha

theorem Answers.notFound {isAlived : Bool} (hl : s.Linked) (ha : s.Answers) (hp : s.point t = .looking c isAlived)
    (hnot : c ∉ s.childList t) : (s.finishWait t c (-1)).Answers := by
  unfold finishWait
  split_ifs with hmine
  · obtain ⟨hlt, hparent⟩ := hmine
    refine ha.logged hl hp ⟨rfl, rfl, rfl⟩ ⟨rfl, rfl, rfl⟩ rfl ⟨rfl, rfl, rfl, by simp, by simp⟩ (by simp)
      ⟨hlt, hparent, hnot⟩ fun hmain => ?_
    -- the child has been waited for: it is neither about to start nor still in the list
    have hsome : s.returned c ≠ [] := by
      have hpending := ha.pending c hmain hlt
      have hload := hl.starting c
      grind [Point.exits]
    obtain ⟨hd, n, hn⟩ := (ha.log c hmain).resolve_left hsome
    exact ⟨hd, n + 1, by rw [hn, List.cons_append, ← List.replicate_succ']⟩
  · exact ha.goOn hl hp ⟨rfl, rfl, rfl⟩ ⟨rfl, rfl, rfl, rfl⟩ (onward rfl) (by simp) trivial

theorem Answers.waited_for {success : ℤ} (hl : s.Linked) (ha : s.Answers) (hp : s.point t = .freeing c success) :
    Answers { s.finishWait t c success with freed := update (s.finishWait t c success).freed c true } := by
  have hk := hl.knows t
  have hans := ha.answer t
  rw [hp] at hk hans
  obtain ⟨hnot, hparent, hlt, hd⟩ := hk
  obtain ⟨rfl, hnil⟩ := hans
  unfold finishWait
  rw [if_pos ⟨hlt, hparent⟩]
  exact ha.logged hl hp ⟨rfl, rfl, rfl⟩ ⟨rfl, rfl, rfl⟩ rfl ⟨rfl, rfl, rfl, by simp, by simp⟩ (by grind)
    ⟨hlt, hparent, hnot⟩ fun _ => ⟨hd, 0, by rw [hnil]; rfl⟩

theorem Answers.detach {r : Point} {l : List ℕ} (hl : s.Linked) (ha : s.Answers) (hp : s.point t = r)
    (hmem : ∀ x, x ∈ l → x ∈ s.childList t ∧ x ≠ c) (hpend : ∀ x ∈ s.childList t, q.exits = false →
      x ∈ l ∨ ∃ success, q = .freeing x success) (hr : r.plain ∧ r.done = false ∧ r.taken = none ∧ r ≠ .flagging true)
    (hq : q ≠ .starting) (hexits : r.exits → q.exits)
    (hmarked : ∀ x, r.marked = some x → x = c) (hans : Answer ((s.setChildList t l).goto t q) t q) :
    Answers ((s.setChildList t l).goto t q) := by
  subst hp
  obtain ⟨hplain, hdone, htaken, hflag⟩ := hr
  have hm : s.Moves t q ((s.setChildList t l).goto t q) := ⟨rfl, rfl, rfl⟩
  have hlist : ∀ u, ((s.setChildList t l).goto t q).childList u = if u = t then l else s.childList u :=
    fun u => update_apply ..
  have hpoint := hm.point_eq
  have hparent := hm.parentId
  have hsame : ((s.setChildList t l).goto t q).status = s.status ∧ ((s.setChildList t l).goto t q).process = s.process :=
    ⟨rfl, rfl⟩
  refine ha.move hl hm rfl (by grind) (by grind) (by grind) (fun _ _ => rfl) ha.code (fun x hx => ?_) (fun x hx hw => ?_) hans
    (by grind [Point.plain]) (by grind [Point.plain]) (by simp [hdone]) hexits (by grind [Point.taken])
  · have hquiet := ha.quiet x
    grind
  · -- a child that has been marked is the one whose record is taken out
    have hwaited := ha.waited x
    have hload := hl.starting x
    have hmine := hmem x
    grind [Point.marked]

theorem Answers.stepNext (hl : s.Linked) (ha : s.Answers) (hs : s.stepNext t = some s') : s'.Answers := by
  have hk := hl.knows t
  have hans := ha.answer t
  -- a thread goes on without writing to a record
  have hgo : ∀ {r q : Point}, s.point t = r → Onward r q → r ≠ .flagging true → Answer (s.goto t q) t q →
      (s.goto t q).Answers := fun hp hr hflag h => ha.goOn hl hp ⟨rfl, rfl, rfl⟩ ⟨rfl, rfl, rfl, rfl⟩ hr hflag h
  unfold Processes.stepNext at hs
  generalize hp : s.point t = r at hs hk hans
  cases r with
  | starting | running | dead => cases hs
  | started success =>
    cases success <;> cases hs
    · exact ha.access (ha.exit hl hp (onward rfl) rfl (by simp) (.inl rfl) trivial)
    · exact hgo hp (onward rfl) (by simp) trivial
  | loading child =>
    cases child with
    | none => cases hs
    | some c =>
      simp only at hs
      split_ifs at hs
      cases hs
      exact ha.goOn hl hp ⟨rfl, rfl, rfl⟩ ⟨rfl, rfl, rfl, rfl⟩
        ⟨⟨by simp, by simp⟩, by simp, by simp, by simp [Point.done], by simp [Point.exits], by simp [Point.marked]⟩ (by simp)
        trivial
  | loaded c =>
    simp only at hs
    split_ifs at hs
    cases hs
    exact ha.access (hgo hp (onward rfl) (by simp) trivial)
  | looking c isAlived =>
    cases hs
    refine ha.access ?_
    split_ifs with hin
    · exact hgo hp (onward rfl) (by simp) trivial
    · exact ha.notFound hl hp hin
  | found c isAlived =>
    cases hs
    have hnot : ¬ (s.process c).isWaited := fun h => by
      have hparent := (hl.child t c hk.1).1
      have hmark := ha.waited c (.inr (by rw [hparent]; exact hk.1)) h
      rw [hparent, hp] at hmark
      cases hmark
    rw [if_neg hnot]
    refine ha.access ?_
    split_ifs <;> exact hgo hp (onward rfl) (by simp) trivial
  | marking c =>
    cases hs
    refine ha.access (ha.put hl hp (onward rfl) (fun _ _ => rfl) (fun _ _ => rfl) (ha.code c) (fun h => ?_) (by simp)
      (fun _ => .inr ⟨(hl.child t c hk).1, rfl⟩) trivial)
    have hbefore := ha.quiet c h
    dsimp only [setProcess]
    grind [update_apply]
  | downing c =>
    simp only at hs
    split_ifs at hs
    cases hs
    have hr : Onward (.downing c) (.reading c) :=
      ⟨⟨by simp, by simp⟩, by simp, by simp, by simp [Point.done], by simp [Point.exits], fun _ h => h⟩
    refine ha.access (ha.put hl hp hr (fun _ _ => rfl) (fun _ _ => rfl) (ha.code c) (fun h => ?_) (by simp) .inl trivial)
    have hbefore := ha.quiet c h
    dsimp only [setProcess]
    grind [update_apply]
  | checking c =>
    cases hs
    refine ha.access ?_
    split_ifs with hexited
    · exact hgo hp (onward rfl) (by simp) trivial
    · refine hgo hp (onward rfl) (by simp) ⟨?_, ha.fresh t c hk.1⟩
      have hbefore := ha.quiet c
      grind [Knows, Processes.goto]
  | reading c =>
    cases hs
    have hr : Onward (.reading c) (.unlinking c (s.process c).exitCode) :=
      ⟨⟨by simp, by simp⟩, by simp, by simp, by simp [Point.done], by simp [Point.exits], fun _ h => h⟩
    exact ha.access (hgo hp hr (by simp) ⟨ha.code c, ha.fresh t c hk.1⟩)
  | unlinking c success =>
    cases hs
    have hmem : ∀ x, x ∈ (s.childList t).erase c ↔ x ≠ c ∧ x ∈ s.childList t := fun x => (hl.nodup t).mem_erase_iff
    exact ha.access (ha.detach hl hp (c := c) (by grind) (by grind) ⟨rfl, rfl, rfl, by simp⟩ (by simp) (by simp [Point.exits])
      (by grind [Point.marked]) hans)
  | freeing c success =>
    cases hs
    exact ha.access (ha.waited_for hl hp)
  | flagging isExited =>
    cases hs
    refine ha.access (ha.put hl hp (onward rfl) (fun _ _ => rfl) (fun _ _ => rfl) (ha.code t) (fun h => .inl ?_) (fun _ => rfl)
      .inl trivial)
    obtain rfl : isExited = false := h
    exact hans
  | exiting =>
    cases hs
    exact hgo hp (onward rfl) (by simp) trivial
  | emptying parent =>
    simp only at hs
    split at hs
    · cases hs
      exact hgo hp (onward rfl) (by simp) trivial
    · rename_i c l hcons
      cases hs
      have hnodup := hl.nodup t
      exact ha.access (ha.detach hl hp (c := c) (by grind) (by simp [Point.exits]) ⟨rfl, rfl, rfl, by simp⟩ (by simp)
        (fun _ => rfl) (by simp [Point.marked]) trivial)
  | dropping c parent =>
    cases hs
    refine ha.access (ha.goOn hl hp ⟨rfl, rfl, rfl⟩ ⟨rfl, rfl, rfl, rfl⟩ ?_ (by simp) trivial)
    exact ⟨⟨by simp, by simp⟩, by simp, by simp, by simp [Point.done], fun _ => rfl, by simp [Point.marked]⟩
  | printing parent =>
    cases hs
    exact ha.access (hgo hp (onward rfl) (by simp) trivial)
  | testing parent =>
    cases parent <;> cases hs
    · exact ha.access (ha.goOn hl hp ⟨rfl, rfl, rfl⟩ ⟨rfl, rfl, rfl, rfl⟩ (onward rfl) (by simp) trivial)
    · refine ha.access ?_
      split_ifs <;> exact hgo hp (onward rfl) (by simp) trivial
  | upping =>
    cases hs
    refine ha.access (ha.put hl hp (onward rfl) (fun _ _ => rfl) (fun _ _ => rfl) (ha.code t) (fun h => .inl ?_) (by simp)
      .inl trivial)
    have hbefore := ha.quiet t h
    dsimp only [setProcess]
    grind
  | leaving =>
    cases hs
    exact hgo hp ⟨⟨by simp, by simp⟩, by simp, by simp, fun _ => rfl, fun _ => rfl, by simp [Point.marked]⟩ (by simp) trivial

theorem answers_boot : boot.Answers := by
  refine ⟨fun _ => rfl, fun _ _ => ⟨rfl, rfl⟩, fun _ _ => .inl rfl, fun _ _ _ => rfl, fun _ _ h => (by cases h),
    fun _ _ => .inl rfl, fun c hmain hc => absurd hmain (Nat.not_lt.mpr (Nat.lt_succ_iff.mp hc)), fun t => ?_⟩
  have hpoint : boot.point t = .running ∨ boot.point t = .dead := by
    simp only [boot, update_apply]
    split_ifs <;> simp
  rcases hpoint with h | h <;> rw [h] <;> trivial

theorem wait_answered (h : system.ReachVia Prompt s) :
    (∀ p c, ¬ s.Hung p c) ∧
      ∀ c, main < c → s.returned c = [] ∨ ∃ n, s.returned c = s.status c :: List.replicate n (-1) := by
  have hinv : s.Linked ∧ s.Told ∧ s.Answers := by
    refine System.ReachVia.invariant (I := fun s => s.Linked ∧ s.Told ∧ s.Answers) ?_ ?_ h
    · rintro s rfl
      refine ⟨linked_boot, fun p c hp => ?_, answers_boot⟩
      simp only [boot, update_apply] at hp
      split_ifs at hp
    · rintro s a s' ⟨hl, ht, ha⟩ hprompt hs
      obtain ⟨-, hs' | ⟨hp, success, rfl⟩ | ⟨hp, hs'⟩⟩ := step_cases hs
      · exact ⟨hl.step hs, ht.stepNext hl hprompt hs', ha.stepNext hl hs'⟩
      · exact ⟨hl.step hs, ht.startProcess hl hp, ha.startProcess hl hp⟩
      · exact ⟨hl.step hs, ht.stepRunning hl hs', ha.stepRunning hl hp hs'⟩
  obtain ⟨-, ht, ha⟩ := hinv
  refine ⟨?_, fun c hc => (ha.log c hc).imp_right And.right⟩
  rintro p c ⟨hp, hsema, hdone⟩
  exact (ht p c hp).2 hdone hsema

def promptFor (s : Processes) (a : ℕ × Op) : Bool :=
  match s.point a.1 with
  | .marking c => !(s.point c).done
  | _ => true

theorem prompt_of_promptFor {a : ℕ × Op} (h : s.promptFor a) : s.Prompt a := by
  intro c hc
  simpa [promptFor, hc] using h

theorem wait_answered_twice : ∃ s, system.ReachVia Prompt s ∧ s.status 2 = 7 ∧ s.returned 2 = [7, -1] ∧
    (∀ p c, ¬ s.Hung p c) ∧ ∃ n, s.returned 2 = s.status 2 :: List.replicate n (-1) := by
  have hrun : (System.runVia step (promptFor · · = true) boot
      ([(1, .execute true), (2, .load true), (2, .next), (1, .next), (1, .next), (1, .wait 2), (1, .next), (1, .next),
        (1, .next), (2, .exit 7)] ++ List.replicate 7 (2, .next) ++ List.replicate 4 (1, .next) ++
        [(1, .wait 2), (1, .next)])).map (fun s => (s.status 2, s.returned 2)) = some (7, [7, -1]) := by
    decide +kernel
  obtain ⟨s, hs, hv⟩ := Option.map_eq_some_iff.mp hrun
  obtain ⟨hstatus, hret⟩ := Prod.mk.inj hv
  have hreach : system.ReachVia (promptFor · · = true) s := System.ReachVia.run (.init rfl) hs
  have hreach' : system.ReachVia Prompt s := hreach.mono fun _ _ => prompt_of_promptFor
  obtain ⟨hhung, hlog⟩ := wait_answered hreach'
  exact ⟨s, hreach', hstatus, hret, hhung, (hlog 2 (by decide)).resolve_left (by simp [hret])⟩

theorem hung_exited : ∃ s, system.Reach s ∧ s.Hung 1 2 := by
  have hrun : (System.runVia step (fun _ _ => True) boot
      ([(1, .execute true), (2, .load true), (2, .next), (1, .next), (1, .next), (1, .wait 2), (1, .next), (1, .next),
        (2, .exit 7)] ++ List.replicate 6 (2, .next) ++ [(1, .next)])).map
          (fun s => (s.point 1, (s.process 2).semaWait, s.point 2)) = some (.downing 2, 0, .dead) := by
    decide +kernel
  obtain ⟨s, hs, hv⟩ := Option.map_eq_some_iff.mp hrun
  simp only [Prod.mk.injEq] at hv
  obtain ⟨h1, hsema, h2⟩ := hv
  exact ⟨s, System.ReachVia.run (.init rfl) hs, h1, hsema, by rw [h2]; rfl⟩

end Processes
end Cs162.Userprog
