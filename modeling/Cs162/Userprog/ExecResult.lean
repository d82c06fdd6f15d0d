import Cs162.Userprog.Lifetime

namespace Cs162.Userprog
open Lib Function

def Point.loads : Point → Bool
  | .starting | .loading (some _) => true
  | _ => false

namespace Processes
variable {s s' : Processes} {t u p c : ℕ} {q : Point}

def Frees (s : Processes) (t c : ℕ) : Prop := (s.point t).taken = some c ∨ c = t ∧ s.point t = .testing false

structure Aside (s : Processes) (t : ℕ) (s' : Processes) : Prop where
  alive : s.point t ≠ .dead
  nextTid : s'.nextTid = s.nextTid
  point : ∀ u, u ≠ t → s'.point u = s.point u
  self : (s'.point t).loads = false
  childList : ∀ p, s'.childList p ⊆ s.childList p
  isLoaded : ∀ c, (s'.process c).isLoaded = (s.process c).isLoaded
  semaLoad : s'.semaLoad = s.semaLoad
  freed : ∀ c, s'.freed c = true → s.freed c = true ∨ s.Frees t c

section Asides
variable (hfrom : s.point t ≠ .dead ∧ (s.point t).loads = false)
include hfrom

theorem Aside.access {l : List ℕ} (h : s.Aside t s') : s.Aside t (s.access l s') := by
  unfold Processes.access
  split_ifs
  · exact h
  · exact ⟨hfrom.1, rfl, fun _ _ => rfl, hfrom.2, fun _ _ => id, fun _ => rfl, rfl, fun _ => .inl⟩

theorem Aside.move (hm : s.Moves t q s') (hq : q.loads = false) (hlist : ∀ p, s'.childList p ⊆ s.childList p)
    (hloaded : ∀ c, (s'.process c).isLoaded = (s.process c).isLoaded) (hsema : s'.semaLoad = s.semaLoad)
    (hfreed : s'.freed = s.freed) : s.Aside t s' := by
  have hpoint := hm.point_eq
  exact ⟨hfrom.1, hm.nextTid, by grind, by grind, hlist, hloaded, hsema, by grind⟩

theorem Aside.goto (hq : q.loads = false) : s.Aside t (s.goto t q) :=
  .move hfrom ⟨rfl, rfl, rfl⟩ hq (fun _ _ => id) (fun _ => rfl) rfl rfl

theorem Aside.put {info : ProcessInfo} {status : ℕ → ℤ} (hinfo : info.isLoaded = (s.process c).isLoaded)
    (hq : q.loads = false) : s.Aside t { (s.setProcess c info).goto t q with status := status } := by
  refine .move hfrom ⟨rfl, rfl, rfl⟩ hq (fun _ _ => id) (fun x => ?_) rfl rfl
  dsimp only [Processes.goto, setProcess]
  grind [update_apply]

theorem Aside.detach {l : List ℕ} (hl : l ⊆ s.childList t) (hq : q.loads = false) :
    s.Aside t ((s.setChildList t l).goto t q) := by
  refine .move hfrom ⟨rfl, rfl, rfl⟩ hq (fun p => ?_) (fun _ => rfl) rfl rfl
  dsimp only [Processes.goto, setChildList]
  grind [update_apply]

theorem Aside.finishWait {success : ℤ} : s.Aside t (s.finishWait t c success) := by
  unfold Processes.finishWait
  split_ifs
  · exact .move hfrom ⟨rfl, rfl, rfl⟩ rfl (fun _ _ => id) (fun _ => rfl) rfl rfl
  · exact .goto hfrom rfl

theorem Aside.free (hf : s.Frees t c) (h : s.Aside t s') : s.Aside t (s.free c s') := by
  refine Aside.access hfrom ⟨h.alive, h.nextTid, h.point, h.self, h.childList, h.isLoaded, h.semaLoad, fun x hx => ?_⟩
  have hfreed := h.freed x
  dsimp only at hx
  grind [update_apply]

end Asides

theorem aside_of_stepNext (hload : ∀ c, s.point t ≠ .loading (some c)) (hs : s.stepNext t = some s') : s.Aside t s' := by
  unfold Processes.stepNext at hs
  have hfrom : s.point t ≠ .dead ∧ (s.point t).loads = false := by grind [Point.loads]
  generalize hp : s.point t = r at hs
  cases r with
  | starting | running | dead => cases hs
  | started success =>
    cases success <;> cases hs
    · exact .access hfrom (.put hfrom rfl rfl)
    · exact .goto hfrom rfl
  | loading child =>
    cases child with
    | none => cases hs
    | some c => exact absurd hp (hload c)
  | loaded c | downing c =>
    simp only at hs
    split_ifs at hs
    cases hs
    refine .access hfrom ?_
    first | exact .goto hfrom rfl | exact .put hfrom rfl rfl
  | looking c isAlived | found c isAlived | checking c =>
    cases hs
    refine .access hfrom ?_
    split_ifs <;> first | exact .goto hfrom rfl | exact .finishWait hfrom
  | marking c | reading c | printing parent | flagging isExited | upping =>
    cases hs
    refine .access hfrom ?_
    first | exact .goto hfrom rfl | exact .put hfrom rfl rfl
  | unlinking c success =>
    cases hs
    exact .access hfrom (.detach hfrom List.erase_subset rfl)
  | freeing c success =>
    cases hs
    exact .free hfrom (.inl (by rw [hp]; rfl)) (.finishWait hfrom)
  | exiting | leaving =>
    cases hs
    exact .goto hfrom rfl
  | emptying parent =>
    simp only at hs
    split at hs
    · cases hs
      exact .goto hfrom rfl
    · rename_i c l hcons
      cases hs
      exact .access hfrom (.detach hfrom (by grind) rfl)
  | dropping c parent =>
    cases hs
    exact .free hfrom (.inl (by rw [hp]; rfl)) (.goto hfrom rfl)
  | testing parent =>
    cases parent <;> cases hs
    · exact .free hfrom (.inr ⟨rfl, hp⟩) (.goto hfrom rfl)
    · refine .access hfrom ?_
      split_ifs <;> exact .goto hfrom rfl

theorem aside_of_stepRunning {op : Op} (hp : s.point t = .running) (hop : op ≠ .execute true)
    (hs : s.stepRunning t op = some s') : s.Aside t s' := by
  have hfrom : s.point t ≠ .dead ∧ (s.point t).loads = false := by
    rw [hp]
    exact ⟨by decide, rfl⟩
  unfold Processes.stepRunning at hs
  split at hs <;> cases hs
  · contradiction
  · exact .goto hfrom rfl
  · exact .goto hfrom rfl
  · exact .access hfrom (.put hfrom rfl rfl)
  · exact .access hfrom (.put hfrom rfl rfl)
  · exact .access hfrom ⟨hfrom.1, rfl, fun _ _ => rfl, hfrom.2, fun _ _ => id, fun _ => rfl, rfl, fun _ => .inl⟩

theorem Linked.point_of_step {a : ℕ × Op} (hl : s.Linked) (hs : s.step a = some s') (halive : s.point u ≠ .dead)
    (hne : u ≠ a.1) : s'.point u = s.point u := by
  obtain ⟨-, hnext | ⟨hp, success, rfl⟩ | ⟨hrun, hop⟩⟩ := step_cases hs
  · by_cases hload : ∃ c, s.point a.1 = .loading (some c)
    · obtain ⟨c, hload⟩ := hload
      unfold Processes.stepNext at hnext
      rw [hload] at hnext
      dsimp only at hnext
      split_ifs at hnext
      cases hnext
      exact update_of_ne hne ..
    · exact (aside_of_stepNext (fun c hc => hload ⟨c, hc⟩) hnext).point u hne
  · obtain ⟨s', htells, heq⟩ := hl.startProcess_eq hp success
    have hpoint := htells.point_eq u
    rw [heq]
    grind [Processes.access]
  · by_cases hcreate : a.2 = .execute true
    · rw [hcreate] at hop
      cases hop
      have hlt : u < s.nextTid := hl.lt_nextTid halive
      grind
    · exact (aside_of_stepRunning hrun hcreate hop).point u hne

theorem Linked.lt_of_frees (hl : s.Linked) (hf : s.Frees t c) : c < s.nextTid ∧ s.point c ≠ .starting := by
  have hstart := hl.starting c
  rcases hf with htaken | ⟨rfl, hp⟩
  · obtain ⟨-, hparent, hlt, hload⟩ := hl.of_taken htaken
    grind
  · exact ⟨hl.lt_nextTid (by simp [hp]), by simp [hp]⟩

theorem Linked.dead_of_frees (hl : s.Linked) (hf : s.Frees t c) (hc : c ∈ s.childList p) : s.point p = .dead := by
  have hparent := (hl.child p c hc).1
  rcases hf with htaken | ⟨rfl, hp⟩
  · have hown := hl.of_taken htaken
    grind
  · have hk := hl.knows c
    rw [hp] at hk
    rw [← hparent]
    exact hk.2 rfl

def tidError : ℤ := -1

def executeResult (s : Processes) (child : ℕ) : ℤ := if (s.process child).isLoaded then child else tidError

theorem stepNext_of_not_created (hnone : s.point t = .loading none) : s.stepNext t = none := by
  unfold Processes.stepNext
  rw [hnone]

end Processes

structure LoadHistory where
  procs : Processes
  success : ℕ → Option Bool

namespace LoadHistory
open Processes
variable {s s' : LoadHistory} {t p c : ℕ}

def step (s : LoadHistory) (a : ℕ × Op) : Option LoadHistory :=
  (s.procs.step a).map fun procs =>
    match a.2 with
    | .load success => ⟨procs, update s.success a.1 (some success)⟩
    | _ => ⟨procs, s.success⟩

def system : System LoadHistory (ℕ × Op) := .ofStep (· = ⟨boot, fun _ => none⟩) step

structure Kept (s : LoadHistory) : Prop where
  linked : s.procs.Linked
  posted : ∀ p c, s.procs.point p = .loading (some c) → c ∈ s.procs.childList p → s.procs.semaLoad p ≠ 0
  pending : ∀ c, s.procs.point c = .starting ∨ s.procs.nextTid ≤ c → s.success c = none ∧ s.procs.freed c = false
  listed : ∀ p, ∀ c ∈ s.procs.childList p, s.success c = some (s.procs.process c).isLoaded ∧
    (s.procs.point p ≠ .dead → s.procs.freed c = false)

theorem Kept.aside {procs : Processes} (h : s.Kept) (hl : procs.Linked) (ha : s.procs.Aside t procs) :
    Kept ⟨procs, s.success⟩ := by
  have hpoint := ha.point
  have hnext := ha.nextTid
  have hself := ha.self
  have halive := ha.alive
  have hsema := ha.semaLoad
  refine ⟨hl, fun p c hp hc => ?_, fun c hc => ?_, fun p c hc => ?_⟩
  · have hposted := h.posted p c
    have hin := ha.childList p hc
    grind [Point.loads]
  · have hpending := h.pending c
    have hfreed := ha.freed c
    have hfrees := h.linked.lt_of_frees (t := t) (c := c)
    grind [Point.loads]
  · have hin := ha.childList p hc
    have hlisted := h.listed p c hin
    have hloaded := ha.isLoaded c
    have hfreed := ha.freed c
    have hdead := fun hf => h.linked.dead_of_frees (t := t) hf hin
    grind

theorem Kept.threadCreate (h : s.Kept) (hrun : s.procs.point t = .running) :
    Kept ⟨s.procs.threadCreate t, s.success⟩ := by
  have hl := h.linked
  have hlist : (s.procs.threadCreate t).childList = s.procs.childList := rfl
  have hrest : (s.procs.threadCreate t).semaLoad = s.procs.semaLoad ∧ (s.procs.threadCreate t).freed = s.procs.freed ∧
    (s.procs.threadCreate t).nextTid = s.procs.nextTid + 1 := ⟨rfl, rfl, rfl⟩
  refine ⟨hl.threadCreate hrun, fun p c hp hc => ?_, fun c hc => ?_, fun p c hc => ?_⟩
  · have hposted := h.posted p c
    have hchild := hl.child p c hc
    grind
  · have hpending := h.pending c
    grind
  · have hlisted := h.listed p c hc
    have hchild := hl.child p c hc
    have hbound := hl.parent c
    grind

theorem Kept.tells (h : s.Kept) (hstart : s.procs.point t = .starting) (success : Bool) :
    s.procs.Tells t success (s.procs.startProcess t success) := by
  obtain ⟨s', htells, heq⟩ := h.linked.startProcess_eq hstart success
  have hwaits := h.linked.starting t hstart
  rw [heq, access_eq fun c hc => ?_]
  · exact htells
  rcases List.mem_cons.mp hc with rfl | hlast
  · exact (h.pending c (.inl hstart)).2
  · refine (h.listed _ c (List.mem_of_getLast? (Option.mem_toList.mp hlast))).2 ?_
    rw [hwaits]
    exact Point.noConfusion

theorem Kept.startProcess (h : s.Kept) (hstart : s.procs.point t = .starting) (success : Bool) :
    Kept ⟨s.procs.startProcess t success, update s.success t (some success)⟩ := by
  have hl := h.linked
  have htells := h.tells hstart success
  have hlt : t < s.procs.nextTid := hl.lt_nextTid (by simp [hstart])
  have hpoint := htells.point_eq
  have hlist := htells.childList
  have hsema := htells.semaLoad
  have hprocess := htells.process
  have hfreed := htells.rest.1
  have hnext := htells.nextTid
  refine ⟨hl.startProcess hstart, fun p c hp hc => ?_, fun c hc => ?_, fun p c hc => ?_⟩
  · have hposted := h.posted p c
    grind
  · have hpending := h.pending c
    dsimp only at hc ⊢
    grind [update_apply]
  · have hlisted := h.listed p c
    have hpending := h.pending t
    dsimp only at hc ⊢
    grind [update_apply]

theorem Kept.loaded (h : s.Kept) (hload : s.procs.point t = .loading (some c)) (hsema : s.procs.semaLoad t ≠ 0) :
    Kept ⟨{ s.procs.goto t (.loaded c) with
      semaLoad := update s.procs.semaLoad t (s.procs.semaLoad t - 1) }, s.success⟩ := by
  refine ⟨h.linked.load hload hsema ⟨rfl, rfl, rfl⟩ ⟨rfl, rfl⟩ rfl, fun p x hp hx => ?_, fun x hx => ?_, fun p x hx => ?_⟩
  · have hposted := h.posted p x
    dsimp only [Processes.goto] at hp hx ⊢
    grind [update_apply]
  · have hpending := h.pending x
    dsimp only [Processes.goto] at hx ⊢
    grind [update_apply]
  · have hlisted := h.listed p x hx
    dsimp only [Processes.goto]
    grind [update_apply]

theorem Kept.stepNext {procs : Processes} (h : s.Kept) (hs : s.procs.stepNext t = some procs) :
    Kept ⟨procs, s.success⟩ := by
  by_cases hload : ∃ c, s.procs.point t = .loading (some c)
  · obtain ⟨c, hload⟩ := hload
    unfold Processes.stepNext at hs
    rw [hload] at hs
    dsimp only at hs
    split_ifs at hs with hsema
    cases hs
    exact h.loaded hload hsema
  · exact h.aside (h.linked.stepNext hs) (aside_of_stepNext (fun c hc => hload ⟨c, hc⟩) hs)

theorem Kept.stepRunning {op : Op} {procs : Processes} (h : s.Kept) (hrun : s.procs.point t = .running)
    (hs : s.procs.stepRunning t op = some procs) : Kept ⟨procs, s.success⟩ := by
  by_cases hop : op = .execute true
  · subst hop
    cases hs
    exact h.threadCreate hrun
  · exact h.aside (h.linked.stepRunning hrun hs) (aside_of_stepRunning hrun hop hs)

theorem Kept.step {a : ℕ × Op} (h : s.Kept) (hs : s.step a = some s') : s'.Kept := by
  obtain ⟨t, op⟩ := a
  obtain ⟨procs, hstep, hs'⟩ := Option.map_eq_some_iff.mp hs
  unfold Processes.step at hstep
  split_ifs at hstep
  cases op with
  | next =>
    cases hs'
    exact h.stepNext hstep
  | load success =>
    cases hs'
    generalize hp : s.procs.point t = q at hstep
    cases q with
    | starting =>
      cases hstep
      exact h.startProcess hp success
    | _ => cases hstep
  | _ =>
    cases hs'
    generalize hp : s.procs.point t = q at hstep
    cases q with
    | running => exact h.stepRunning hp hstep
    | _ => cases hstep

theorem kept_of_reach (h : system.Reach s) : s.Kept := by
  refine h.invariant (I := Kept) ?_ fun s a s' hs _ hstep => hs.step hstep
  rintro s rfl
  refine ⟨linked_boot, fun p c _ hc => ?_, fun _ _ => ⟨rfl, rfl⟩, fun p c hc => ?_⟩
  all_goals exact absurd hc List.not_mem_nil

structure Answered (s : LoadHistory) (t : ℕ) : Prop where
  goesOn : ∀ child, s.procs.point t = .loading child → (∀ c, child = some c → s.success c ≠ none) →
    (s.procs.stepNext t).isSome
  finds : ∀ c, s.procs.point t = .loaded c → c ∈ s.procs.childList t ∧
    ∀ x ∈ processChild (s.procs.childList t) c, s.procs.freed x = false
  returns : ∀ c, s.procs.point t = .loaded c → ∃ success, s.success c = some success ∧
    s.procs.executeResult c = if success then (c : ℤ) else tidError

theorem not_answered_of_not_created (hnone : s.procs.point t = .loading none) : ¬ s.Answered t := by
  intro ha
  have hsome := ha.goesOn none hnone fun c hc => absurd hc.symm (Option.some_ne_none c)
  rw [stepNext_of_not_created hnone] at hsome
  cases hsome

theorem Kept.mem_of_loaded (h : s.Kept) (hp : s.procs.point t = .loaded c) : c ∈ s.procs.childList t := by
  have hknows := h.linked.knows t
  rwa [hp] at hknows

theorem answered_iff (h : system.Reach s) (t : ℕ) : s.Answered t ↔ s.procs.point t ≠ .loading none := by
  have hk := kept_of_reach h
  constructor
  · exact fun ha hnone => not_answered_of_not_created hnone ha
  · intro hcreated
    refine ⟨fun child hp hdone => ?_, fun c hp => ?_, fun c hp => ?_⟩
    · cases child with
      | none => exact absurd hp hcreated
      | some c =>
        have hin : c ∈ s.procs.childList t := by
          obtain ⟨-, -, hstart | hin⟩ := hk.linked.loading t c hp
          · exact absurd (hk.pending c (.inl hstart)).1 (hdone c rfl)
          · exact hin
        unfold Processes.stepNext
        rw [hp]
        dsimp only
        rw [if_neg (hk.posted t c hp hin)]
        rfl
    · refine ⟨hk.mem_of_loaded hp, fun x hx => (hk.listed t x (mem_of_mem_processChild hx)).2 ?_⟩
      rw [hp]
      exact Point.noConfusion
    · exact ⟨_, (hk.listed t c (hk.mem_of_loaded hp)).1, rfl⟩

theorem answered_not_loaded : ∃ s, system.Reach s ∧ s.procs.point 1 = .loaded 2 ∧ s.success 2 = some false ∧
    s.procs.executeResult 2 = tidError ∧ s.Answered 1 := by
  have hrun : (System.runVia step (fun _ _ => True) ⟨boot, fun _ => none⟩
      [(1, .execute true), (2, .load false), (1, .next)]).map
        (fun s => (s.procs.point 1, s.success 2, s.procs.executeResult 2)) = some (.loaded 2, some false, tidError) := by
    decide +kernel
  obtain ⟨s, hs, hv⟩ := Option.map_eq_some_iff.mp hrun
  simp only [Prod.mk.injEq] at hv
  have hreach : system.Reach s := System.ReachVia.run (.init rfl) hs
  refine ⟨s, hreach, hv.1, hv.2.1, hv.2.2, (answered_iff hreach 1).mpr ?_⟩
  rw [hv.1]
  exact Point.noConfusion

theorem stuck_of_step {a : ℕ × Op} (h : s.Kept) (hnone : s.procs.point t = .loading none) (hs : s.step a = some s') :
    s'.procs.point t = .loading none := by
  obtain ⟨procs, hstep, hs'⟩ := Option.map_eq_some_iff.mp hs
  have hprocs : s'.procs = procs := by
    rw [← hs']
    split <;> rfl
  have hother : t ≠ a.1 := by
    rintro rfl
    obtain ⟨-, hnext | ⟨hp, -⟩ | ⟨hp, -⟩⟩ := step_cases hstep
    · rw [stepNext_of_not_created hnone] at hnext
      cases hnext
    · exact Point.noConfusion (hnone.symm.trans hp)
    · exact Point.noConfusion (hnone.symm.trans hp)
  rw [hprocs, h.linked.point_of_step hstep (hnone ▸ Point.noConfusion) hother, hnone]

theorem not_answered_not_created : ∃ s, system.Reach s ∧ ¬ s.Answered 1 ∧
    ∀ s', (System.ofStep (· = s) step).Reach s' → s'.procs.semaLoad 1 = 0 ∧ s'.procs.stepNext 1 = none := by
  have hrun : (System.runVia step (fun _ _ => True) ⟨boot, fun _ => none⟩ [(1, .execute false)]).map
      (fun s => s.procs.point 1) = some (.loading none) := by decide +kernel
  obtain ⟨s, hs, hnone⟩ := Option.map_eq_some_iff.mp hrun
  have hreach : system.Reach s := System.ReachVia.run (.init rfl) hs
  refine ⟨s, hreach, not_answered_of_not_created hnone, fun s' hs' => ?_⟩
  have hboth : s'.Kept ∧ s'.procs.point 1 = .loading none := by
    refine hs'.invariant (I := fun s => s.Kept ∧ s.procs.point 1 = .loading none) ?_ ?_
    · rintro s rfl
      exact ⟨kept_of_reach hreach, hnone⟩
    · rintro s a s' ⟨hk, hp⟩ - hstep
      exact ⟨hk.step hstep, stuck_of_step hk hp hstep⟩
  refine ⟨?_, stepNext_of_not_created hboth.2⟩
  by_contra hsema
  obtain ⟨-, c, hc, -⟩ := hboth.1.linked.semaLoad 1 hsema
  exact Option.some_ne_none c (Point.loading.inj (hc.symm.trans hboth.2))

end LoadHistory
end Cs162.Userprog
