import Cs162.Threads.Sleep

namespace Cs162.Threads.Sleep
open Lib Function

def Thread.Counter (th : Thread) : Prop :=
  match th.point with
  | .sleeping ticks => th.sleepTicks = ticks ∧ 0 < ticks ∧ th.status ≠ .blocked
  | .asleep => 0 ≤ th.sleepTicks ∧ (th.status = .blocked ↔ 0 < th.sleepTicks)
  | .newborn _ => th.sleepTicks = 0 ∧ th.status = .blocked
  | _ => th.sleepTicks = 0

def Thread.Asleep (th : Thread) : Prop := th.status = .blocked ∧ th.point = .asleep

theorem Thread.Counter.setStatus {th : Thread} {status : Mlfqs.Status} (h : th.Counter)
    (hfrom : th.status ≠ .blocked ∨ th.point = .idling) (hto : status ≠ .blocked) : Counter { th with status } := by
  obtain ⟨before, sleepTicks, point⟩ := th
  cases point with
  | sleeping ticks => exact ⟨h.1, h.2.1, hto⟩
  | asleep =>
    have hnot : before ≠ .blocked := hfrom.resolve_right Point.noConfusion
    exact ⟨h.1, iff_of_false hto fun hpos => hnot (h.2.mpr hpos)⟩
  | newborn creator => exact absurd h.2 (hfrom.resolve_right Point.noConfusion)
  | _ => exact h

theorem nodup_snoc {l : List ℕ} {t : ℕ} (hl : l.Nodup) (ht : t ∉ l) : (l ++ [t]).Nodup :=
  List.nodup_append_comm.mpr (List.nodup_cons.mpr ⟨ht, hl⟩)

namespace State
variable {s s' s'' : State} {t u next : ℕ} {th : Thread} {l : List ℕ}

structure Fits (s : State) (t : ℕ) (th : Thread) : Prop where
  counter : th.Counter
  ready : t ∈ s.readyList → th.status = .ready
  waits : ∀ q, t ∈ (s.sema q).waiters → th.status = .blocked ∧ th.point = .downing q
  queued : ∀ w, s.waiter w = some t → th.status = .blocked ∧ th.point = .queued w
  idle : s.idleThread = some t → th.status ≠ .dying ∧ th.point = .idling
  listed : th.status ≠ .dying → t ∈ s.allList

structure Lists (s : State) : Prop where
  ready : s.readyList.Nodup
  waiters : ∀ q, (s.sema q).waiters.Nodup
  all : s.allList.Nodup
  lt : ∀ t ∈ s.allList, t < s.nextTid

structure Base (s : State) : Prop where
  fits : ∀ t, s.Fits t (s.thread t)
  created : ∀ t u, (s.thread t).point = .creating u → (s.thread u).status = .blocked ∧ (s.thread u).point = .newborn t
  lists : s.Lists
  panic : s.panic = false

structure Inv (s : State) : Prop where
  base : s.Base
  current : (s.thread s.current).status = .running
  only : ∀ t, (s.thread t).status = .running → t = s.current

attribute [grind =] Thread.Asleep
attribute [grind →] Fits.counter Fits.ready Fits.waits Fits.queued Fits.idle Fits.listed

theorem Base.run (h : s.Base) (hnone : ∀ t, (s.thread t).status ≠ .running) (hsub : l.Sublist s.readyList)
    (hout : next ∉ l) (hnext : (s.thread next).status = .ready ∨ s.idleThread = some next) :
    ({ s with readyList := l }.run next).Inv := by
  have hfits := h.fits next
  have hmem : ∀ u ∈ l, u ∈ s.readyList := fun u hu => hsub.subset hu
  have hawake : (s.thread next).status ≠ .blocked ∨ (s.thread next).point = .idling := by grind
  have hcounter := hfits.counter.setStatus hawake (show Mlfqs.Status.running ≠ .blocked by decide)
  dsimp only [State.run, State.put]
  refine ⟨⟨fun u => ?_, fun c u hc => ?_, ?_, h.panic⟩, ?_, fun u hu => ?_⟩
  · have hu := h.fits u
    constructor <;> grind [update_apply]
  · have hcreated := h.created c u
    grind [update_apply]
  · exact ⟨h.lists.ready.sublist hsub, h.lists.waiters, h.lists.all, h.lists.lt⟩
  · simp only [update_self]
  · have hbefore := hnone u
    grind [update_apply]

theorem Base.schedule (h : s.Base) (hnone : ∀ t, (s.thread t).status ≠ .running) (hs : s.schedule next = some s') :
    s'.Inv := by
  unfold State.schedule at hs
  split_ifs at hs with hnil hidle hmem
  · cases hs
    exact h.run (l := s.readyList) hnone (List.Sublist.refl _) (hnil ▸ List.not_mem_nil) (.inr hidle)
  · cases hs
    exact h.run hnone List.erase_sublist h.lists.ready.not_mem_erase (.inl ((h.fits next).ready hmem))

theorem schedule_of_not_ready (hs : s.schedule next = some s') (hready : t ∉ s.readyList)
    (hidle : s.idleThread ≠ some t) : s'.thread t = s.thread t := by
  unfold schedule at hs
  split_ifs at hs with hnil hnext hmem
  all_goals
    cases hs
    refine update_of_ne ?_ ..
    rintro rfl
    contradiction

structure Keeps (s s' : State) : Prop where
  inv : s'.Inv
  asleep : ∀ t, (s.thread t).Asleep → s'.thread t = s.thread t

theorem Inv.leave (h : s.Inv) (hs : (s'.put s.current th).schedule next = some s'') (hb : (s'.put s.current th).Base)
    (hthread : s'.thread = s.thread) (hstatus : th.status ≠ .running) : s.Keeps s'' := by
  have hcur := h.current
  have hput : ∀ t, (s'.put s.current th).thread t = if t = s.current then th else s.thread t := fun t => by
    rw [← hthread]
    exact update_apply ..
  refine ⟨hb.schedule (fun t ht => ?_) hs, fun t ht => ?_⟩
  · have honly := h.only t
    grind
  · have hfits := hb.fits t
    have hsame : (s'.put s.current th).thread t = s.thread t := by grind
    exact (schedule_of_not_ready hs (by grind) (by grind)).trans hsame

theorem Inv.threadBlock {sema : ℕ → Sema} {waiter : ℕ → Option ℕ} {point : Point} (h : s.Inv)
    (hs : { s with sema := sema, waiter := waiter }.threadBlock point next = some s')
    (hwaits : ∀ q u, u ∈ (sema q).waiters → u ∈ (s.sema q).waiters ∨ u = s.current ∧ point = .downing q)
    (hnodup : ∀ q, (sema q).waiters.Nodup)
    (hqueued : ∀ w u, waiter w = some u → s.waiter w = some u ∨ u = s.current ∧ point = .queued w)
    (hidle : s.idleThread = some s.current → point = .idling)
    (hcounter : Thread.Counter ⟨.blocked, (s.thread s.current).sleepTicks, point⟩)
    (hcreate : ∀ u, point ≠ .creating u) : s.Keeps s' := by
  have hcur := h.current
  refine h.leave hs ⟨fun u => ?_, fun c u hc => ?_, ?_, h.base.panic⟩ rfl Mlfqs.Status.noConfusion
  · have hu := h.base.fits u
    dsimp only [State.put]
    constructor <;> grind [update_apply]
  · have hcreated := h.base.created c u
    dsimp only [State.put] at hc ⊢
    grind [update_apply]
  · exact ⟨h.base.lists.ready, hnodup, h.base.lists.all, h.base.lists.lt⟩

theorem Inv.change {sema : ℕ → Sema} {idle : Option ℕ} {sleepTicks : ℤ} {point : Point} (h : s.Inv)
    (hsema : ∀ q, (sema q).waiters = (s.sema q).waiters)
    (hidle : ∀ u, u ≠ s.current → idle = some u → s.idleThread = some u)
    (hidling : idle = some s.current → point = .idling)
    (hcounter : Thread.Counter ⟨.running, sleepTicks, point⟩) (hcreate : ∀ u, point ≠ .creating u) :
    s.Keeps ({ s with sema := sema, idleThread := idle }.put s.current ⟨.running, sleepTicks, point⟩) := by
  have hcur := h.current
  dsimp only [State.put]
  refine ⟨⟨⟨fun u => ?_, fun c u hc => ?_, ⟨h.base.lists.ready, fun q => ?_, h.base.lists.all, h.base.lists.lt⟩,
    h.base.panic⟩, ?_, fun u hu => ?_⟩, fun u hu => ?_⟩
  · have hu := h.base.fits u
    constructor <;> grind [update_apply]
  · have hcreated := h.base.created c u
    grind [update_apply]
  · exact hsema q ▸ h.base.lists.waiters q
  · simp only [update_self]
  · have honly := h.only u
    grind [update_apply]
  · grind [update_apply]

theorem Inv.sleepTicks_eq_zero (h : s.Inv) (hpoint : ∀ ticks, (s.thread s.current).point ≠ .sleeping ticks) :
    (s.thread s.current).sleepTicks = 0 := by
  have hcounter := (h.base.fits s.current).counter
  have hrun := h.current
  unfold Thread.Counter at hcounter
  split at hcounter <;> grind

theorem Inv.timerSleep {ticks : ℤ} (h : s.Inv) (hpoint : (s.thread s.current).point = .running) :
    s.Keeps (s.timerSleep ticks) := by
  have hfits := h.base.fits s.current
  unfold State.timerSleep
  dsimp only
  rw [h.current]
  split_ifs with hpos
  · exact h.change (fun _ => rfl) (fun _ _ => id) (by grind) ⟨rfl, hpos, Mlfqs.Status.noConfusion⟩
      fun _ => Point.noConfusion
  · exact ⟨h, fun _ _ => rfl⟩

theorem Inv.return {sema : ℕ → Sema} (h : s.Inv) (hsema : ∀ q, (sema q).waiters = (s.sema q).waiters)
    (hpoint : (∀ ticks, (s.thread s.current).point ≠ .sleeping ticks) ∧ (s.thread s.current).point ≠ .idling) :
    s.Keeps ({ s with sema := sema }.goto s.current .running) := by
  have hfits := h.base.fits s.current
  have hzero := h.sleepTicks_eq_zero hpoint.1
  have hkeeps : s.Keeps ({ s with sema := sema }.put s.current ⟨.running, 0, .running⟩) :=
    h.change hsema (fun _ _ => id) (by grind) rfl fun _ => Point.noConfusion
  unfold State.goto
  dsimp only
  rw [h.current, hzero]
  exact hkeeps

theorem Inv.semaDown {q : ℕ} (h : s.Inv)
    (hpoint : (∀ ticks, (s.thread s.current).point ≠ .sleeping ticks) ∧ (s.thread s.current).point ≠ .idling)
    (hs : s.semaDown q next = some s') : s.Keeps s' := by
  have hfits := h.base.fits s.current
  have hcur := h.current
  unfold State.semaDown at hs
  split_ifs at hs
  · refine h.threadBlock hs (fun p u hu => ?_) (fun p => ?_) (fun _ _ => .inl) (by grind)
      (h.sleepTicks_eq_zero hpoint.1) fun _ => Point.noConfusion
    · grind [update_apply]
    · have hnodup := h.base.lists.waiters p
      have hout : s.current ∉ (s.sema q).waiters := by grind
      grind [update_apply]
  · cases hs
    exact h.return (by grind [update_apply]) hpoint

theorem Inv.wait {w : ℕ} (h : s.Inv) (hpoint : (s.thread s.current).point = .running)
    (hs : s.wait w next = some s') : s.Keeps s' := by
  have hfits := h.base.fits s.current
  have hzero := h.sleepTicks_eq_zero (by grind)
  exact h.threadBlock hs (fun _ _ => .inl) h.base.lists.waiters (by grind [update_apply]) (by grind) hzero
    fun _ => Point.noConfusion

theorem Inv.yieldWith (h : s.Inv) (hsub : ∀ u, u ≠ s.current → u ∈ l → u ∈ s.readyList) (hnodup : l.Nodup)
    (hs : ({ s with readyList := l }.put s.current { s.thread s.current with status := .ready }).schedule next =
      some s') : s.Keeps s' := by
  have hcur := h.current
  have hcounter := (h.base.fits s.current).counter.setStatus (.inl (by grind)) (show Mlfqs.Status.ready ≠ _ by decide)
  refine h.leave hs ⟨fun u => ?_, fun c u hc => ?_, ?_, h.base.panic⟩ rfl Mlfqs.Status.noConfusion
  · have hu := h.base.fits u
    dsimp only [State.put]
    constructor <;> grind [update_apply]
  · have hcreated := h.base.created c u
    dsimp only [State.put] at hc ⊢
    grind [update_apply]
  · exact ⟨hnodup, h.base.lists.waiters, h.base.lists.all, h.base.lists.lt⟩

theorem Inv.threadYield (h : s.Inv) (hs : s.threadYield next = some s') : s.Keeps s' := by
  have hfits := h.base.fits s.current
  have hcur := h.current
  unfold State.threadYield at hs
  dsimp only at hs
  split_ifs at hs
  · exact h.yieldWith (fun _ _ => id) h.base.lists.ready hs
  · exact h.yieldWith (by grind) (nodup_snoc h.base.lists.ready (by grind)) hs

theorem Inv.threadExit (h : s.Inv) (hpoint : (s.thread s.current).point = .running)
    (hs : s.threadExit next = some s') : s.Keeps s' := by
  have hcur := h.current
  have hcounter := (h.base.fits s.current).counter.setStatus (.inl (by grind)) (show Mlfqs.Status.dying ≠ _ by decide)
  have herase := fun u (hu : u ≠ s.current) => List.mem_erase_of_ne (l := s.allList) hu
  refine h.leave hs ⟨fun u => ?_, fun c u hc => ?_, ?_, h.base.panic⟩ rfl Mlfqs.Status.noConfusion
  · have hu := h.base.fits u
    dsimp only [State.put]
    constructor <;> grind [update_apply]
  · have hcreated := h.base.created c u
    dsimp only [State.put] at hc ⊢
    grind [update_apply]
  · exact ⟨h.base.lists.ready, h.base.lists.waiters, h.base.lists.all.erase _,
      fun u hu => h.base.lists.lt u (List.mem_of_mem_erase hu)⟩

theorem Inv.lt_nextTid (h : s.Inv) (ht : (s.thread t).status ≠ .dying) : t < s.nextTid :=
  h.base.lists.lt t ((h.base.fits t).listed ht)

theorem Inv.initThread (h : s.Inv) (hpoint : (s.thread s.current).point = .running) : s.Keeps s.initThread := by
  have hcur := h.current
  have hzero := h.sleepTicks_eq_zero (by grind)
  have hlt : s.current < s.nextTid := h.lt_nextTid (by grind)
  have hdying : (s.thread s.nextTid).status = .dying := by
    by_contra halive
    exact Nat.lt_irrefl _ (h.lt_nextTid halive)
  have hout : s.nextTid ∉ s.allList := fun hmem => Nat.lt_irrefl _ (h.base.lists.lt _ hmem)
  dsimp only [State.initThread, State.goto, State.put]
  refine ⟨⟨⟨fun u => ?_, fun c u hc => ?_, ⟨h.base.lists.ready, h.base.lists.waiters,
    nodup_snoc h.base.lists.all hout, fun u hu => ?_⟩, h.base.panic⟩, ?_, fun u hu => ?_⟩, fun u hu => ?_⟩
  · have hu := h.base.fits u
    constructor <;> grind [update_apply, Thread.Counter]
  · have hcreated := h.base.created c u
    grind [update_apply]
  · have hbound := h.base.lists.lt u
    grind
  · grind [update_apply]
  · have honly := h.only u
    grind [update_apply]
  · grind [update_apply]

theorem Inv.shrink {sema : ℕ → Sema} {waiter : ℕ → Option ℕ} (h : s.Inv)
    (hwaits : ∀ q, (sema q).waiters.Sublist (s.sema q).waiters)
    (hqueued : ∀ w u, waiter w = some u → s.waiter w = some u) : Inv { s with sema := sema, waiter := waiter } := by
  refine ⟨⟨fun t => ?_, h.base.created, ?_, h.base.panic⟩, h.current, h.only⟩
  · have hfits := h.base.fits t
    exact ⟨hfits.counter, hfits.ready, fun q hq => hfits.waits q ((hwaits q).subset hq),
      fun w hw => hfits.queued w (hqueued w t hw), hfits.idle, hfits.listed⟩
  · exact ⟨h.base.lists.ready, fun q => (h.base.lists.waiters q).sublist (hwaits q), h.base.lists.all, h.base.lists.lt⟩

theorem threadUnblock_of_ne (s : State) (hu : u ≠ t) : (s.threadUnblock t).thread u = s.thread u := by
  unfold threadUnblock
  split_ifs
  · exact update_of_ne hu ..
  · rfl

theorem Inv.other (h : s.Inv) (hblocked : (s.thread t).status = .blocked) (hth : th.status ≠ .running ∧ th.status ≠ .dying)
    (hready : ∀ u, u ∈ l ↔ u ∈ s.readyList ∨ u = t ∧ th.status = .ready) (hnodup : l.Nodup)
    (hpoint : th.point = (s.thread t).point) (hcounter : th.Counter) (hwaits : ∀ q, t ∉ (s.sema q).waiters)
    (hqueued : ∀ w, s.waiter w ≠ some t) (hnot : ∀ c, (s.thread c).point ≠ .creating t)
    (hcreate : ∀ u, th.point ≠ .creating u) : Inv { s.put t th with readyList := l } := by
  have hcur := h.current
  have hfits := h.base.fits t
  dsimp only [State.put]
  refine ⟨⟨fun u => ?_, fun c u hc => ?_, ⟨hnodup, h.base.lists.waiters, h.base.lists.all, h.base.lists.lt⟩,
    h.base.panic⟩, ?_, fun u hu => ?_⟩
  · have hu := h.base.fits u
    constructor <;> grind [update_apply]
  · have hcreated := h.base.created c u
    grind [update_apply]
  · grind [update_apply]
  · have honly := h.only u
    grind [update_apply]

theorem Inv.makeReady (h : s.Inv) (hblocked : (s.thread t).status = .blocked) (hth : th.status = .ready)
    (hpoint : th.point = (s.thread t).point) (hcounter : th.Counter) (hwaits : ∀ q, t ∉ (s.sema q).waiters)
    (hqueued : ∀ w, s.waiter w ≠ some t) (hnot : ∀ c, (s.thread c).point ≠ .creating t)
    (hcreate : ∀ u, th.point ≠ .creating u) : Inv { s.put t th with readyList := s.readyList ++ [t] } := by
  have hfits := h.base.fits t
  exact h.other hblocked (by grind) (by grind) (nodup_snoc h.base.lists.ready (by grind)) hpoint hcounter hwaits hqueued
    hnot hcreate

theorem Inv.threadUnblock (h : s.Inv) (hblocked : (s.thread t).status = .blocked)
    (hpoint : (∀ c, (s.thread t).point ≠ .newborn c) ∧ (s.thread t).point ≠ .asleep ∧
      ∀ u, (s.thread t).point ≠ .creating u)
    (hwaits : ∀ q, t ∉ (s.sema q).waiters) (hqueued : ∀ w, s.waiter w ≠ some t) : (s.threadUnblock t).Inv := by
  obtain ⟨hborn, hasleep, hcreate⟩ := hpoint
  have hcounter : Thread.Counter { s.thread t with status := .ready } := by
    have hbefore := (h.base.fits t).counter
    unfold Thread.Counter at hbefore ⊢
    dsimp only
    split at hbefore <;> grind
  unfold State.threadUnblock
  rw [if_pos hblocked]
  exact h.makeReady hblocked rfl rfl hcounter hwaits hqueued (fun c hc => hborn c (h.base.created c t hc).2) hcreate

theorem waiters_setSema_sublist (s : State) {q : ℕ} {sema : Sema}
    (hsub : sema.waiters.Sublist (s.sema q).waiters) (p : ℕ) :
    (update s.sema q sema p).waiters.Sublist (s.sema p).waiters := by
  by_cases hp : p = q
  · subst hp
    rw [update_self]
    exact hsub
  · rw [update_of_ne hp]

theorem Inv.increment {q : ℕ} (h : s.Inv) : (s.increment q).Inv :=
  h.shrink (waiters_setSema_sublist s (List.Sublist.refl _)) fun _ _ => id

theorem Inv.semaTryDown {q : ℕ} (h : s.Inv) : s.Keeps (s.semaTryDown q) := by
  unfold State.semaTryDown
  split_ifs
  · exact ⟨h.shrink (waiters_setSema_sublist s (List.Sublist.refl _)) fun _ _ => id, fun _ _ => rfl⟩
  · exact ⟨h, fun _ _ => rfl⟩

theorem Inv.semaUp {q : ℕ} (h : s.Inv) (hs : s.semaUp q t = some s') : s.Keeps s' := by
  have hfits := h.base.fits t
  unfold State.semaUp at hs
  split_ifs at hs with hnil hmem
  · cases hs
    exact ⟨h.increment, fun _ _ => rfl⟩
  · cases hs
    obtain ⟨hblocked, hpoint⟩ := hfits.waits q hmem
    have hwithout : (s.setSema q { s.sema q with waiters := (s.sema q).waiters.erase t }).Inv :=
      h.shrink (waiters_setSema_sublist s List.erase_sublist) fun _ _ => id
    have hout : ∀ p, t ∉ (update s.sema q { s.sema q with waiters := (s.sema q).waiters.erase t } p).waiters := by
      have herased := (h.base.lists.waiters q).not_mem_erase (a := t)
      grind [update_apply]
    refine ⟨(hwithout.threadUnblock hblocked ?_ hout ?_).increment, fun u hu => threadUnblock_of_ne (s.setSema q _) ?_⟩
    · dsimp only [State.setSema]
      grind
    · dsimp only [State.setSema]
      grind
    · grind

theorem Inv.signal {w : ℕ} (h : s.Inv) : s.Keeps (s.signal w) := by
  unfold State.signal
  split
  · rename_i t hw
    have hfits := h.base.fits t
    obtain ⟨hblocked, hpoint⟩ := hfits.queued w hw
    have hwithout : Inv { s with waiter := update s.waiter w none } :=
      h.shrink (fun _ => List.Sublist.refl _) (by grind [update_apply])
    -- the pointer may as well be cleared first
    have hswap : { s.threadUnblock t with waiter := update s.waiter w none } =
        { s with waiter := update s.waiter w none }.threadUnblock t := by
      unfold State.threadUnblock
      dsimp only
      split_ifs
      rfl
    rw [hswap]
    exact ⟨hwithout.threadUnblock hblocked (by dsimp only; grind) (by dsimp only; grind)
      (by dsimp only; grind [update_apply]), fun u hu => threadUnblock_of_ne _ (by grind)⟩
  · exact ⟨h, fun _ _ => rfl⟩

theorem Inv.startThread (h : s.Inv) (hpoint : (s.thread s.current).point = .creating t) : s.Keeps (s.startThread t) := by
  have hcur := h.current
  have hzero := h.sleepTicks_eq_zero (by grind)
  obtain ⟨hblocked, hborn⟩ := h.base.created _ _ hpoint
  have hfits := h.base.fits t
  have hticks : (s.thread t).sleepTicks = 0 := by grind [Thread.Counter]
  have hne : t ≠ s.current := by grind
  have hself : ((s.goto s.current .running).goto t .running).thread t = { s.thread t with point := .running } := by
    dsimp only [State.goto, State.put]
    rw [update_self, update_of_ne hne]
  have hinv : ((s.goto s.current .running).goto t .running).Inv := by
    dsimp only [State.goto, State.put]
    refine ⟨⟨fun u => ?_, fun c u hc => ?_, ⟨h.base.lists.ready, h.base.lists.waiters, h.base.lists.all,
      h.base.lists.lt⟩, h.base.panic⟩, ?_, fun u hu => ?_⟩
    · have hu := h.base.fits u
      constructor <;> grind [update_apply, Thread.Counter]
    · -- the thread that has created it was the only one that had a pointer to it
      have hcreated := h.base.created c u
      grind [update_apply]
    · grind [update_apply]
    · have honly := h.only u
      grind [update_apply]
  refine ⟨hinv.threadUnblock (hself ▸ hblocked) (by grind) ?_ ?_, fun u hu => ?_⟩
  · dsimp only [State.goto, State.put]
    grind
  · dsimp only [State.goto, State.put]
    grind
  · unfold State.startThread
    rw [threadUnblock_of_ne _ (by grind)]
    dsimp only [State.goto, State.put]
    grind [update_apply]

end State
end Cs162.Threads.Sleep
