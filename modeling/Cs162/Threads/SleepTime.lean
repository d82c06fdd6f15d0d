import Cs162.Threads.WakeUp

namespace Cs162.Threads.Sleep
open Lib Function

def Thread.woken (th : Thread) : Thread :=
  if th.status = .blocked ∧ 0 < th.sleepTicks then
    { th with
      sleepTicks := th.sleepTicks - 1
      status := if th.sleepTicks - 1 = 0 then .ready else .blocked }
  else th

theorem Thread.Counter.asleep {th : Thread} (h : th.Counter) (hblocked : th.status = .blocked)
    (hpos : 0 < th.sleepTicks) : th.Asleep := by
  refine ⟨hblocked, ?_⟩
  obtain ⟨status, sleepTicks, point⟩ := th
  cases point with
  | sleeping ticks => exact absurd hblocked h.2.2
  | asleep => rfl
  | newborn creator => exact absurd h.1 hpos.ne'
  | _ => exact absurd h hpos.ne'

namespace State
variable {s s' : State} {t next : ℕ} {op : Op} {n : ℤ}

theorem wakeThreads_of_not (s : State) (hnot : ¬ ((s.thread t).status = .blocked ∧ 0 < (s.thread t).sleepTicks)) :
    s.wakeThreads t = s := by
  unfold wakeThreads
  by_cases hblocked : (s.thread t).status = .blocked
  · rw [if_pos hblocked, if_neg fun hpos => hnot ⟨hblocked, hpos⟩]
  · rw [if_neg hblocked]

theorem wakeThreads_of_sleeps (s : State) (hsleeps : (s.thread t).status = .blocked ∧ 0 < (s.thread t).sleepTicks) :
    s.wakeThreads t =
      if (s.thread t).sleepTicks - 1 = 0 then { s.put t (s.thread t).woken with readyList := s.readyList ++ [t] }
      else s.put t (s.thread t).woken := by
  have hself : (s.put t { s.thread t with sleepTicks := (s.thread t).sleepTicks - 1 }).thread t =
      { s.thread t with sleepTicks := (s.thread t).sleepTicks - 1 } := update_self ..
  unfold wakeThreads Thread.woken
  rw [if_pos hsleeps.1, if_pos hsleeps.2, if_pos hsleeps]
  dsimp only
  rw [hself]
  dsimp only
  split_ifs with hlast
  · unfold threadUnblock
    rw [hself, if_pos hsleeps.1]
    unfold put
    rw [update_idem]
  · rw [← hsleeps.1]

theorem thread_wakeThreads (s : State) (t : ℕ) :
    (s.wakeThreads t).thread = update s.thread t (s.thread t).woken := by
  by_cases hsleeps : (s.thread t).status = .blocked ∧ 0 < (s.thread t).sleepTicks
  · rw [wakeThreads_of_sleeps s hsleeps]
    split_ifs <;> rfl
  · rw [wakeThreads_of_not s hsleeps, Thread.woken, if_neg hsleeps, update_eq_self]

theorem Inv.wakeThreads (h : s.Inv) : (s.wakeThreads t).Inv := by
  by_cases hsleeps : (s.thread t).status = .blocked ∧ 0 < (s.thread t).sleepTicks
  · obtain ⟨hblocked, hpos⟩ := hsleeps
    have hfits := h.base.fits t
    have hpoint := (hfits.counter.asleep hblocked hpos).2
    have hwaits : ∀ q, t ∉ (s.sema q).waiters := by grind
    have hqueued : ∀ w, s.waiter w ≠ some t := by grind
    have hnot : ∀ c, (s.thread c).point ≠ .creating t :=
      fun c hc => Point.noConfusion (hpoint.symm.trans (h.base.created c t hc).2)
    have hwoken : (s.thread t).woken = ⟨if (s.thread t).sleepTicks - 1 = 0 then .ready else .blocked,
        (s.thread t).sleepTicks - 1, .asleep⟩ := by
      rw [Thread.woken, if_pos ⟨hblocked, hpos⟩, hpoint]
    have hnonneg : 0 ≤ (s.thread t).sleepTicks - 1 := Int.sub_nonneg_of_le hpos
    rw [wakeThreads_of_sleeps s ⟨hblocked, hpos⟩, hwoken]
    split_ifs with hlast
    · refine h.makeReady hblocked rfl hpoint.symm ⟨hnonneg, ?_⟩ hwaits hqueued hnot fun _ => Point.noConfusion
      exact iff_of_false Mlfqs.Status.noConfusion fun hmore => hmore.ne' hlast
    · exact h.other (l := s.readyList) hblocked (by grind) (by grind) h.base.lists.ready hpoint.symm
        ⟨hnonneg, iff_of_true rfl (lt_of_le_of_ne hnonneg (Ne.symm hlast))⟩ hwaits hqueued hnot fun _ => Point.noConfusion
  · rw [wakeThreads_of_not s hsleeps]
    exact h

theorem thread_foldl_wakeThreads {l : List ℕ} (hl : l.Nodup) (s : State) (t : ℕ) :
    (l.foldl wakeThreads s).thread t = if t ∈ l then (s.thread t).woken else s.thread t := by
  induction l generalizing s with
  | nil => rfl
  | cons u l ih =>
    obtain ⟨hout, hl⟩ := List.nodup_cons.mp hl
    rw [List.foldl_cons, ih hl, thread_wakeThreads]
    by_cases htu : t = u
    · subst htu
      rw [update_self, if_neg hout, if_pos List.mem_cons_self]
    · rw [update_of_ne htu]
      simp only [List.mem_cons, htu, false_or]

theorem Inv.foldl_wakeThreads (h : s.Inv) (l : List ℕ) : (l.foldl State.wakeThreads s).Inv := by
  induction l generalizing s with
  | nil => exact h
  | cons u l ih => exact ih h.wakeThreads

theorem Inv.timerInterrupt (h : s.Inv) :
    s.timerInterrupt.Inv ∧ ∀ t, s.timerInterrupt.thread t = (s.thread t).woken := by
  refine ⟨h.foldl_wakeThreads s.allList, fun t => ?_⟩
  rw [State.timerInterrupt, thread_foldl_wakeThreads h.base.lists.all]
  split_ifs with hin
  · rfl
  · rw [Thread.woken, if_neg fun hsleeps => hin ((h.base.fits t).listed (by rw [hsleeps.1]; decide))]

theorem Inv.fallAsleep (h : s.Inv) (hpoint : (s.thread s.current).point = .sleeping n)
    (hs : s.threadBlock .asleep next = some s') :
    s.Keeps s' ∧ s'.thread s.current = ⟨.blocked, n, .asleep⟩ ∧ 0 < n := by
  have hfits := h.base.fits s.current
  have hcur := h.current
  have hcounter := hfits.counter
  unfold Thread.Counter at hcounter
  rw [hpoint] at hcounter
  obtain ⟨hticks, hpos, -⟩ := hcounter
  have hnot : s.idleThread ≠ some s.current := by grind
  refine ⟨h.threadBlock hs (fun _ _ => .inl) h.base.lists.waiters (fun _ _ => .inl) (fun hidle => absurd hidle hnot) ?_
    fun _ => Point.noConfusion, ?_, hpos⟩
  · rw [hticks]
    exact ⟨hpos.le, iff_of_true rfl hpos⟩
  · have hready : s.current ∉ s.readyList := by grind
    rw [schedule_of_not_ready hs hready hnot, ← hticks]
    exact update_self ..

theorem Inv.proceed (h : s.Inv) (hs : s.proceed next = some s') : s.Keeps s' := by
  unfold State.proceed at hs
  cases hpoint : (s.thread s.current).point with
  | sleeping ticks =>
    rw [hpoint] at hs
    exact (h.fallAsleep hpoint hs).1
  | asleep | queued w =>
    rw [hpoint] at hs
    cases hs
    exact h.return (fun _ => rfl) (by grind)
  | downing q =>
    rw [hpoint] at hs
    exact h.semaDown (by grind) hs
  | creating t =>
    rw [hpoint] at hs
    cases hs
    exact h.startThread hpoint
  | idling =>
    rw [hpoint] at hs
    exact h.threadBlock hs (fun _ _ => .inl) h.base.lists.waiters (fun _ _ => .inl) (fun _ => rfl)
      (h.sleepTicks_eq_zero (by grind)) fun _ => Point.noConfusion
  | running | newborn c =>
    rw [hpoint] at hs
    cases hs

theorem Inv.call (h : s.Inv) (hpoint : (s.thread s.current).point = .running) (hs : s.call op = some s') : s.Keeps s' := by
  have hplain : (∀ ticks, (s.thread s.current).point ≠ .sleeping ticks) ∧ (s.thread s.current).point ≠ .idling := by
    grind
  cases op with
  | sleep ticks =>
    cases hs
    exact h.timerSleep hpoint
  | down q next => exact h.semaDown hplain hs
  | wait w next => exact h.wait hpoint hs
  | create =>
    cases hs
    exact h.initThread hpoint
  | exit next => exact h.threadExit hpoint hs
  | becomeIdle =>
    unfold State.call at hs
    dsimp only at hs
    split_ifs at hs with hnone
    cases hs
    have hkeeps : s.Keeps ({ s with idleThread := some s.current }.put s.current ⟨.running, 0, .idling⟩) :=
      h.change (fun _ => rfl) (by grind) (fun _ => rfl) rfl fun _ => Point.noConfusion
    unfold State.goto
    dsimp only
    rw [h.current, h.sleepTicks_eq_zero hplain.1]
    exact hkeeps
  | _ => cases hs

theorem Inv.step (h : s.Inv) (hs : s.step op = some s') (hop : op ≠ .tick) : s.Keeps s' := by
  unfold State.step at hs
  rw [if_neg (Bool.eq_false_iff.mp h.base.panic)] at hs
  cases op with
  | proceed next => exact h.proceed hs
  | yield next => exact h.threadYield hs
  | tryDown q =>
    cases hs
    exact h.semaTryDown
  | up q t => exact h.semaUp hs
  | signal w =>
    cases hs
    exact h.signal
  | tick => exact absurd rfl hop
  | _ =>
    dsimp only at hs
    split_ifs at hs with hpoint
    exact h.call hpoint hs

theorem step_tick (h : s.Inv) (hs : s.step .tick = some s') : s' = s.timerInterrupt := by
  unfold step at hs
  rw [h.base.panic] at hs
  exact (Option.some.inj hs).symm

theorem inv_boot (value : ℕ → ℕ) : (boot value).Inv := by
  dsimp only [boot]
  refine ⟨⟨fun t => ⟨rfl, ?_, ?_, ?_, ?_, ?_⟩, fun t u hu => Point.noConfusion hu, ?_, rfl⟩, rfl, ?_⟩
  rotate_left 5
  · exact ⟨List.nodup_nil, fun _ => List.nodup_nil, List.nodup_singleton 1,
      fun t ht => Nat.lt_succ_of_le (Nat.le_of_eq (List.mem_singleton.mp ht))⟩
  all_goals grind

theorem inv_of_reach (h : system.Reach s) : s.Inv := by
  refine h.invariant (I := Inv) ?_ fun s op s' hs _ hstep => ?_
  · rintro s ⟨value, rfl⟩
    exact inv_boot value
  · by_cases hop : op = .tick
    · subst hop
      rw [step_tick hs hstep]
      exact hs.timerInterrupt.1
    · exact (hs.step hstep hop).inv

def WakesAfter (s : State) (t : ℕ) (n : ℤ) : Prop :=
  ∀ ops s', System.runVia step (fun _ _ => True) s ops = some s' → (ops.count .tick : ℤ) < n →
    (s'.thread t).status = .blocked ∧
      ((ops.count .tick : ℤ) + 1 = n → (s'.timerInterrupt.thread t).status = .ready)

theorem Inv.wakesAfter (h : s.Inv) (ht : s.thread t = ⟨.blocked, n, .asleep⟩) : s.WakesAfter t n := by
  intro ops
  induction ops generalizing s n with
  | nil =>
    intro s' hs' hpos
    cases hs'
    rw [List.count_nil] at hpos ⊢
    refine ⟨by rw [ht], fun hlast => ?_⟩
    have hn : n = 1 := hlast.symm
    rw [h.timerInterrupt.2 t, ht, hn]
    rfl
  | cons op ops ih =>
    intro s' hs' hless
    rw [System.runVia, if_pos trivial] at hs'
    obtain ⟨s₁, hstep, hrest⟩ := Option.bind_eq_some_iff.mp hs'
    by_cases hop : op = .tick
    · subst hop
      rw [List.count_cons_self] at hless ⊢
      rw [step_tick h hstep] at hrest
      obtain ⟨hinv, hwoken⟩ := h.timerInterrupt
      have hmore : 0 < n ∧ n - 1 ≠ 0 := by omega
      have hslept : s.timerInterrupt.thread t = ⟨.blocked, n - 1, .asleep⟩ := by
        rw [hwoken t, ht, Thread.woken, if_pos ⟨rfl, hmore.1⟩]
        dsimp only
        rw [if_neg hmore.2]
      obtain ⟨hblocked, hready⟩ := ih hinv hslept s' hrest (by omega)
      exact ⟨hblocked, fun hlast => hready (by omega)⟩
    · rw [List.count_cons_of_ne hop] at hless ⊢
      have hkeeps := h.step hstep hop
      have hsame := hkeeps.asleep t (by rw [ht]; exact ⟨rfl, rfl⟩)
      exact ih hkeeps.inv (hsame.trans ht) s' hrest hless

theorem sleep_on_time (h : system.Reach s) :
    s.panic = false ∧
      (∀ t q, (s.thread t).point = .downing q → s.timerInterrupt.thread t = s.thread t) ∧
      ∀ n next s', (s.thread s.current).point = .sleeping n → s.step (.proceed next) = some s' →
        0 < n ∧ s'.WakesAfter s.current n := by
  have hi := inv_of_reach h
  refine ⟨hi.base.panic, fun t q hpoint => ?_, fun n next s' hpoint hs => ?_⟩
  · have hcounter := (hi.base.fits t).counter
    unfold Thread.Counter at hcounter
    rw [hpoint] at hcounter
    rw [hi.timerInterrupt.2 t, Thread.woken, if_neg]
    rintro ⟨-, hpos⟩
    exact hpos.ne' hcounter
  · unfold step at hs
    rw [if_neg (Bool.eq_false_iff.mp hi.base.panic)] at hs
    dsimp only at hs
    unfold proceed at hs
    rw [hpoint] at hs
    obtain ⟨hkeeps, hasleep, hpos⟩ := hi.fallAsleep hpoint hs
    exact ⟨hpos, hkeeps.inv.wakesAfter hasleep⟩

theorem sleep_on_time_preempted : ∃ s s', system.Reach s ∧ (s.thread 1).point = .sleeping 2 ∧
    s.step (.proceed 2) = some s' ∧ s'.WakesAfter 1 2 := by
  have hrun : (System.runVia step (fun _ _ => True) (boot fun _ => 0)
      [.create, .proceed 0, .sleep 2, .yield 2, .tick, .yield 1]).map
        (fun s => (s.current, (s.thread s.current).point, (s.step (.proceed 2)).isSome)) =
          some (1, .sleeping 2, true) := by decide +kernel
  obtain ⟨s, hs, hv⟩ := Option.map_eq_some_iff.mp hrun
  simp only [Prod.mk.injEq] at hv
  obtain ⟨hcurrent, hpoint, hblocks⟩ := hv
  have hreach : system.Reach s := System.ReachVia.run (.init ⟨_, rfl⟩) hs
  obtain ⟨s', hs'⟩ := Option.isSome_iff_exists.mp hblocks
  have hwakes := (sleep_on_time hreach).2.2 2 2 s' hpoint hs'
  rw [hcurrent] at hpoint hwakes
  exact ⟨s, s', hreach, hpoint, hs', hwakes.2⟩

/-- No thread is in two queues, or twice in one. -/
theorem one_place (h : system.Reach s) (t : ℕ) :
    ((s.thread t).status = .running ↔ t = s.current) ∧ s.readyList.count t ≤ 1 ∧
      (t ∈ s.readyList → (s.thread t).status = .ready) ∧ ∀ q, (s.sema q).waiters.count t ≤ 1 ∧
        (t ∈ (s.sema q).waiters → (s.thread t).status = .blocked ∧ ∀ q', t ∈ (s.sema q').waiters → q' = q) := by
  have hi := inv_of_reach h
  have hfits := hi.base.fits t
  have hlists := hi.base.lists
  refine ⟨⟨hi.only t, fun ht => ht ▸ hi.current⟩, List.nodup_iff_count_le_one.mp hlists.ready t, hfits.ready,
    fun q => ⟨List.nodup_iff_count_le_one.mp (hlists.waiters q) t, fun hwait => ?_⟩⟩
  -- a blocked thread is at the `sema_down` of the semaphore that lists it
  grind

theorem one_place_created : ∃ s, system.Reach s ∧ 1 ∈ s.readyList ∧ (s.thread 1).status = .ready := by
  have hrun : (System.runVia step (fun _ _ => True) (boot fun _ => 0) [.create, .proceed 0, .yield 2]).map
      (fun s => decide (1 ∈ s.readyList)) = some true := by decide +kernel
  obtain ⟨s, hs, hready⟩ := Option.map_eq_some_iff.mp hrun
  have hreach : system.Reach s := System.ReachVia.run (.init ⟨_, rfl⟩) hs
  exact ⟨s, hreach, of_decide_eq_true hready, (one_place hreach 1).2.2.1 (of_decide_eq_true hready)⟩

end State
end Cs162.Threads.Sleep
