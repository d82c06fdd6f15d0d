import Cs162.Threads.ReadyQueues

namespace Cs162.Threads.Mlfqs.State
open Lib
variable {s : State} {nice : ℤ} {q : Fin 64}

def reniced (s : State) (nice : ℤ) : Thread :=
  { s.thread s.current with
    nice := nice
    recentCpu := faddI (fmulF (fdivF (s.loadAvg * 2) (faddI (s.loadAvg * 2) 1)) (s.thread s.current).recentCpu) nice }

def YieldsExactly (s : State) (nice : ℤ) : Prop :=
  ∃ r, s.threadSetNice nice = some r ∧
    (r.1 = true ↔ ∃ t, s.Queued t ∧ (r.2.thread s.current).priority < (s.thread t).priority)

theorem modify_modify (s : State) (t : ℕ) (f g : Thread → Thread) :
    (s.modify t f).modify t g = s.modify t fun th => g (f th) := by
  unfold modify
  dsimp only
  rw [Function.update_idem, Function.update_self]

theorem current_modify (s : State) (t : ℕ) (f : Thread → Thread) : (s.modify t f).current = s.current := rfl

theorem threadSetNice_eq (hrun : (s.thread s.current).status = .running) (hnice : -20 ≤ nice ∧ nice ≤ 20) :
    s.threadSetNice nice =
      let s' := s.modify s.current fun _ => { s.reniced nice with priority := newPriority (s.reniced nice) }
      some (if newPriority (s.reniced nice) < s.firstQueue.getD 0 then s'.threadYield else s'.stay) := by
  have hcpu : (s.modify s.current ({ · with nice })).threadRefreshRecentCpu s.current =
      s.modify s.current fun _ => s.reniced nice := by
    unfold threadRefreshRecentCpu
    rw [modify_modify]
    rfl
  have hpriority : (s.modify s.current fun _ => s.reniced nice).threadRefreshPriority s.current =
      s.modify s.current fun _ => { s.reniced nice with priority := newPriority (s.reniced nice) } := by
    have hstill : ((s.modify s.current fun _ => s.reniced nice).thread s.current).status = .running := by
      rw [modify_self]
      exact hrun
    unfold threadRefreshPriority
    rw [hstill, modify_modify]
    exact if_neg fun h => absurd h.1 (by decide)
  unfold threadSetNice
  rw [if_pos hnice]
  simp only [current_modify, hcpu, hpriority, modify_self]
  rfl

def Top (s : State) (q : Fin 64) : Prop :=
  (∃ t, s.Queued t ∧ (s.thread t).priority = q) ∧ ∀ t, s.Queued t → (s.thread t).priority ≤ q

theorem QueuesRight.top (h : s.QueuesRight) {i : Fin 64} (hi : s.firstQueue = some i) : s.Top i.rev := by
  obtain ⟨hne, habove⟩ := firstQueue_eq_some hi
  obtain ⟨t, ht⟩ := List.exists_mem_of_ne_nil _ hne
  refine ⟨⟨t, ((h i.rev).2 t).mp ht⟩, fun u hu => ?_⟩
  by_contra hlt
  have hmem : u ∈ s.ready.queue (s.thread u).priority := ((h _).2 u).mpr ⟨hu, rfl⟩
  rw [habove _ (not_le.mp hlt)] at hmem
  exact List.not_mem_nil hmem

theorem QueuesRight.not_queued (h : s.QueuesRight) (hnone : s.firstQueue = none) (t : ℕ) : ¬ s.Queued t := by
  intro ht
  have hmem : t ∈ s.ready.queue (s.thread t).priority := ((h _).2 t).mpr ⟨ht, rfl⟩
  rw [firstQueue_eq_none hnone] at hmem
  exact List.not_mem_nil hmem

theorem Top.unique {q' : Fin 64} (h : s.Top q) (h' : s.Top q') : q = q' := by
  obtain ⟨⟨t, ht, rfl⟩, hle⟩ := h
  obtain ⟨⟨t', ht', rfl⟩, hle'⟩ := h'
  exact le_antisymm (hle' t ht) (hle t' ht')

theorem priority_threadYield (s : State) :
    (s.threadYield.2.thread s.current).priority = (s.thread s.current).priority := by
  unfold threadYield switch setStatus
  dsimp only
  rw [modify_self]
  split_ifs <;> rfl

theorem threadSetNice_result (hrun : (s.thread s.current).status = .running) (hnice : -20 ≤ nice ∧ nice ≤ 20) :
    ∃ r, s.threadSetNice nice = some r ∧ (r.2.thread s.current).priority = newPriority (s.reniced nice) ∧
      (r.1 = true ↔ newPriority (s.reniced nice) < s.firstQueue.getD 0) := by
  refine ⟨_, threadSetNice_eq hrun hnice, ?_, ?_⟩
  · have hself := modify_self s s.current fun _ => { s.reniced nice with priority := newPriority (s.reniced nice) }
    split_ifs
    · exact (priority_threadYield (s.modify s.current _)).trans (congrArg Thread.priority hself)
    · exact congrArg Thread.priority hself
  · split_ifs with hless
    · exact iff_of_true rfl hless
    · exact iff_of_false Bool.false_ne_true hless

theorem yieldsExactly_iff (hqueues : s.QueuesRight) (hrun : (s.thread s.current).status = .running)
    (hnice : -20 ≤ nice ∧ nice ≤ 20) :
    s.YieldsExactly nice ↔ ∀ q, s.Top q →
      newPriority (s.reniced nice) < q ∧ newPriority (s.reniced nice) < q.rev ∨
        q ≤ newPriority (s.reniced nice) ∧ q.rev ≤ newPriority (s.reniced nice) := by
  obtain ⟨r, hr, hpriority, hyields⟩ := threadSetNice_result hrun hnice
  have hexactly : s.YieldsExactly nice ↔ (newPriority (s.reniced nice) < s.firstQueue.getD 0 ↔
      ∃ t, s.Queued t ∧ newPriority (s.reniced nice) < (s.thread t).priority) := by
    rw [← hyields, ← hpriority]
    constructor
    · rintro ⟨r', hr', h⟩
      obtain rfl := Option.some.inj (hr.symm.trans hr')
      exact h
    · exact fun h => ⟨r, hr, h⟩
  rw [hexactly]
  generalize newPriority (s.reniced nice) = p
  cases hfirst : s.firstQueue with
  | none =>
    refine iff_of_true ?_ fun q hq => ?_
    · refine iff_of_false (Fin.not_lt_zero p) ?_
      rintro ⟨t, ht, -⟩
      exact hqueues.not_queued hfirst t ht
    · obtain ⟨⟨t, ht, -⟩, -⟩ := hq
      exact absurd ht (hqueues.not_queued hfirst t)
  | some i =>
    have htop := hqueues.top hfirst
    have hhigher : (∃ t, s.Queued t ∧ p < (s.thread t).priority) ↔ p < i.rev := by
      constructor
      · rintro ⟨t, ht, hlt⟩
        exact hlt.trans_le (htop.2 t ht)
      · obtain ⟨⟨t, ht, hpri⟩, -⟩ := htop
        exact fun hlt => ⟨t, ht, hpri ▸ hlt⟩
    have hall : (∀ q, s.Top q → p < q ∧ p < q.rev ∨ q ≤ p ∧ q.rev ≤ p) ↔ p < i.rev ∧ p < i ∨ i.rev ≤ p ∧ i ≤ p := by
      constructor
      · intro h
        have := h i.rev htop
        rwa [Fin.rev_rev] at this
      · intro h q hq
        rw [hq.unique htop, Fin.rev_rev]
        exact h
    rw [hhigher, hall, Option.getD_some, ← not_lt, ← not_lt]
    exact Iff.comm.trans iff_iff_and_or_not_and_not

theorem reach_two_threads :
    ∃ s, system.Reach s ∧ s.Queued 3 ∧ (s.thread 3).priority = 63 ∧ newPriority (s.reniced 0) = 63 ∧
      newPriority (s.reniced 20) = 18 := by
  have hrun : (System.runVia step (fun _ _ => True) boot
      [.create 0, .block, .becomeIdle, .unblock 1, .block, .create 31, .tick, .tick, .tick, .tick]).map
        (fun s => (decide ((s.thread 3).status = .ready ∧ some 3 ≠ s.idleThread), (s.thread 3).priority,
          newPriority (s.reniced 0), newPriority (s.reniced 20))) = some (true, 63, 63, 18) := by decide +kernel
  obtain ⟨s, hs, hv⟩ := Option.map_eq_some_iff.mp hrun
  simp only [Prod.mk.injEq] at hv
  have hqueued : (s.thread 3).status = .ready ∧ some 3 ≠ s.idleThread := of_decide_eq_true hv.1
  exact ⟨s, System.ReachVia.run (.init rfl) hs, hqueued, hv.2⟩

theorem yieldsExactly_same_nice : ∃ s, system.Reach s ∧ s.Queued 3 ∧ s.YieldsExactly 0 := by
  obtain ⟨s, hs, hready, -, hhigh, -⟩ := reach_two_threads
  have hi := inv_of_reach hs
  refine ⟨s, hs, hready, (yieldsExactly_iff hi.queuesRight hi.current (by decide)).mpr fun q _ => .inr ?_⟩
  rw [hhigh]
  exact ⟨Fin.le_last q, Fin.le_last q.rev⟩

theorem not_yieldsExactly_nicest :
    ∃ s, system.Reach s ∧ s.QueuesRight ∧ (s.thread s.current).status = .running ∧ ¬ s.YieldsExactly 20 := by
  obtain ⟨s, hs, hready, htop, -, hlow⟩ := reach_two_threads
  have hi := inv_of_reach hs
  refine ⟨s, hs, hi.queuesRight, hi.current, ?_⟩
  rintro ⟨r, hr, hexactly⟩
  have hnice : -20 ≤ (20 : ℤ) ∧ (20 : ℤ) ≤ 20 := by decide
  obtain ⟨r', hr', hpriority, hyields⟩ := threadSetNice_result hi.current hnice
  obtain rfl := Option.some.inj (hr.symm.trans hr')
  have hless : newPriority (s.reniced 20) < s.firstQueue.getD 0 :=
    hyields.mp (hexactly.mpr ⟨3, hready, by rw [hpriority, hlow, htop]; decide⟩)
  cases hfirst : s.firstQueue with
  | none => exact hi.queuesRight.not_queued hfirst 3 hready
  | some i =>
    -- the highest queue is the first one looked at
    have hrev : i.rev = 63 := le_antisymm (Fin.le_last _) (htop ▸ (hi.queuesRight.top hfirst).2 3 hready)
    obtain rfl : i = 0 := Fin.rev_injective hrev
    rw [hfirst, hlow] at hless
    exact absurd hless (by decide)

end Cs162.Threads.Mlfqs.State
