import Cs162.Threads.PriorityExact

namespace Cs162.Threads.Scheduler
open Lib Function Option

variable {s s' : Scheduler} {t lock : ℕ}

def Busy (s : Scheduler) (lock : ℕ) : Prop := s.holder lock ≠ none ∨ s.waiters lock ≠ []

structure ListsBusy (s : Scheduler) : Prop where
  nodup : s.lockList.Nodup
  mem : ∀ lock, lock ∈ s.lockList ↔ s.Busy lock

structure Listed (s : Scheduler) : Prop extends ListsBusy s where
  value : ∀ lock, s.value lock = if s.holder lock = none then 1 else 0
  pending : ∀ t lock, s.point t = .acquiring lock ∨ s.point t = .releasing lock → s.waiters lock ≠ []

theorem Listed.schedule (hl : s.Listed) : s.schedule.Listed := by
  rw [Scheduler.schedule]
  split <;> exact ⟨⟨hl.nodup, hl.mem⟩, hl.value, hl.pending⟩

theorem Listed.threadYield (hl : s.Listed) : (s.threadYield t).Listed :=
  Listed.schedule ⟨⟨hl.nodup, hl.mem⟩, hl.value, hl.pending⟩

theorem Listed.setPoint (hl : s.Listed) {point : Point}
    (hp : ∀ lock, point = .acquiring lock ∨ point = .releasing lock → s.waiters lock ≠ []) :
    (s.setPoint t point).Listed := by
  refine ⟨⟨hl.nodup, hl.mem⟩, hl.value, fun u lock' hu => ?_⟩
  have hpending := hl.pending u lock'
  dsimp only [Scheduler.setPoint] at hu ⊢
  grind [update_apply]

theorem Listed.resetDonatePriority (hl : s.Listed) (hr : s.resetDonatePriority = some s') :
    s'.Listed ∧ s'.lockList = s.lockList := by
  refine settle_invariant (I := fun s1 => s1.Listed ∧ s1.lockList = s.lockList)
    (fun lock _ s1 s₂ h1 hd => ?_) ⟨hl, rfl⟩ hr
  obtain ⟨h, -, hd⟩ := map_eq_some_iff.mp hd
  split_ifs at hd
  cases hd
  exact ⟨⟨⟨h1.1.nodup, h1.1.mem⟩, h1.1.value, h1.1.pending⟩, h1.2⟩

theorem Listed.isInitial_iff (hl : s.Listed) : s.isInitial lock ↔ ¬ s.Busy lock := by
  have hv := hl.value lock
  rw [isInitial, Busy]
  rcases hh : s.holder lock with _ | h
  · rw [hh] at hv
    simp [hv]
  · simp

theorem Listed.relock (hl : s.Listed) (lock : ℕ) {h : Option ℕ} {r : List ℕ}
    (hholder : ∀ x, s'.holder x = if x = lock then h else s.holder x)
    (hvalue : ∀ x, s'.value x = if x = lock then (if h = none then 1 else 0) else s.value x)
    (hwaiters : ∀ x, s'.waiters x = if x = lock then r else s.waiters x)
    (hpoint : ∀ u, s'.point u = s.point u ∨ s'.point u = .running ∨ s'.point u = .acquiring lock ∧ r ≠ [])
    (hr : r = [] → s.waiters lock = []) (hnodup : s'.lockList.Nodup)
    (hlist : ∀ x, x ∈ s'.lockList ↔ if x = lock then h ≠ none ∨ r ≠ [] else x ∈ s.lockList) : s'.Listed := by
  refine ⟨⟨hnodup, fun x => ?_⟩, fun x => ?_, fun u x hu => ?_⟩
  · have hmem := hl.mem x
    grind [Busy]
  · have hbefore := hl.value x
    grind
  · have hpending := hl.pending u x
    grind

theorem Listed.taken (hl : s.Listed) (hv : s.value lock ≠ 0)
    (hholder : s'.holder = update s.holder lock (some t))
    (hvalue : s'.value = update s.value lock (s.value lock - 1))
    (hwaiters : s'.waiters = s.waiters) (hpoint : ∀ u, s'.point u = s.point u ∨ s'.point u = .running)
    (hnodup : s'.lockList.Nodup)
    (hlist : ∀ lock', lock' ∈ s'.lockList ↔ lock' ∈ s.lockList ∨ lock' = lock) : s'.Listed := by
  have hone : s.value lock = 1 := by
    have hbefore := hl.value lock
    grind
  refine hl.relock lock (h := some t) (r := s.waiters lock) (fun x => ?_) (fun x => ?_) (by grind) (by grind) id hnodup
    (by grind)
  · rw [hholder, update_apply]
  · rw [hvalue, update_apply, hone]
    rfl

theorem setPoint_point_cases (s : Scheduler) (t u : ℕ) :
    (s.setPoint t .running).point u = s.point u ∨ (s.setPoint t .running).point u = .running := by
  dsimp only [setPoint]
  grind [update_apply]

theorem Listed.semaDown (hl : s.Listed) (hlock : lock ∈ s.lockList) :
    (s.semaDown t lock).Listed := by
  rw [Scheduler.semaDown]
  split_ifs with h0
  · have hheld := hl.value lock
    have hne : s.waiters lock ++ [t] ≠ [] := by simp
    dsimp only [Scheduler.setPoint]
    exact Listed.schedule (hl.relock lock (h := s.holder lock) (r := s.waiters lock ++ [t]) (by grind)
      (by grind) (fun x => update_apply ..) (by grind [update_apply]) (fun hnil => absurd hnil hne) hl.nodup
      (by grind))
  · refine hl.taken h0 rfl rfl rfl (s.setPoint_point_cases t) hl.nodup fun lock' => ?_
    dsimp only [Scheduler.setPoint]
    grind

theorem Listed.donateTo (hl : s.Listed) (hs : s.donateTo t lock = some s') :
    s'.Listed ∧ s'.lockList = s.lockList := by
  rw [Scheduler.donateTo] at hs
  split at hs
  · split_ifs at hs
    · exact Listed.resetDonatePriority (s := s.raise _ _)
        ⟨⟨hl.nodup, hl.mem⟩, hl.value, hl.pending⟩ hs
    · exact hl.resetDonatePriority hs
  · cases hs
    exact ⟨hl, rfl⟩

theorem Listed.lockAcquire (hl : s.Listed) (hs : s.lockAcquire t lock = some s') : s'.Listed := by
  simp only [Scheduler.lockAcquire] at hs
  split_ifs at hs with hheld hinit
  · have hfree := hl.isInitial_iff.mp hinit
    have hnot : lock ∉ s.lockList := fun h => hfree ((hl.mem lock).mp h)
    have hholder : s.holder lock = none := not_not.mp fun h => hfree (.inl h)
    have hv : s.value lock ≠ 0 := by
      rw [hl.value, hholder]
      decide
    simp only [appendLockList, if_neg hnot, bind_some, Scheduler.donateTo, hholder,
      map_some] at hs
    cases hs
    rw [Scheduler.semaDown, if_neg hv]
    have hnodup := hl.nodup
    refine hl.taken hv rfl rfl rfl (s.setPoint_point_cases t) ?_ fun lock' => ?_
    all_goals
      dsimp only [Scheduler.setPoint]
      grind
  · have hbusy : s.Busy lock := not_not.mp fun h => hinit (hl.isInitial_iff.mpr h)
    obtain ⟨s1, hs1, rfl⟩ := map_eq_some_iff.mp hs
    obtain ⟨hl1, hlist⟩ := hl.donateTo hs1
    exact hl1.semaDown (hlist ▸ (hl.mem lock).mpr hbusy)

theorem Listed.lockTryAcquire (hl : s.Listed) (hc : s.value lock ≠ 0 → lock ∈ s.lockList)
    (hs : s.lockTryAcquire t lock = some s') : s'.Listed := by
  simp only [Scheduler.lockTryAcquire] at hs
  split_ifs at hs with hheld hv <;> cases hs
  · exact hl
  · exact hl.taken hv rfl rfl rfl (fun _ => .inl rfl) hl.nodup (by grind)

theorem dropLock_nonneg (s : Scheduler) (t lock : ℕ) : 0 ≤ (s.dropLock t lock).priority t := by
  simp only [dropLock, raise, update_self]
  have h : 0 ≤ maxDonatePriority
      { s with allLocks := update s.allLocks t ((s.allLocks t).erase lock) } t :=
    (foldl_if_max _ _ 0).2.2
  split_ifs with hlt
  · exact h
  · exact h.trans (not_lt.mp hlt)

theorem Listed.dropped (hl : s.Listed) {r : List ℕ} (hr : r = [] → s.waiters lock = [])
    (hholder : s'.holder = update s.holder lock none)
    (hvalue : s'.value = update s.value lock 1)
    (hwaiters : s'.waiters = update s.waiters lock r)
    (hpoint : s'.point = s.point) (hnodup : s'.lockList.Nodup)
    (hlist : ∀ x, x ∈ s'.lockList ↔ if x = lock then r ≠ [] else x ∈ s.lockList) : s'.Listed := by
  refine hl.relock lock (h := none) (r := r) (fun x => ?_) (fun x => ?_) (fun x => ?_) (fun u => .inl (by rw [hpoint])) hr
    hnodup (by grind)
  · rw [hholder, update_apply]
  · rw [hvalue, update_apply]
    rfl
  · rw [hwaiters, update_apply]

theorem Listed.lockRelease (hl : s.Listed) (hh : s.holder lock = some t)
    (hc : (s.waiters lock).length ≠ 1) : ∃ s', s.lockRelease t lock = some s' ∧ s'.Listed := by
  have hv : s.value lock = 0 := by
    rw [hl.value, hh]
    rfl
  have hmem : lock ∈ s.lockList := (hl.mem lock).mpr (.inl (by simp [hh]))
  rw [Scheduler.lockRelease, if_pos hh, wakeWaiter]
  rcases hm : listMax (s.dropLock t lock).priority ((s.dropLock t lock).waiters lock) with _ | w
  · have hw : s.waiters lock = [] := listMax_eq_none.mp hm
    have hstay : ¬ (s.dropLock t lock).priority t < 0 := not_lt.mpr (s.dropLock_nonneg t lock)
    have hvalue : (s.dropLock t lock).value = s.value := rfl
    have hholder : (s.dropLock t lock).holder = update s.holder lock none := rfl
    have hwaiters : (s.dropLock t lock).waiters = s.waiters := rfl
    have hlist : (s.dropLock t lock).lockList = s.lockList := rfl
    simp only [if_neg hstay, finishRelease, isInitial, hvalue, hholder, hwaiters, hw, hv,
      update_self, isNone_none, List.isEmpty_nil, Nat.zero_add, beq_self_eq_true,
      Bool.and_true, if_true, removeLockList, hlist, if_pos hmem]
    have hnodup := hl.nodup
    exact ⟨_, rfl, hl.dropped (r := s.waiters lock) id rfl rfl (update_eq_self ..).symm rfl (hnodup.erase lock)
      (by grind [hnodup.mem_erase_iff])⟩
  · have hwmem : w ∈ s.waiters lock := listMax_mem hm
    have hw : s.waiters lock ≠ [] := List.ne_nil_of_mem hwmem
    have hrest : (s.waiters lock).erase w ≠ [] := by
      have hlen := List.length_erase_of_mem hwmem
      have hpos := List.length_pos_iff.mpr hw
      intro hnil
      rw [hnil] at hlen
      simp only [List.length_nil] at hlen
      omega
    dsimp only
    set passed : Scheduler := { s.dropLock t lock with
      value := update (s.dropLock t lock).value lock ((s.dropLock t lock).value lock + 1)
      waiters := update (s.dropLock t lock).waiters lock
        (((s.dropLock t lock).waiters lock).erase w)
      readyList := (s.dropLock t lock).readyList ++ [w] } with hp
    have hl' : passed.Listed := by
      refine hl.dropped (fun hnil => absurd hnil hrest) rfl ?_ rfl rfl hl.nodup fun x => ?_
      · rw [hp, show (s.dropLock t lock).value = s.value from rfl, hv]
      · rw [hp, show (s.dropLock t lock).lockList = s.lockList from rfl]
        grind
    have hwait : passed.waiters lock ≠ [] := by
      rw [show passed.waiters = update s.waiters lock ((s.waiters lock).erase w) from rfl,
        update_self]
      exact hrest
    split_ifs
    · refine ⟨_, rfl, (hl'.setPoint fun lock' h => ?_).threadYield⟩
      rcases h with h | h <;> cases h
      exact hwait
    · have hno : passed.isInitial lock = false := by
        rw [Bool.eq_false_iff, ne_eq, hl'.isInitial_iff]
        exact not_not.mpr (.inr hwait)
      rw [finishRelease, hno]
      exact ⟨_, rfl, hl'⟩

def Shared (s : Scheduler) : Action → Prop
  | .tryAcquire lock => s.value lock ≠ 0 → lock ∈ s.lockList
  | .release lock => (s.waiters lock).length ≠ 1
  | _ => True

instance : ∀ a, Decidable (s.Shared a)
  | .tryAcquire lock => inferInstanceAs (Decidable (s.value lock ≠ 0 → lock ∈ s.lockList))
  | .release lock => inferInstanceAs (Decidable ((s.waiters lock).length ≠ 1))
  | .acquire _ | .setPriority _ | .yield | .block | .unblock _ | .resume => .isTrue trivial

theorem Listed.finishLate (hl : s.Listed) (hp : s.point t = .releasing lock) :
    ((s.setPoint t .running).finishRelease lock) = some (s.setPoint t .running) := by
  have hl' : (s.setPoint t .running).Listed := hl.setPoint (by simp)
  have hno : (s.setPoint t .running).isInitial lock = false := by
    rw [Bool.eq_false_iff, ne_eq, hl'.isInitial_iff]
    exact not_not.mpr (.inr (hl.pending t lock (.inr hp)))
  rw [finishRelease, hno]
  rfl

theorem Listed.step {a : Action} (hl : s.Listed) (hc : s.Shared a) (hs : s.step a = some s') :
    s'.Listed := by
  cases a with
  | acquire lock =>
    obtain ⟨t, -, hs⟩ := bind_eq_some_iff.mp hs
    exact hl.lockAcquire hs
  | tryAcquire lock =>
    obtain ⟨t, -, hs⟩ := bind_eq_some_iff.mp hs
    exact hl.lockTryAcquire hc hs
  | release lock =>
    obtain ⟨t, -, hs⟩ := bind_eq_some_iff.mp hs
    have hh : s.holder lock = some t := by
      by_contra h
      rw [Scheduler.lockRelease, if_neg h] at hs
      cases hs
    obtain ⟨s1, hs1, hl1⟩ := hl.lockRelease hh hc
    exact some.inj (hs1.symm.trans hs) ▸ hl1
  | setPriority p =>
    obtain ⟨t, -, hs⟩ := bind_eq_some_iff.mp hs
    obtain ⟨s1, hs1, rfl⟩ := map_eq_some_iff.mp hs
    have hl1 : s1.Listed := (Listed.resetDonatePriority
      (s := { s.raise t p with priorityOld := update s.priorityOld t p })
      ⟨⟨hl.nodup, hl.mem⟩, hl.value, hl.pending⟩ hs1).1
    split
    · split_ifs
      · exact hl1.threadYield
      · exact hl1
    · exact hl1
  | yield =>
    simp only [Scheduler.step] at hs
    split_ifs at hs
    · exact some.inj hs ▸ hl.schedule
    · obtain ⟨t, -, rfl⟩ := map_eq_some_iff.mp hs
      exact hl.threadYield
  | block =>
    obtain ⟨t, -, rfl⟩ := map_eq_some_iff.mp hs
    exact (hl.setPoint (by simp)).schedule
  | unblock t =>
    simp only [Scheduler.step] at hs
    split_ifs at hs
    have hl' : (s.setPoint t .running).Listed := hl.setPoint (by simp)
    exact some.inj hs ▸ ⟨⟨hl'.nodup, hl'.mem⟩, hl'.value, hl'.pending⟩
  | resume =>
    obtain ⟨t, -, hs⟩ := bind_eq_some_iff.mp hs
    unfold Scheduler.resume at hs
    split at hs
    · rename_i lock hp
      have hbusy : s.Busy lock := .inr (hl.pending t lock (.inl hp))
      exact some.inj hs ▸ hl.semaDown ((hl.mem lock).mpr hbusy)
    · rename_i lock hp
      rw [hl.finishLate hp] at hs
      exact some.inj hs ▸ hl.setPoint (by simp)
    · cases hs

theorem Fresh.listed (hs : s.Fresh) : s.Listed := by
  refine ⟨⟨by simp [hs.lockList], fun lock => ?_⟩, fun lock => ?_, fun t lock hp => ?_⟩
  · simp [hs.lockList, Busy, hs.holder, hs.waiters]
  · simp [hs.value, hs.holder]
  · rcases hs.point t with h | ⟨h, -⟩ <;> rw [h] at hp <;> simp at hp

theorem listsBusy_of_shared (h : system.ReachVia Shared s) :
    s.ListsBusy ∧
      (∀ t lock, s.caller = some t → s.holder lock = some t → s.Shared (.release lock) →
        (s.step (.release lock)).isSome) ∧
      ∀ t lock, s.current = some t → s.point t = .releasing lock → (s.step .resume).isSome := by
  have hl : s.Listed := by
    refine System.ReachVia.invariant (I := Listed) (fun s hs => ?_) (fun s a s' hl hc hs => ?_) h
    · exact Fresh.listed hs
    · exact hl.step hc hs
  refine ⟨hl.toListsBusy, fun t lock ht hh hc => ?_, fun t lock ht hp => ?_⟩
  · obtain ⟨s1, hs1, -⟩ := hl.lockRelease hh hc
    simp [Scheduler.step, ht, hs1]
  · simp [Scheduler.step, ht, Scheduler.resume, hp, hl.finishLate hp]

theorem listsBusy_of_shared_three :
    ∃ s, system.ReachVia Shared s ∧ s.holder 0 = some 2 ∧ s.lockList = [0] ∧ s.ListsBusy := by
  have hrun : (System.runVia step Shared (start (fun t => 31 + t) [])
      [.acquire 0, .unblock 1, .yield, .acquire 0, .unblock 2, .yield, .acquire 0, .release 0,
        .resume]).map (fun s => (s.holder 0, s.lockList)) = some (some 2, [0]) := by decide +kernel
  obtain ⟨s, hs, hv⟩ := map_eq_some_iff.mp hrun
  simp only [Prod.mk.injEq] at hv
  have hfresh : (start (fun t => 31 + t) []).Fresh :=
    fresh_start (fun t => by omega) (List.nodup_singleton 0)
  have hreach : system.ReachVia Shared s := System.ReachVia.run (.init hfresh) hs
  exact ⟨s, hreach, hv.1, hv.2, (listsBusy_of_shared hreach).1⟩

theorem not_listsBusy_equalPriority :
    ∃ s, system.Reach s ∧ s.holder 0 = some 1 ∧ 0 ∉ s.lockList ∧ ¬ s.ListsBusy := by
  have hrun : (System.runVia step (fun _ _ => True) (start (fun _ => 31) [1])
      [.acquire 0, .yield, .acquire 0, .release 0, .yield, .resume]).map
        (fun s => (s.holder 0, s.lockList)) = some (some 1, []) := by decide +kernel
  obtain ⟨s, hs, hv⟩ := map_eq_some_iff.mp hrun
  simp only [Prod.mk.injEq] at hv
  have hfresh : (start (fun _ => 31) [1]).Fresh := fresh_start (fun _ => by decide) (by decide)
  have hnot : 0 ∉ s.lockList := by simp [hv.2]
  refine ⟨s, System.ReachVia.run (.init hfresh) hs, hv.1, hnot, fun hl => ?_⟩
  exact hnot ((hl.mem 0).mpr (.inl (by simp [hv.1])))

end Cs162.Threads.Scheduler
