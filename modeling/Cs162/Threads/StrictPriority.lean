import Cs162.Threads.Preemption

namespace Cs162.Threads.Machine
open Lib Function Option

variable {s s' : Scheduler} {n t lock : ℕ} {p : ℤ}

structure Sound (n : ℕ) (s : Scheduler) : Prop where
  value : ∀ lock, s.value lock = if s.holder lock = none then 1 else 0
  ready : ∀ t ∈ s.readyList, t < n
  waiters : ∀ lock, ∀ t ∈ s.waiters lock, t < n

structure Ruled (n : ℕ) (s : Scheduler) : Prop extends Sound n s where
  current : ∀ t, s.current = some t → t < n
  strict : Strict s

theorem Sound.schedule (hs : Sound n s) : Ruled n s.schedule := by
  rw [Scheduler.schedule]
  rcases hm : listMax s.priority s.readyList with _ | w
  · refine ⟨⟨hs.value, hs.ready, hs.waiters⟩, nofun, fun t ht => ?_⟩
    rw [show s.readyList = [] from listMax_eq_none.mp hm] at ht
    cases ht
  · refine ⟨⟨hs.value, fun t ht => hs.ready t (List.mem_of_mem_erase ht), hs.waiters⟩, ?_, ?_⟩
    · rintro t ⟨⟩
      exact hs.ready w (listMax_mem hm)
    · exact fun t ht => le_listMax hm (List.mem_of_mem_erase ht)

theorem Sound.append (hs : Sound n s) (ht : t < n) :
    Sound n { s with readyList := s.readyList ++ [t] } := by
  refine ⟨hs.value, fun u hu => ?_, hs.waiters⟩
  rcases List.mem_append.mp hu with hu | hu
  · exact hs.ready u hu
  · exact List.mem_singleton.mp hu ▸ ht

theorem Sound.threadYield (hs : Sound n s) (ht : t < n) : Ruled n (s.threadYield t) :=
  (hs.append ht).schedule

theorem Sound.yieldCpu (hs : Sound n s) (hc : ∀ t, s.current = some t → t < n) :
    Ruled n (yieldCpu s) := by
  rw [Machine.yieldCpu]
  split
  next t ht => exact hs.threadYield (hc t ht)
  next => exact hs.schedule

theorem resetDonatePriority_rest (hr : s.resetDonatePriority = some s') :
    s' = { s with priority := s'.priority } := by
  refine settle_invariant (I := fun s₁ => s₁ = { s with priority := s₁.priority })
    (fun lock _ s₁ s₂ h₁ hd => ?_) rfl hr
  obtain ⟨h, -, hd⟩ := map_eq_some_iff.mp hd
  split_ifs at hd
  cases hd
  rw [h₁]
  rfl

theorem Sound.take (hs : Sound n s) (hv : s.value lock ≠ 0) (lock' : ℕ) :
    update s.value lock (s.value lock - 1) lock' =
      if update s.holder lock (some t) lock' = none then 1 else 0 := by
  by_cases heq : lock' = lock
  · subst heq
    have := hs.value lock'
    simp only [update_self, reduceCtorEq, if_false]
    split_ifs at this <;> omega
  · simpa only [update_of_ne heq] using hs.value lock'

theorem Sound.wait (hs : Sound n s) (ht : t < n) (hv : s.value lock = 0) :
    Ruled n (s.semaDown t lock) := by
  rw [Scheduler.semaDown, if_pos hv]
  refine Sound.schedule ⟨hs.value, hs.ready, fun lock' u hu => ?_⟩
  by_cases heq : lock' = lock
  · subst heq
    simp only [update_self, List.mem_append, List.mem_singleton] at hu
    exact hu.elim (hs.waiters lock' u) fun h => h ▸ ht
  · simp only [update_of_ne heq] at hu
    exact hs.waiters lock' u hu

theorem Ruled.semaDown (hs : Ruled n s) (ht : t < n) : Ruled n (s.semaDown t lock) := by
  by_cases hv : s.value lock = 0
  · exact hs.wait ht hv
  · rw [Scheduler.semaDown, if_neg hv]
    exact ⟨⟨hs.take hv, hs.ready, hs.waiters⟩, hs.current, hs.strict⟩

theorem Ruled.donate (hs : Ruled n s) (ht : t < n) (hd : s.donateTo t lock = some s') :
    Ruled n (s'.semaDown t lock) := by
  rw [Scheduler.donateTo] at hd
  split at hd
  next h hh =>
    have hv : s.value lock = 0 := by simp [hs.value, hh]
    have hsound : Sound n s' ∧ s'.value lock = 0 := by
      rw [resetDonatePriority_rest hd]
      split_ifs <;> exact ⟨⟨hs.value, hs.ready, hs.waiters⟩, hv⟩
    exact hsound.1.wait ht hsound.2
  next =>
    cases hd
    exact hs.semaDown ht

theorem Ruled.lockAcquire (hs : Ruled n s) (ht : t < n) (ha : s.lockAcquire t lock = some s') :
    Ruled n s' := by
  simp only [Scheduler.lockAcquire] at ha
  split_ifs at ha
  · obtain ⟨s₁, hs₁, ha⟩ := bind_eq_some_iff.mp ha
    obtain ⟨s₂, hs₂, rfl⟩ := map_eq_some_iff.mp ha
    rw [Scheduler.appendLockList] at hs₁
    split_ifs at hs₁
    cases hs₁
    exact Ruled.donate (s := { s with lockList := s.lockList ++ [lock] })
      ⟨⟨hs.value, hs.ready, hs.waiters⟩, hs.current, hs.strict⟩ ht hs₂
  · obtain ⟨s₂, hs₂, rfl⟩ := map_eq_some_iff.mp ha
    exact hs.donate ht hs₂

theorem Ruled.lockTryAcquire (hs : Ruled n s) (ha : s.lockTryAcquire t lock = some s') :
    Ruled n s' := by
  simp only [Scheduler.lockTryAcquire] at ha
  split_ifs at ha with _ hv <;> cases ha
  · exact hs
  · exact ⟨⟨hs.take hv, hs.ready, hs.waiters⟩, hs.current, hs.strict⟩

theorem Ruled.threadSetPriority (hs : Ruled n s) (ht : s.current = some t)
    (hp : s.threadSetPriority t p = some s') : Ruled n s' := by
  obtain ⟨s₁, hs₁, rfl⟩ := map_eq_some_iff.mp hp
  have hsound : Sound n s₁ ∧ s₁.current = some t := by
    rw [resetDonatePriority_rest hs₁]
    exact ⟨⟨hs.value, hs.ready, hs.waiters⟩, ht⟩
  have hcur : ∀ u, s₁.current = some u → u < n := by
    rw [hsound.2, ← ht]
    exact hs.current
  split
  next m hm =>
    split_ifs with hlt
    · exact hsound.1.threadYield (hcur t hsound.2)
    · refine ⟨hsound.1, hcur, fun u hu => ?_⟩
      rw [runningPriority, hsound.2]
      exact (le_listMax hm hu).trans (not_lt.mp hlt)
  next hm =>
    refine ⟨hsound.1, hcur, fun u hu => ?_⟩
    rw [listMax_eq_none.mp hm] at hu
    cases hu

theorem le_dropLock (s : Scheduler) (t lock : ℕ) :
    s.priorityOld t ≤ (s.dropLock t lock).priority t ∧
      ∀ lock' ∈ (s.allLocks t).erase lock, ∀ v ∈ s.waiters lock',
        s.priority v ≤ (s.dropLock t lock).priority t := by
  have hge := (Scheduler.foldl_if_max s.maxWaiter ((s.allLocks t).erase lock) 0).1
  have hdonated : Scheduler.maxDonatePriority
      { s with allLocks := update s.allLocks t ((s.allLocks t).erase lock) } t =
      ((s.allLocks t).erase lock).foldl
        (fun m x => if m < s.maxWaiter x then s.maxWaiter x else m) 0 := by
    simp only [Scheduler.maxDonatePriority, update_self]
    rfl
  simp only [Scheduler.dropLock, Scheduler.raise, update_self, hdonated]
  constructor
  · split_ifs with hlt
    · exact hlt.le
    · exact le_rfl
  · intro lock' hlock' v hv
    have := (Scheduler.le_maxWaiter hv).trans (hge lock' hlock')
    split_ifs with hlt
    · exact this
    · exact this.trans (not_lt.mp hlt)

theorem dropLock_of_ne (s : Scheduler) {t u : ℕ} (lock : ℕ) (hne : u ≠ t) :
    (s.dropLock t lock).priority u = s.priority u :=
  update_of_ne hne ..

theorem Backed.dropLock (hb : Backed s t) (lock : ℕ) :
    s.priority t ≤ (s.dropLock t lock).priority t ∨
      ∃ v ∈ s.waiters lock, s.priority t ≤ (s.dropLock t lock).priority v := by
  obtain ⟨hold, hdonated⟩ := le_dropLock s t lock
  rcases hb with hb | ⟨lock', hlock', v, hv, hne, hle⟩
  · exact .inl (hb.trans hold)
  · by_cases heq : lock' = lock
    · subst heq
      exact .inr ⟨v, hv, by rwa [dropLock_of_ne s lock' hne]⟩
    · exact .inl (hle.trans (hdonated lock' ((List.mem_erase_of_ne heq).mpr hlock') v hv))

theorem Ruled.dropLock_le (hs : Ruled n s) (ht : s.current = some t) (hb : Backed s t)
    (hle : ∀ v ∈ s.waiters lock, (s.dropLock t lock).priority v ≤ (s.dropLock t lock).priority t) :
    ∀ u ∈ s.readyList, (s.dropLock t lock).priority u ≤ (s.dropLock t lock).priority t := by
  intro u hu
  by_cases hne : u = t
  · rw [hne]
  have hself : s.priority t ≤ (s.dropLock t lock).priority t := by
    rcases hb.dropLock lock with h | ⟨v, hv, h⟩
    · exact h
    · exact h.trans (hle v hv)
  have hu' := hs.strict u hu
  rw [runningPriority, ht] at hu'
  rw [dropLock_of_ne s lock hne]
  exact hu'.trans hself

theorem Ruled.freed (hs : Ruled n s) (hh : s.holder lock = some t) (lock' : ℕ) :
    update s.value lock (s.value lock + 1) lock' =
      if update s.holder lock none lock' = none then 1 else 0 := by
  by_cases heq : lock' = lock
  · subst heq
    simp [hs.value, hh]
  · simpa only [update_of_ne heq] using hs.value lock'

structure Woken (s : Scheduler) (lock : ℕ) (r : ℤ × Scheduler) : Prop where
  priority : r.2.priority = s.priority
  current : r.2.current = s.current
  holder : r.2.holder = s.holder
  value : r.2.value = update s.value lock (s.value lock + 1)
  waiters : ∀ lock', ∀ t ∈ r.2.waiters lock', t ∈ s.waiters lock'
  ready : ∀ t ∈ r.2.readyList, t ∈ s.readyList ∨ t ∈ s.waiters lock
  top : ∀ t ∈ s.waiters lock, s.priority t ≤ r.1

theorem woken_wakeWaiter (s : Scheduler) (lock : ℕ) : Woken s lock (s.wakeWaiter lock) := by
  rw [Scheduler.wakeWaiter]
  rcases hm : listMax s.priority (s.waiters lock) with _ | w
  · refine ⟨rfl, rfl, rfl, rfl, fun _ _ => id, fun _ => .inl, ?_⟩
    simp [listMax_eq_none.mp hm]
  · refine ⟨rfl, rfl, rfl, rfl, fun lock' t ht => ?_, fun t ht => ?_, fun t => le_listMax hm⟩
    · by_cases heq : lock' = lock
      · subst heq
        simp only [update_self] at ht
        exact List.mem_of_mem_erase ht
      · simpa only [update_of_ne heq] using ht
    · rcases List.mem_append.mp ht with ht | ht
      · exact .inl ht
      · exact .inr (List.mem_singleton.mp ht ▸ listMax_mem hm)

theorem Ruled.finishRelease (hs : Ruled n s) (hf : s.finishRelease lock = some s') :
    Ruled n s' := by
  rw [Scheduler.finishRelease, Scheduler.removeLockList] at hf
  split_ifs at hf <;> cases hf
  · exact ⟨⟨hs.value, hs.ready, hs.waiters⟩, hs.current, hs.strict⟩
  · exact hs

theorem Ruled.lockRelease (hs : Ruled n s) (ht : s.current = some t) (hb : Backed s t)
    (hr : s.lockRelease t lock = some s') : Ruled n s' := by
  rw [Scheduler.lockRelease] at hr
  split_ifs at hr with hh
  have hw := woken_wakeWaiter (s.dropLock t lock) lock
  generalize (s.dropLock t lock).wakeWaiter lock = r at hr hw
  obtain ⟨maxPriority, s₁⟩ := r
  have hcur : s₁.current = some t := hw.current.trans ht
  have hsound : Sound n s₁ := by
    refine ⟨fun lock' => ?_, fun u hu => ?_, fun lock' u hu => ?_⟩
    · rw [hw.value, hw.holder]
      exact hs.freed hh lock'
    · exact (hw.ready u hu).elim (hs.ready u) (hs.waiters lock u)
    · exact hs.waiters lock' u (hw.waiters lock' u hu)
  simp only at hr
  split_ifs at hr with hlt
  · cases hr
    exact Sound.threadYield (s := s₁.setPoint t _) ⟨hsound.value, hsound.ready, hsound.waiters⟩
      (hs.current t ht)
  · have htop : ∀ v ∈ s.waiters lock,
        (s.dropLock t lock).priority v ≤ (s.dropLock t lock).priority t := by
      intro v hv
      rw [hw.priority] at hlt
      exact (hw.top v hv).trans (not_lt.mp hlt)
    refine Ruled.finishRelease ⟨hsound, ?_, fun u hu => ?_⟩ hr
    · rw [hcur, ← ht]
      exact hs.current
    · rw [runningPriority, hcur, hw.priority]
      exact (hw.ready u hu).elim (hs.dropLock_le ht hb htop u) (htop u)

theorem Ruled.step {a : Action} (hs : Ruled n s)
    (hb : ∀ lock, a = .release lock → ∀ t, s.caller = some t → Backed s t)
    (hnot : a ≠ .block ∧ ∀ t, a ≠ .unblock t) (ha : s.step a = some s') : Ruled n s' := by
  cases a with
  | acquire lock =>
    obtain ⟨t, ht, ha⟩ := bind_eq_some_iff.mp ha
    exact hs.lockAcquire (hs.current t (Scheduler.caller_eq_some.mp ht).1) ha
  | tryAcquire lock =>
    obtain ⟨t, -, ha⟩ := bind_eq_some_iff.mp ha
    exact hs.lockTryAcquire ha
  | release lock =>
    obtain ⟨t, ht, ha⟩ := bind_eq_some_iff.mp ha
    exact hs.lockRelease (Scheduler.caller_eq_some.mp ht).1 (hb lock rfl t ht) ha
  | setPriority p =>
    obtain ⟨t, ht, ha⟩ := bind_eq_some_iff.mp ha
    exact hs.threadSetPriority (Scheduler.caller_eq_some.mp ht).1 ha
  | yield =>
    simp only [Scheduler.step] at ha
    split_ifs at ha
    · exact some.inj ha ▸ hs.toSound.schedule
    · obtain ⟨t, ht, rfl⟩ := map_eq_some_iff.mp ha
      exact hs.toSound.threadYield (hs.current t (Scheduler.caller_eq_some.mp ht).1)
  | block => exact absurd rfl hnot.1
  | unblock t => exact absurd rfl (hnot.2 t)
  | resume =>
    obtain ⟨t, ht, ha⟩ := bind_eq_some_iff.mp ha
    unfold Scheduler.resume at ha
    split at ha
    · cases ha
      exact hs.semaDown (hs.current t ht)
    · exact Ruled.finishRelease (s := s.setPoint t .running)
        ⟨⟨hs.value, hs.ready, hs.waiters⟩, hs.current, hs.strict⟩ ha
    · cases ha

theorem Ruled.threadUnblock (hs : Ruled n s) (ht : t < n)
    (hle : s.priority t ≤ runningPriority s) : Ruled n (threadUnblock s t) := by
  refine ⟨Sound.append (s := s.setPoint t .running) ⟨hs.value, hs.ready, hs.waiters⟩ ht,
    hs.current, fun u hu => ?_⟩
  rcases List.mem_append.mp hu with hu | hu
  · exact hs.strict u hu
  · exact List.mem_singleton.mp hu ▸ hle

theorem Ruled.unblock_yield (hs : Ruled n s) (ht : t < n) :
    Ruled n (if runningPriority (Machine.threadUnblock s t) < (Machine.threadUnblock s t).priority t
      then Machine.yieldCpu (Machine.threadUnblock s t) else Machine.threadUnblock s t) := by
  split_ifs with hlt
  · have hsound : Sound n (Machine.threadUnblock s t) :=
      Sound.append (s := s.setPoint t .running) ⟨hs.value, hs.ready, hs.waiters⟩ ht
    exact hsound.yieldCpu hs.current
  · exact hs.threadUnblock ht (not_lt.mp hlt)

theorem Ruled.newThread (hs : Ruled n s) (p : ℤ) :
    Ruled (n + 1) { s with
      priority := update s.priority n p
      priorityOld := update s.priorityOld n p
      allLocks := update s.allLocks n [] } := by
  have hlt : ∀ t, t < n → t < n + 1 := fun _ => Nat.lt_succ_of_lt
  have hsame : ∀ t, t < n → update s.priority n p t = s.priority t := fun t ht =>
    update_of_ne ht.ne ..
  refine ⟨⟨hs.value, fun t ht => hlt t (hs.ready t ht), fun lock t ht => ?_⟩,
    fun t ht => hlt t (hs.current t ht), fun t ht => ?_⟩
  · exact hlt t (hs.waiters lock t ht)
  · have hle := hs.strict t ht
    simp only [runningPriority] at hle ⊢
    rcases hc : s.current with _ | u <;> rw [hc] at hle
    · simpa only [map_none, hsame t (hs.ready t ht)] using hle
    · simpa only [map_some, hsame t (hs.ready t ht), hsame u (hs.current u hc)] using hle

variable {m m' : Machine}

structure Inv (m : Machine) : Prop extends Ruled m.nextTid m.sched where
  semaWaiters : ∀ sema, ∀ t ∈ m.semaWaiters sema, t < m.nextTid
  allList : ∀ t ∈ m.allList, t < m.nextTid

theorem caller_current (ht : m.caller = some t) : m.sched.current = some t := by
  obtain ⟨h, -⟩ := filter_eq_some_iff.mp ht
  exact (Scheduler.caller_eq_some.mp h).1

theorem Inv.threadCreate (hm : m.Inv) (p : ℤ) : (m.threadCreate p).Inv := by
  have hlt : ∀ t, t < m.nextTid → t < m.nextTid + 1 := fun _ => Nat.lt_succ_of_lt
  refine ⟨(hm.toRuled.newThread p).unblock_yield (Nat.lt_succ_self _),
    fun sema t ht => hlt t (hm.semaWaiters sema t ht), fun t ht => ?_⟩
  rcases List.mem_append.mp ht with ht | ht
  · exact hlt t (hm.allList t ht)
  · exact List.mem_singleton.mp ht ▸ Nat.lt_succ_self _

theorem Inv.semaDown (hm : m.Inv) (ht : t < m.nextTid) (sema : ℕ) : (m.semaDown t sema).Inv := by
  rw [Machine.semaDown]
  split_ifs
  · refine ⟨Sound.schedule ⟨hm.value, hm.ready, hm.waiters⟩, fun sema' u hu => ?_, hm.allList⟩
    by_cases heq : sema' = sema
    · subst heq
      simp only [update_self, List.mem_append, List.mem_singleton] at hu
      exact hu.elim (hm.semaWaiters sema' u) fun h => h ▸ ht
    · simp only [update_of_ne heq] at hu
      exact hm.semaWaiters sema' u hu
  · exact ⟨hm.toRuled, hm.semaWaiters, hm.allList⟩

theorem Inv.semaUp (hm : m.Inv) {sema : ℕ} {inIntr : Bool}
    (hp : m.Prompt (.semaUp sema inIntr)) : (m.semaUp sema inIntr).Inv := by
  rw [Machine.semaUp]
  rcases hw : listMax m.sched.priority (m.semaWaiters sema) with _ | w
  · refine ⟨?_, hm.semaWaiters, hm.allList⟩
    simp only
    split_ifs
    · exact hm.toSound.yieldCpu hm.current
    · exact hm.toRuled
  · have hmem := listMax_mem hw
    have hwn := hm.semaWaiters sema w hmem
    refine ⟨?_, fun sema' u hu => ?_, hm.allList⟩
    · cases inIntr with
      | false => simpa using hm.toRuled.unblock_yield hwn
      | true => simpa using hm.toRuled.threadUnblock hwn (hp w hmem)
    · by_cases heq : sema' = sema
      · subst heq
        simp only [update_self] at hu
        exact hm.semaWaiters sema' u (List.mem_of_mem_erase hu)
      · simp only [update_of_ne heq] at hu
        exact hm.semaWaiters sema' u hu

theorem Inv.leave (hm : m.Inv) (t : ℕ) : Ruled m.nextTid (m.sched.setPoint t .blocked).schedule :=
  Sound.schedule ⟨hm.value, hm.ready, hm.waiters⟩

theorem Inv.tick (hm : m.Inv) {sliceOver : Bool} (hp : m.Prompt (.tick sliceOver)) : (m.tick sliceOver).Inv := by
  have hready : ∀ t ∈ m.wakeThreads.sched.readyList,
      t ∈ m.sched.readyList ∨ t ∈ m.allList ∧ m.wakes t := by
    intro t ht
    exact (List.mem_append.mp ht).imp_right List.mem_filter.mp
  have hsound : Sound m.nextTid m.wakeThreads.sched := by
    refine ⟨hm.value, fun t ht => ?_, hm.waiters⟩
    exact (hready t ht).elim (hm.ready t) fun h => hm.allList t h.1
  cases sliceOver with
  | true => exact ⟨hsound.yieldCpu hm.current, hm.semaWaiters, hm.allList⟩
  | false =>
    refine ⟨⟨hsound, hm.current, fun t ht => ?_⟩, hm.semaWaiters, hm.allList⟩
    exact (hready t ht).elim (hm.strict t) fun h => hp t h.1 h.2

theorem step_call {a : Action} (hs : m.step (.call a) = some m') :
    ∃ s', m.sched.step a = some s' ∧ m' = { m with sched := s' } ∧
      (a ≠ .block ∧ ∀ t, a ≠ .unblock t) ∧
        (a = .resume ∨ m.caller.isSome ∨ m.sched.current = none) := by
  cases a with
  | block => cases hs
  | unblock t => cases hs
  | resume =>
    obtain ⟨s', hs', rfl⟩ := map_eq_some_iff.mp hs
    exact ⟨s', hs', rfl, by simp, .inl rfl⟩
  | acquire | tryAcquire | release | setPriority | yield =>
    simp only [Machine.step] at hs
    split_ifs at hs with hc
    obtain ⟨s', hs', rfl⟩ := map_eq_some_iff.mp hs
    exact ⟨s', hs', rfl, by simp, .inr hc⟩

theorem Inv.step {e : Event} (hm : m.Inv) (hp : m.Prompt e) (hs : m.step e = some m') :
    m'.Inv := by
  have hcaller : ∀ t, m.caller = some t → t < m.nextTid := fun t ht =>
    hm.current t (caller_current ht)
  cases e with
  | call a =>
    obtain ⟨s', ha, rfl, hnot, hc⟩ := step_call hs
    refine ⟨hm.toRuled.step (fun lock heq t ht => ?_) hnot ha, hm.semaWaiters, hm.allList⟩
    subst heq
    have hcur := (Scheduler.caller_eq_some.mp ht).1
    obtain ⟨u, hu⟩ : ∃ u, m.caller = some u := by
      simpa [hcur, isSome_iff_exists] using hc
    have hut : u = t := some.inj ((caller_current hu).symm.trans hcur)
    exact hp t (hut ▸ hu)
  | create p =>
    simp only [Machine.step] at hs
    split_ifs at hs
    exact some.inj hs ▸ hm.threadCreate p
  | semaDown sema =>
    obtain ⟨t, ht, rfl⟩ := map_eq_some_iff.mp hs
    exact hm.semaDown (hcaller t ht) sema
  | again =>
    obtain ⟨t, ht, hs⟩ := bind_eq_some_iff.mp hs
    obtain ⟨sema, -, rfl⟩ := map_eq_some_iff.mp hs
    exact hm.semaDown (hm.current t ht) sema
  | semaUp sema inIntr =>
    simp only [Machine.step] at hs
    split_ifs at hs
    exact some.inj hs ▸ hm.semaUp hp
  | sleep ticks =>
    obtain ⟨t, -, rfl⟩ := map_eq_some_iff.mp hs
    rw [Machine.timerSleep]
    split_ifs
    · exact ⟨hm.leave t, hm.semaWaiters, hm.allList⟩
    · exact hm
  | exit =>
    obtain ⟨t, -, rfl⟩ := map_eq_some_iff.mp hs
    exact ⟨hm.leave t, hm.semaWaiters, fun u hu => hm.allList u (List.mem_of_mem_erase hu)⟩
  | tick sliceOver => exact some.inj hs ▸ hm.tick hp

end Cs162.Threads.Machine
