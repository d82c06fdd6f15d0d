import Cs162.Lib.System
import Cs162.Threads.PriorityInvariant

namespace Cs162.Threads
open Lib Function Option

namespace Scheduler
variable {s s' : Scheduler} {t u v w h lock : ℕ} {p own : ℤ}

theorem foldl_if_max (f : ℕ → ℤ) (l : List ℕ) (b : ℤ) :
    (∀ x ∈ l, f x ≤ l.foldl (fun m x => if m < f x then f x else m) b) ∧
      (l.foldl (fun m x => if m < f x then f x else m) b = b ∨
        ∃ x ∈ l, l.foldl (fun m x => if m < f x then f x else m) b = f x) ∧
      b ≤ l.foldl (fun m x => if m < f x then f x else m) b := by
  induction l generalizing b with
  | nil => simp
  | cons a l ih =>
    obtain ⟨hge, hfrom, hbase⟩ := ih (if b < f a then f a else b)
    have hb : b ≤ (if b < f a then f a else b) ∧ f a ≤ (if b < f a then f a else b) := by
      split_ifs <;> omega
    refine ⟨fun x hx => ?_, ?_, hb.1.trans hbase⟩
    · rcases List.mem_cons.mp hx with rfl | hx
      · exact hb.2.trans hbase
      · exact hge x hx
    · rw [List.foldl_cons]
      rcases hfrom with heq | ⟨x, hx, heq⟩
      · rw [heq]
        split_ifs
        · exact .inr ⟨a, List.mem_cons_self .., rfl⟩
        · exact .inl rfl
      · exact .inr ⟨x, List.mem_cons_of_mem _ hx, heq⟩

structure Remaining (s : Scheduler) (t lock : ℕ) (own : ℤ) : Prop where
  base : s.priorityOld t ≤ own
  above : ∀ lock' ∈ (s.allLocks t).erase lock, ∀ v ∈ s.waiters lock', s.priority v ≤ own
  justified : own = s.priorityOld t ∨ ∃ lock' ∈ (s.allLocks t).erase lock, ∃ v ∈ s.waiters lock', own = s.priority v

theorem dropLock_spec (hd : s.Donations) (hl : s.Locks) (t lock : ℕ) :
    ∃ own : ℤ, s.Remaining t lock own ∧ s.dropLock t lock = { s with
      allLocks := update s.allLocks t ((s.allLocks t).erase lock)
      priority := update s.priority t own
      holder := update s.holder lock none } := by
  obtain ⟨hge, hfrom, -⟩ := foldl_if_max s.maxWaiter ((s.allLocks t).erase lock) 0
  have hdonated : maxDonatePriority { s with allLocks := update s.allLocks t ((s.allLocks t).erase lock) } t =
      ((s.allLocks t).erase lock).foldl (fun m x => if m < s.maxWaiter x then s.maxWaiter x else m) 0 := by
    simp only [maxDonatePriority, update_self]
    rfl
  refine ⟨_, ⟨?_, fun lock' hlock' v hv => ?_, ?_⟩, rfl⟩ <;> rw [hdonated]
  · split_ifs with hlt
    · exact hlt.le
    · exact le_rfl
  · have := (le_maxWaiter hv).trans (hge lock' hlock')
    split_ifs with hlt
    · exact this
    · exact this.trans (not_lt.mp hlt)
  · split_ifs with hlt
    · have hpos := (hd.nonneg t).trans_lt hlt
      rcases hfrom with heq | ⟨lock', hlock', heq⟩
      · exact absurd (hpos.trans_eq heq) (lt_irrefl 0)
      · rcases s.maxWaiter_cases lock' with ⟨v, hv, hmax⟩ | ⟨-, hmax⟩
        · exact .inr ⟨lock', hlock', v, hv, heq.trans hmax⟩
        -- a lock that is held and has no waiters counts as zero
        · rw [hl.value_eq_zero lock' t ((hl.held t lock').mp (List.mem_of_mem_erase hlock'))] at hmax
          exact absurd (hpos.trans_eq (heq.trans hmax)) (lt_irrefl 0)
    · exact .inl rfl

structure Dropped (s : Scheduler) (t lock : ℕ) (own : ℤ) (s' : Scheduler) : Prop where
  priority : s'.priority = update s.priority t own
  priorityOld : s'.priorityOld = s.priorityOld
  allLocks : s'.allLocks = update s.allLocks t ((s.allLocks t).erase lock)
  holder : s'.holder = update s.holder lock none
  value : s'.value = update s.value lock (s.value lock + 1)
  point : s'.point = s.point
  waiters : ∀ lock', lock' ≠ lock → s'.waiters lock' = s.waiters lock'

theorem Dropped.waits_iff (hs : s.Dropped t lock own s') :
    s'.Waits u v ↔ ∃ lock', lock' ≠ lock ∧ u ∈ s.waiters lock' ∧ s.holder lock' = some v := by
  have hholder : ∀ x, s'.holder x = if x = lock then none else s.holder x := fun x => by
    rw [hs.holder, update_apply]
  have hwaiters := hs.waiters
  unfold Waits
  grind

theorem Dropped.priority_eq (hs : s.Dropped t lock own s') (u : ℕ) :
    s'.priority u = if u = t then own else s.priority u := by
  rw [hs.priority, update_apply]

theorem Locks.mem_erase_iff (hl : s.Locks) {lock' : ℕ} :
    lock' ∈ (s.allLocks t).erase lock ↔ lock' ≠ lock ∧ s.holder lock' = some t := by
  rw [(hl.heldNodup t).mem_erase_iff, hl.held]

theorem Dropped.donations (hs : s.Dropped t lock own s') (hd : s.Donations) (hl : s.Locks)
    (hnot : ∀ lock, t ∉ s.waiters lock) (hh : s.holder lock = some t) (hown : s.Remaining t lock own) : s'.Donations := by
  have hpriority := hs.priority_eq
  have hold := hs.priorityOld
  refine ⟨fun u => hold ▸ hd.nonneg u, fun u => ?_, fun u x hux => ?_, fun u => ?_⟩
  · have hbase := hd.base u
    have hbase' := hown.base
    grind
  · obtain ⟨lock', hlock', hu, hx⟩ := hs.waits_iff.mp hux
    have habove := hd.above u x ⟨lock', hu, hx⟩
    have hothers := fun h => hown.above lock' (hl.mem_erase_iff.mpr ⟨hlock', h⟩) u hu
    grind
  · rw [hold]
    by_cases hut : u = t
    · subst hut
      refine hown.justified.imp (by grind) ?_
      rintro ⟨lock', hlock', v, hv, heq⟩
      obtain ⟨hne', hx⟩ := hl.mem_erase_iff.mp hlock'
      exact ⟨v, hs.waits_iff.mpr ⟨lock', hne', hv, hx⟩, by grind⟩
    · rw [hpriority, if_neg hut]
      refine (hd.justified u).imp_right ?_
      rintro ⟨x, ⟨lock', hx, hu⟩, hle⟩
      exact ⟨x, hs.waits_iff.mpr ⟨lock', by grind, hx, hu⟩, by grind⟩

theorem Dropped.locks (hs : s.Dropped t lock own s') (hl : s.Locks) (hrun : s.point t = .running)
    (hnot : ∀ lock, t ∉ s.waiters lock) (hh : s.holder lock = some t) (hnodup : s'.lockList.Nodup)
    (hmem : ∀ lock', lock' ∈ s'.lockList ↔ lock' ∈ s.lockList ∧ (lock' = lock → ∃ u, s.point u = .acquiring lock))
    (hhanded : ∀ u, s.point u = .acquiring lock → u ∉ s'.waiters lock →
      (∀ v ∈ s'.waiters lock, s'.priority v ≤ s'.priority u) ∧
        ∀ x, s.point x = .acquiring lock → x ∉ s'.waiters lock → x = u) : s'.Locks := by
  have hholder : ∀ x, s'.holder x = if x = lock then none else s.holder x := fun x => by
    rw [hs.holder, update_apply]
  have hlocks : ∀ u, s'.allLocks u = if u = t then (s.allLocks t).erase lock else s.allLocks u := fun u => by
    rw [hs.allLocks, update_apply]
  have hvalue : ∀ x, s'.value x = if x = lock then s.value lock + 1 else s.value x := fun x => by
    rw [hs.value, update_apply]
  have hpoint := hs.point
  refine ⟨fun lock' => ?_, fun u lock' => ?_, fun u => ?_, fun lock' => ?_, hnodup, fun lock' u hu hwait => ?_⟩
  · have hbefore := hl.value lock'
    have hzero := hl.value_eq_zero lock t hh
    grind
  · have hheld := hl.held u lock'
    have herase : lock' ∈ (s.allLocks t).erase lock ↔ _ := hl.mem_erase_iff
    grind
  · have hheldNodup := hl.heldNodup u
    have herase := (hl.heldNodup t).erase lock
    grind
  · have hlisted := hl.listed lock'
    have hin := hl.mem_lockList lock t hh
    rw [hpoint]
    grind
  · have hbefore := hl.handed lock' u
    have hwaiters := hs.waiters lock'
    have hpriority := hs.priority_eq
    grind

def drop (s : Scheduler) (t lock : ℕ) (own : ℤ) : Scheduler :=
  { s with
    allLocks := update s.allLocks t ((s.allLocks t).erase lock)
    priority := update s.priority t own
    holder := update s.holder lock none
    value := update s.value lock (s.value lock + 1) }

def handOver (s : Scheduler) (t lock w : ℕ) (own : ℤ) : Scheduler :=
  { s.drop t lock own with
    waiters := update s.waiters lock ((s.waiters lock).erase w)
    readyList := s.readyList ++ [w] }

theorem Queues.not_waiting (hq : s.Queues) (ht : s.current = some t) (lock : ℕ) : t ∉ s.waiters lock := fun hin =>
  (hq.waiting lock t hin).2 (by simp [Scheduler.active, ht])

theorem lockRelease_cases (hi : s.Inv) (ht : s.current = some t) (hr : s.lockRelease t lock = some s') :
    s.holder lock = some t ∧ ∃ own, s.Remaining t lock own ∧
      (s.waiters lock = [] ∧ s' = { s.drop t lock own with lockList := s.lockList.erase lock } ∨
        ∃ w ∈ s.waiters lock, (∀ v ∈ s.waiters lock, s.priority v ≤ s.priority w) ∧
          (s' = ((s.handOver t lock w own).setPoint t (.releasing lock)).threadYield t ∨
            s.priority w ≤ own ∧ (s.handOver t lock w own).finishRelease lock = some s')) := by
  unfold lockRelease at hr
  split_ifs at hr with hh
  obtain ⟨own, hown, hdrop⟩ := dropLock_spec hi.donations hi.locks t lock
  have hother : ∀ v ∈ s.waiters lock, update s.priority t own v = s.priority v := fun v hv => by
    refine update_of_ne ?_ ..
    rintro rfl
    exact hi.queues.not_waiting ht lock hv
  refine ⟨hh, own, hown, ?_⟩
  rw [hdrop] at hr
  cases hmax : listMax (update s.priority t own) (s.waiters lock) with
  | none =>
    have hempty := listMax_eq_none.mp hmax
    have hpos : ¬ own < 0 := not_lt.mpr ((hi.donations.nonneg t).trans hown.base)
    have hinit : (s.drop t lock own).isInitial lock := by
      simp [isInitial, drop, hempty, hi.locks.value_eq_zero lock t hh]
    simp only [wakeWaiter, hmax, update_self, if_neg hpos] at hr
    have hfinish : (s.drop t lock own).finishRelease lock = some s' := hr
    rw [finishRelease, if_pos hinit, removeLockList, if_pos] at hfinish
    · exact .inl ⟨hempty, (some.inj hfinish).symm⟩
    · exact hi.locks.mem_lockList lock t hh
  | some w =>
    have hw := listMax_mem hmax
    refine .inr ⟨w, hw, fun v hv => ?_, ?_⟩
    · rw [← hother v hv, ← hother w hw]
      exact le_listMax hmax hv
    · simp only [wakeWaiter, hmax, update_self, hother w hw] at hr
      split_ifs at hr with hlt
      · exact .inl (some.inj hr).symm
      · exact .inr ⟨not_lt.mp hlt, hr⟩

theorem Queues.activate (hq : s.Queues) (hnot : t ∉ s.active) (hwait : ∀ lock, t ∉ s.waiters lock)
    (hb : s.point t ≠ .blocked) : Queues { s with readyList := s.readyList ++ [t] } := by
  have hactive : Scheduler.active { s with readyList := s.readyList ++ [t] } = s.active ++ [t] :=
    (List.append_assoc ..).symm
  refine ⟨?_, fun lock u hu => ?_, hq.waitNodup, fun u hu => ?_⟩ <;> rw [hactive]
  · have hnodup := hq.active
    grind
  · have hwaiting := hq.waiting lock u hu
    grind
  · have hblocked := hq.blocked u hu
    grind

theorem Queues.handOver (hq : s.Queues) (hw : w ∈ s.waiters lock) : (s.handOver t lock w own).Queues := by
  obtain ⟨hpoint, hnot⟩ := hq.waiting lock w hw
  have hsub : ∀ lock' u, u ∈ update s.waiters lock ((s.waiters lock).erase w) lock' →
      u ∈ s.waiters lock' ∧ u ≠ w := by
    intro lock' u hu
    have hwaiting := hq.waiting lock' u
    have herase := (hq.waitNodup lock).mem_erase_iff (a := u) (b := w)
    grind [update_apply]
  have hq' : Queues { s.drop t lock own with
      waiters := update s.waiters lock ((s.waiters lock).erase w) } := by
    refine ⟨hq.active, fun lock' u hu => hq.waiting lock' u (hsub lock' u hu).1, fun lock' => ?_, hq.blocked⟩
    have hnodup := hq.waitNodup lock'
    have herase := (hq.waitNodup lock).erase w
    grind [update_apply]
  exact hq'.activate hnot (fun lock' hin => (hsub lock' w hin).2 rfl) fun hb => Point.noConfusion (hpoint.symm.trans hb)

theorem Inv.handOver (hi : s.Inv) (ht : s.current = some t) (hrun : s.point t = .running) (hh : s.holder lock = some t)
    (hown : s.Remaining t lock own) (hw : w ∈ s.waiters lock) (hmax : ∀ v ∈ s.waiters lock, s.priority v ≤ s.priority w) :
    (s.handOver t lock w own).Inv := by
  obtain ⟨hd, hl, hq⟩ := hi
  have hnot := hq.not_waiting ht
  have hs : s.Dropped t lock own (s.handOver t lock w own) :=
    ⟨rfl, rfl, rfl, rfl, rfl, rfl, fun lock' hne => update_of_ne hne ..⟩
  have hpriority := hs.priority_eq
  have hwaiters : ∀ u, u ∈ (s.handOver t lock w own).waiters lock ↔ u ≠ w ∧ u ∈ s.waiters lock := fun u => by
    simp only [Scheduler.handOver, update_self, (hq.waitNodup lock).mem_erase_iff]
  -- everyone else who is about to take the lock waits for it
  have hwoken : ∀ u, s.point u = .acquiring lock → u ∉ (s.handOver t lock w own).waiters lock → u = w := by
    intro u hu hwait
    have hhanded := hl.handed lock u hu
    grind
  refine ⟨hs.donations hd hl hnot hh hown, hs.locks hl hrun hnot hh hl.listNodup (fun lock' => ?_) fun u hu hwait => ?_,
    hq.handOver hw⟩
  · exact (and_iff_left_of_imp fun _ _ => ⟨w, (hq.waiting lock w hw).1⟩).symm
  · obtain rfl := hwoken u hu hwait
    exact ⟨by grind, hwoken⟩

def HandsOver (s : Scheduler) (t lock : ℕ) : Prop :=
  ∀ w ∈ s.waiters lock, (s.waiters lock).erase w = [] → s.priorityOld t < s.priority w ∧
    ∀ lock' ∈ (s.allLocks t).erase lock, ∀ v ∈ s.waiters lock', s.priority v < s.priority w

instance : Decidable (s.HandsOver t lock) := by
  unfold HandsOver
  infer_instance

theorem Inv.lockRelease (hi : s.Inv) (ht : s.current = some t) (hrun : s.point t = .running) (hc : s.HandsOver t lock)
    (hr : s.lockRelease t lock = some s') : s'.Inv := by
  obtain ⟨hh, own, hown, ⟨hempty, rfl⟩ | ⟨w, hw, hmax, hs'⟩⟩ := lockRelease_cases hi ht hr
  · obtain ⟨hd, hl, hq⟩ := hi
    have hs : s.Dropped t lock own { s.drop t lock own with lockList := s.lockList.erase lock } :=
      ⟨rfl, rfl, rfl, rfl, rfl, rfl, fun _ _ => rfl⟩
    have hnobody : ∀ u, s.point u ≠ .acquiring lock := fun u hu => by
      have hnone := (hl.handed lock u hu (by simp [hempty])).1
      rw [hh] at hnone
      cases hnone
    refine ⟨hs.donations hd hl (hq.not_waiting ht) hh hown, hs.locks hl hrun (hq.not_waiting ht) hh (hl.listNodup.erase lock)
      (fun lock' => ?_) fun u hu => absurd hu (hnobody u), ⟨hq.active, hq.waiting, hq.waitNodup, hq.blocked⟩⟩
    rw [hl.listNodup.mem_erase_iff]
    simp [hnobody, and_comm]
  · have hi' := hi.handOver ht hrun hh hown hw hmax
    rcases hs' with rfl | ⟨hle, hfinish⟩
    · refine Inv.threadYield (hi'.setPoint (fun lock' hp => ?_) (by simp) (by simp)) ht
      rw [show s.point t = .acquiring lock' from hp] at hrun
      cases hrun
    · have hstays : (s.handOver t lock w own).isInitial lock = false := by
        rw [Bool.eq_false_iff]
        intro hinit
        have hempty : (s.waiters lock).erase w = [] := by
          simp only [isInitial, Scheduler.handOver, update_self, Bool.and_eq_true, List.isEmpty_iff] at hinit
          exact hinit.1.2
        obtain ⟨hold, hother⟩ := hc w hw hempty
        rcases hown.justified with heq | ⟨lock', hlock', v, hv, heq⟩
        · omega
        · have := hother lock' hlock' v hv
          omega
      rw [finishRelease, hstays] at hfinish
      exact some.inj hfinish ▸ hi'

theorem Inv.setPriority (hi : s.Inv) (ht : s.current = some t) (hp : 0 ≤ p)
    (hr : resetDonatePriority { s.raise t p with priorityOld := update s.priorityOld t p } = some s') :
    s'.Inv ∧ s'.current = some t := by
  obtain ⟨hd, hl, hq⟩ := hi
  have hbase : ∀ u, update s.priorityOld t p u ≤ update s.priority t p u := fun u => by
    have hbefore := hd.base u
    grind [update_apply]
  have hold : ∀ u, 0 ≤ update s.priorityOld t p u := fun u => by
    have hbefore := hd.nonneg u
    grind [update_apply]
  have hj : Justified s.Waits (update s.priorityOld t p) (update s.priority t p) := fun u => by
    have hbefore := hd.justified u
    have hnot := hq.not_waiting ht
    unfold Waits at *
    grind [update_apply]
  obtain ⟨hs', hj', habove, hheld⟩ := resetDonatePriority_justified
    (s := { s.raise t p with priorityOld := update s.priorityOld t p }) hl.value_eq_zero
    (fun u => (hold u).trans (hbase u)) hl.mem_lockList (fun _ _ h => h) hj hr
  have hl' := hl.setPriority hheld s'.priority
  rw [hs'.rest]
  exact ⟨⟨⟨hold, fun u => (hbase u).trans (hs'.le u), habove, hj'⟩,
    ⟨hl'.value, hl'.held, hl'.heldNodup, hl'.listed, hl'.listNodup, hl'.handed⟩,
    ⟨hq.active, hq.waiting, hq.waitNodup, hq.blocked⟩⟩, ht⟩

theorem Inv.threadSetPriority (hi : s.Inv) (ht : s.current = some t) (hp : 0 ≤ p)
    (hr : s.threadSetPriority t p = some s') : s'.Inv := by
  obtain ⟨s₁, hreset, rfl⟩ := map_eq_some_iff.mp hr
  obtain ⟨hi₁, ht₁⟩ := hi.setPriority ht hp hreset
  split
  · split_ifs
    · exact hi₁.threadYield ht₁
    · exact hi₁
  · exact hi₁

theorem Inv.acquired (hi : s.Inv) (ht : s.current = some t) (hp : s.point t = .acquiring lock) :
    (s.semaDown t lock).Inv := by
  obtain ⟨hnone, hle, halone⟩ := hi.locks.handed lock t hp (hi.queues.not_waiting ht lock)
  have hvalue : s.value lock ≠ 0 := by
    rw [hi.locks.value, if_pos hnone]
    exact one_ne_zero
  have hlisted : lock ∈ s.lockList := (hi.locks.listed lock).mpr (.inr ⟨t, hp⟩)
  rw [semaDown, if_neg hvalue]
  refine ⟨hi.donations.take hnone hle, hi.locks.take (.inr hp) hnone halone hi.locks.listNodup fun x => ?_,
    hi.queues.take (by simp [Scheduler.active, ht])⟩
  exact (or_iff_left_of_imp fun heq => heq ▸ hlisted).symm

theorem Inv.block (hi : s.Inv) (ht : s.current = some t) (hrun : s.point t = .running) :
    (s.setPoint t .blocked).schedule.Inv := by
  obtain ⟨hnot, hnodup⟩ := List.nodup_cons.mp (show (t :: s.readyList).Nodup by
    simpa [Scheduler.active, ht] using hi.queues.active)
  have hi' : Inv { s with current := none } :=
    hi.reactivate hnodup fun u hu => List.mem_append_right _ hu
  refine Inv.schedule (hi'.setPoint (fun lock hp => ?_) (by simp) fun _ => hnot)
  rw [show s.point t = .acquiring lock from hp] at hrun
  cases hrun

theorem Inv.unblock (hi : s.Inv) (hb : s.point t = .blocked) :
    Inv { s.setPoint t .running with readyList := s.readyList ++ [t] } := by
  have hwait : ∀ lock, t ∉ s.waiters lock := fun lock hin => by
    have hp := (hi.queues.waiting lock t hin).1
    rw [hb] at hp
    cases hp
  have hi' : (s.setPoint t .running).Inv := hi.setPoint (by simp [hb]) (by simp) (by simp)
  exact ⟨⟨hi'.donations.nonneg, hi'.donations.base, hi'.donations.above, hi'.donations.justified⟩,
    ⟨hi'.locks.value, hi'.locks.held, hi'.locks.heldNodup, hi'.locks.listed, hi'.locks.listNodup, hi'.locks.handed⟩,
    hi'.queues.activate (hi.queues.blocked t hb) hwait (by simp [Scheduler.setPoint])⟩

def finishing (s : Scheduler) : Option ℕ := s.current.bind fun t =>
  match s.point t with
  | .releasing lock => some lock
  | _ => none

def Orderly (s : Scheduler) : Action → Prop
  | .acquire lock => s.holder lock = none → lock ∉ s.lockList
  | .tryAcquire lock => s.value lock = 0
  | .release lock => ∀ t ∈ s.current, s.HandsOver t lock
  | .setPriority p => 0 ≤ p
  | .resume => ∀ lock ∈ s.finishing, s.isInitial lock = false
  | _ => True

instance : ∀ a, Decidable (s.Orderly a)
  | .acquire lock => inferInstanceAs (Decidable (s.holder lock = none → lock ∉ s.lockList))
  | .tryAcquire lock => inferInstanceAs (Decidable (s.value lock = 0))
  | .release lock => inferInstanceAs (Decidable (∀ t ∈ s.current, s.HandsOver t lock))
  | .setPriority p => inferInstanceAs (Decidable (0 ≤ p))
  | .resume => inferInstanceAs (Decidable (∀ lock ∈ s.finishing, s.isInitial lock = false))
  | .yield | .block | .unblock _ => .isTrue trivial

theorem caller_eq_some : s.caller = some t ↔ s.current = some t ∧ s.point t = .running := by
  simp [caller, filter_eq_some_iff]

theorem Inv.step {a : Action} (hi : s.Inv) (ho : s.Orderly a) (hs : s.step a = some s') : s'.Inv := by
  cases a with
  | acquire lock =>
    obtain ⟨t, ht, hs⟩ := bind_eq_some_iff.mp hs
    obtain ⟨ht, hrun⟩ := caller_eq_some.mp ht
    exact hi.lockAcquire ht hrun ho hs
  | tryAcquire lock =>
    obtain ⟨t, ht, hs⟩ := bind_eq_some_iff.mp hs
    simp only [lockTryAcquire, show s.value lock = 0 from ho, if_true] at hs
    split_ifs at hs
    exact some.inj hs ▸ hi
  | release lock =>
    obtain ⟨t, ht, hs⟩ := bind_eq_some_iff.mp hs
    obtain ⟨ht, hrun⟩ := caller_eq_some.mp ht
    exact hi.lockRelease ht hrun (ho t ht) hs
  | setPriority p =>
    obtain ⟨t, ht, hs⟩ := bind_eq_some_iff.mp hs
    exact hi.threadSetPriority (caller_eq_some.mp ht).1 ho hs
  | yield =>
    simp only [Scheduler.step] at hs
    split_ifs at hs with hidle
    · refine some.inj hs ▸ Inv.schedule (hi.reactivate ?_ fun _ h => List.mem_append_right _ h)
      exact (List.nodup_append.mp hi.queues.active).2.1
    · obtain ⟨t, ht, rfl⟩ := map_eq_some_iff.mp hs
      exact hi.threadYield (caller_eq_some.mp ht).1
  | block =>
    obtain ⟨t, ht, rfl⟩ := map_eq_some_iff.mp hs
    obtain ⟨ht, hrun⟩ := caller_eq_some.mp ht
    exact hi.block ht hrun
  | unblock t =>
    simp only [Scheduler.step] at hs
    split_ifs at hs with hb
    exact some.inj hs ▸ hi.unblock hb
  | resume =>
    obtain ⟨t, ht, hs⟩ := bind_eq_some_iff.mp hs
    unfold Scheduler.resume at hs
    split at hs
    · rename_i lock hp
      exact some.inj hs ▸ hi.acquired ht hp
    · rename_i lock hp
      have hstays := ho lock (by simp [finishing, ht, hp])
      have hi' : (s.setPoint t .running).Inv := hi.setPoint (by simp [hp]) (by simp) (by simp)
      rw [finishRelease, show (s.setPoint t .running).isInitial lock = false from hstays] at hs
      exact some.inj hs ▸ hi'
    · cases hs

structure Fresh (s : Scheduler) : Prop where
  own : s.priority = s.priorityOld
  nonneg : ∀ t, 0 ≤ s.priorityOld t
  holder : ∀ lock, s.holder lock = none
  value : ∀ lock, s.value lock = 1
  waiters : ∀ lock, s.waiters lock = []
  allLocks : ∀ t, s.allLocks t = []
  lockList : s.lockList = []
  active : s.active.Nodup
  point : ∀ t, s.point t = .running ∨ s.point t = .blocked ∧ t ∉ s.active

theorem Fresh.inv (hs : s.Fresh) : s.Inv := by
  have hpoint : ∀ t lock, s.point t ≠ .acquiring lock := fun t lock hp => by
    rcases hs.point t with hp' | ⟨hp', -⟩ <;> rw [hp'] at hp <;> cases hp
  refine ⟨⟨hs.nonneg, fun t => ?_, ?_, fun t => ?_⟩, ⟨fun lock => ?_, fun t lock => ?_, fun t => ?_, fun lock => ?_, ?_,
    fun lock t hp => absurd hp (hpoint t lock)⟩, ⟨hs.active, fun lock t ht => ?_, fun lock => ?_, fun t hb => ?_⟩⟩
  · rw [hs.own]
  · rintro u t ⟨lock, hu, -⟩
    rw [hs.waiters] at hu
    cases hu
  · rw [hs.own]
    exact .inl le_rfl
  · simp [hs.value, hs.holder]
  · simp [hs.allLocks, hs.holder]
  · simp [hs.allLocks]
  · simp [hs.lockList, hs.holder, hpoint]
  · simp [hs.lockList]
  · rw [hs.waiters] at ht
    cases ht
  · simp [hs.waiters]
  · rcases hs.point t with hp | ⟨-, hnot⟩
    · rw [hb] at hp
      cases hp
    · exact hnot

def system : System Scheduler Action := .ofStep Fresh step

theorem exact_of_orderly (h : system.ReachVia Orderly s) : s.Exact := by
  have hi : s.Inv := by
    refine System.ReachVia.invariant (I := Inv) (fun s hs => ?_) (fun s a s' hi ho hs => ?_) h
    · exact Fresh.inv hs
    · exact hi.step ho hs
  exact exact_of_justified hi.donations.base hi.donations.above hi.donations.justified

def start (priority : ℕ → ℤ) (ready : List ℕ) : Scheduler where
  priority := priority
  priorityOld := priority
  allLocks _ := []
  point t := if t ∈ 0 :: ready then .running else .blocked
  current := some 0
  readyList := ready
  holder _ := none
  value _ := 1
  waiters _ := []
  lockList := []

theorem fresh_start {priority : ℕ → ℤ} {ready : List ℕ} (hp : ∀ t, 0 ≤ priority t) (hnodup : (0 :: ready).Nodup) :
    (start priority ready).Fresh := by
  refine ⟨rfl, hp, fun _ => rfl, fun _ => rfl, fun _ => rfl, fun _ => rfl, rfl, hnodup, fun t => ?_⟩
  by_cases ht : t ∈ 0 :: ready
  · exact .inl (if_pos ht)
  · exact .inr ⟨if_neg ht, ht⟩

theorem exact_of_orderly_chain : ∃ s, system.ReachVia Orderly s ∧ s.priority 0 = 33 ∧ s.Exact := by
  have hrun : (System.runVia step Orderly (start (fun t => 31 + t) [])
      [.acquire 0, .unblock 1, .yield, .acquire 1, .acquire 0, .unblock 2, .yield, .acquire 1]).map (·.priority 0) =
        some 33 := by decide +kernel
  obtain ⟨s, hs, hv⟩ := map_eq_some_iff.mp hrun
  have hfresh : (start (fun t => 31 + t) []).Fresh := fresh_start (fun t => by omega) (List.nodup_singleton 0)
  have hreach : system.ReachVia Orderly s := System.ReachVia.run (.init hfresh) hs
  exact ⟨s, hreach, hv, exact_of_orderly hreach⟩

theorem not_exact_equalPriority :
    ∃ s, system.Reach s ∧ s.holder 0 = some 1 ∧ s.waiters 0 = [0] ∧ 0 ∉ s.lockList ∧ s.priority 0 = 40 ∧
      s.priority 1 = 31 ∧ ¬ s.Exact := by
  have hrun : (System.runVia step (fun _ _ => True) (start (fun t => if t = 2 then 40 else 31) [1])
      [.acquire 0, .acquire 1, .yield, .acquire 0, .release 0, .yield, .resume, .yield, .acquire 0, .unblock 2, .yield,
        .acquire 1]).map (fun s => (s.holder 0, s.waiters 0, s.lockList, s.priority 0, s.priority 1)) =
        some (some 1, [0], [1], 40, 31) := by decide +kernel
  obtain ⟨s, hs, hv⟩ := map_eq_some_iff.mp hrun
  simp only [Prod.mk.injEq] at hv
  obtain ⟨hholder, hwaiters, hlist, h0, h1⟩ := hv
  have hfresh : (start (fun t => if t = 2 then 40 else 31) [1]).Fresh :=
    fresh_start (fun t => by split_ifs <;> decide) (by decide)
  refine ⟨s, System.ReachVia.run (.init hfresh) hs, hholder, hwaiters, by simp [hlist], h0, h1, fun hexact => ?_⟩
  have hwaits : s.Waits 0 1 := ⟨0, by simp [hwaiters], hholder⟩
  have hle := (hexact 1).2 (.inr ⟨0, .single hwaits, rfl⟩)
  rw [h0, h1] at hle
  exact absurd hle (by decide)

end Scheduler
end Cs162.Threads
