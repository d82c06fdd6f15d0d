import Mathlib.Data.List.Nodup
import Cs162.Threads.Donation

namespace Cs162.Threads
open Lib Function Option

namespace Scheduler
variable {s s' : Scheduler} {t u v h lock : ℕ} {p : ℤ} {point : Point}

def active (s : Scheduler) : List ℕ := s.current.toList ++ s.readyList

structure Donations (s : Scheduler) : Prop where
  nonneg : ∀ t, 0 ≤ s.priorityOld t
  base : ∀ t, s.priorityOld t ≤ s.priority t
  above : ∀ u t, s.Waits u t → s.priority u ≤ s.priority t
  justified : Justified s.Waits s.priorityOld s.priority

structure Locks (s : Scheduler) : Prop where
  value : ∀ lock, s.value lock = if s.holder lock = none then 1 else 0
  held : ∀ t lock, lock ∈ s.allLocks t ↔ s.holder lock = some t
  heldNodup : ∀ t, (s.allLocks t).Nodup
  listed : ∀ lock, lock ∈ s.lockList ↔ s.holder lock ≠ none ∨ ∃ t, s.point t = .acquiring lock
  listNodup : s.lockList.Nodup
  handed : ∀ lock t, s.point t = .acquiring lock → t ∉ s.waiters lock → s.holder lock = none ∧
    (∀ v ∈ s.waiters lock, s.priority v ≤ s.priority t) ∧
    ∀ u, s.point u = .acquiring lock → u ∉ s.waiters lock → u = t

structure Queues (s : Scheduler) : Prop where
  active : s.active.Nodup
  waiting : ∀ lock t, t ∈ s.waiters lock → s.point t = .acquiring lock ∧ t ∉ s.active
  waitNodup : ∀ lock, (s.waiters lock).Nodup
  blocked : ∀ t, s.point t = .blocked → t ∉ s.active

structure Inv (s : Scheduler) : Prop where
  donations : s.Donations
  locks : s.Locks
  queues : s.Queues

theorem Inv.reactivate (hi : s.Inv) {current : Option ℕ} {readyList : List ℕ}
    (hnodup : (current.toList ++ readyList).Nodup) (hsub : ∀ t ∈ current.toList ++ readyList, t ∈ s.active) :
    Inv { s with current := current, readyList := readyList } := by
  obtain ⟨⟨h1, h2, h3, h4⟩, ⟨h5, h6, h7, h8, h9, h10⟩, ⟨-, hwait, hw, hblocked⟩⟩ := hi
  exact ⟨⟨h1, h2, h3, h4⟩, ⟨h5, h6, h7, h8, h9, h10⟩, ⟨hnodup,
    fun lock t ht => ⟨(hwait lock t ht).1, fun ha => (hwait lock t ht).2 (hsub t ha)⟩, hw,
    fun t ht ha => hblocked t ht (hsub t ha)⟩⟩

theorem Inv.schedule (hi : Inv { s with current := none }) : s.schedule.Inv := by
  have hnodup : s.readyList.Nodup := hi.queues.active
  unfold Scheduler.schedule
  split
  · rename_i m hm
    have hperm := List.perm_cons_erase (listMax_mem hm)
    exact hi.reactivate (hperm.nodup hnodup) fun t ht => hperm.symm.subset ht
  · exact hi.reactivate hnodup fun _ ht => ht

theorem Inv.threadYield (hi : s.Inv) (ht : s.current = some t) : (s.threadYield t).Inv := by
  have hperm : (t :: s.readyList).Perm (s.readyList ++ [t]) := (List.perm_append_singleton t s.readyList).symm
  have hactive : s.active = t :: s.readyList := by rw [active, ht]; rfl
  have hready : Inv { s with current := none, readyList := s.readyList ++ [t] } := by
    refine hi.reactivate (hperm.nodup (hactive ▸ hi.queues.active)) fun u hu => ?_
    rw [hactive]
    exact hperm.symm.subset hu
  exact hready.schedule

theorem Inv.setPoint (hi : s.Inv) (hold : ∀ lock, s.point t ≠ .acquiring lock) (hnew : ∀ lock, point ≠ .acquiring lock)
    (hb : point = .blocked → t ∉ s.active) : (s.setPoint t point).Inv := by
  have hpoint : ∀ u lock, (s.setPoint t point).point u = .acquiring lock ↔ s.point u = .acquiring lock := by
    dsimp only [Scheduler.setPoint]
    grind [update_apply]
  obtain ⟨⟨h1, h2, h3, h4⟩, ⟨h5, h6, h7, h8, h9, h10⟩, ⟨hactive, hwait, hw, hblocked⟩⟩ := hi
  refine ⟨⟨h1, h2, h3, h4⟩, ⟨h5, h6, h7, fun lock => ?_, h9, fun lock u hu hnot => ?_⟩, ⟨hactive, fun lock u hu => ?_, hw,
    fun u hu => ?_⟩⟩
  · simp only [hpoint]
    exact h8 lock
  · obtain ⟨hnone, hle, huniq⟩ := h10 lock u ((hpoint u lock).mp hu) hnot
    exact ⟨hnone, hle, fun x hx => huniq x ((hpoint x lock).mp hx)⟩
  · rw [hpoint]
    exact hwait lock u hu
  · dsimp only [Scheduler.setPoint] at hu
    grind [update_apply, active, Scheduler.setPoint]

theorem Justified.mono {W W' : ℕ → ℕ → Prop} {old priority : ℕ → ℤ} (hj : Justified W old priority)
    (hW : ∀ u t, W u t → W' u t) : Justified W' old priority := fun t =>
  (hj t).imp_right fun ⟨u, hu, hle⟩ => ⟨u, hW u t hu, hle⟩

def take (s : Scheduler) (t lock : ℕ) : Scheduler :=
  { s.setPoint t .running with
    value := update s.value lock (s.value lock - 1)
    allLocks := update s.allLocks t (s.allLocks t ++ [lock])
    holder := update s.holder lock (some t) }

theorem Donations.take (hd : s.Donations) (hnone : s.holder lock = none)
    (hle : ∀ v ∈ s.waiters lock, s.priority v ≤ s.priority t) : (s.take t lock).Donations := by
  refine ⟨hd.nonneg, hd.base, ?_, hd.justified.mono ?_⟩
  · rintro u x ⟨lock', hu, hx⟩
    have habove := fun h => hd.above u x ⟨lock', hu, h⟩
    dsimp only [Scheduler.take, Scheduler.setPoint] at hu hx ⊢
    grind [update_apply]
  · rintro u x ⟨lock', hu, hx⟩
    refine ⟨lock', hu, (update_of_ne ?_ ..).trans hx⟩
    grind

theorem Locks.take (hl : s.Locks) (hpoint : s.point t = .running ∨ s.point t = .acquiring lock)
    (hnone : s.holder lock = none) (halone : ∀ u, s.point u = .acquiring lock → u ∉ s.waiters lock → u = t)
    {l : List ℕ} (hnodup : l.Nodup) (hmem : ∀ x, x ∈ l ↔ x ∈ s.lockList ∨ x = lock) :
    Locks { s.take t lock with lockList := l } := by
  have hpoint' : ∀ u, (s.take t lock).point u = if u = t then .running else s.point u := fun u =>
    update_apply ..
  have hholder : ∀ x, (s.take t lock).holder x = if x = lock then some t else s.holder x := fun x =>
    update_apply ..
  have hlocks : ∀ u, (s.take t lock).allLocks u = if u = t then s.allLocks t ++ [lock] else s.allLocks u := fun u =>
    update_apply ..
  have hvalue' : ∀ x, (s.take t lock).value x = if x = lock then s.value lock - 1 else s.value x := fun x =>
    update_apply ..
  refine ⟨fun lock' => ?_, fun u lock' => ?_, fun u => ?_, fun lock' => ?_, hnodup, fun lock' u hu hnot => ?_⟩
  · have hvalue := hl.value lock'
    grind
  · have hheld := hl.held u lock'
    grind
  · have hfresh := hl.held u lock
    have hheldNodup := hl.heldNodup u
    grind
  · have hlisted := hl.listed lock'
    grind
  · have hhanded := hl.handed lock' u
    have hsame : (s.take t lock).waiters = s.waiters ∧ (s.take t lock).priority = s.priority := ⟨rfl, rfl⟩
    grind

theorem Queues.take (hq : s.Queues) (ht : t ∈ s.active) : (s.take t lock).Queues := by
  have hpoint : ∀ u, (s.take t lock).point u = if u = t then .running else s.point u := fun u => update_apply ..
  have hactive : (s.take t lock).active = s.active := rfl
  refine ⟨hq.active, fun lock' u hu => ?_, hq.waitNodup, fun u hu => ?_⟩
  · have hwaiting := hq.waiting lock' u hu
    grind
  · have hblocked := hq.blocked u
    grind

def wait (s : Scheduler) (t lock : ℕ) : Scheduler :=
  { s.setPoint t (.acquiring lock) with
    waiters := update s.waiters lock (s.waiters lock ++ [t])
    current := none }

theorem mem_waiters_wait {lock' : ℕ} :
    u ∈ (s.wait t lock).waiters lock' ↔ u ∈ s.waiters lock' ∨ lock' = lock ∧ u = t := by
  dsimp only [wait]
  grind [update_apply]

theorem waits_wait (hh : s.holder lock = some h) : (s.wait t lock).Waits u v ↔ s.Waits u v ∨ u = t ∧ v = h := by
  constructor
  · rintro ⟨lock', hu, hv⟩
    rcases mem_waiters_wait.mp hu with hu | ⟨rfl, rfl⟩
    · exact .inl ⟨lock', hu, hv⟩
    · exact .inr ⟨rfl, some.inj (Eq.trans (Eq.symm hv) hh)⟩
  · rintro (⟨lock', hu, hv⟩ | ⟨rfl, rfl⟩)
    · exact ⟨lock', mem_waiters_wait.mpr (.inl hu), hv⟩
    · exact ⟨lock, mem_waiters_wait.mpr (.inr ⟨rfl, rfl⟩), hh⟩

theorem Locks.wait (hl : s.Locks) (hrun : s.point t = .running) (hh : s.holder lock = some h)
    (hheld : ∀ lock ∈ s.lockList, (s.holder lock).isSome) : (s.wait t lock).Locks := by
  have hpoint : ∀ u lock', (s.wait t lock).point u = .acquiring lock' ↔
      s.point u = .acquiring lock' ∨ u = t ∧ lock' = lock := by
    dsimp only [Scheduler.wait, Scheduler.setPoint]
    grind [update_apply]
  refine ⟨hl.value, hl.held, hl.heldNodup, fun lock' => ?_, hl.listNodup, fun lock' u hu hnot => ?_⟩
  · have hlisted := hl.listed lock'
    have hholder : (s.wait t lock).holder = s.holder ∧ (s.wait t lock).lockList = s.lockList := ⟨rfl, rfl⟩
    grind
  -- a lock that is handed over would be in the list without a holder
  · have hhanded := hl.handed lock' u
    have hlisted := hl.listed lock'
    have hwaiting : u ∈ (s.wait t lock).waiters lock' ↔ _ := mem_waiters_wait
    grind

theorem Queues.wait (hq : s.Queues) (ht : s.current = some t) : (s.wait t lock).Queues := by
  have hactive : s.active = t :: s.readyList := by rw [Scheduler.active, ht]; rfl
  obtain ⟨hready, hnodup⟩ := List.nodup_cons.mp (hactive ▸ hq.active)
  have hactive' : (s.wait t lock).active = s.readyList := rfl
  have hpoint : ∀ u, (s.wait t lock).point u = if u = t then .acquiring lock else s.point u := fun u =>
    update_apply ..
  have hwaiters : ∀ x, (s.wait t lock).waiters x = if x = lock then s.waiters lock ++ [t] else s.waiters x := fun x =>
    update_apply ..
  refine ⟨hnodup, fun lock' u hu => ?_, fun lock' => ?_, fun u hu => ?_⟩
  · have hwaiting := hq.waiting lock' u
    grind
  · have hwaiting := hq.waiting lock t
    have hwaitNodup := hq.waitNodup lock'
    grind
  · have hblocked := hq.blocked u
    grind

theorem Locks.value_eq_zero (hl : s.Locks) (lock h : ℕ) (hh : s.holder lock = some h) : s.value lock = 0 := by
  rw [hl.value, hh]
  rfl

theorem Locks.mem_lockList (hl : s.Locks) (lock h : ℕ) (hh : s.holder lock = some h) : lock ∈ s.lockList :=
  (hl.listed lock).mpr (.inl (by rw [hh]; exact some_ne_none h))

theorem Locks.setPriority (hl : s.Locks) (hheld : ∀ lock ∈ s.lockList, (s.holder lock).isSome) (priority : ℕ → ℤ) :
    Locks { s with priority := priority } := by
  refine ⟨hl.value, hl.held, hl.heldNodup, hl.listed, hl.listNodup, fun lock t ht hnot => ?_⟩
  have hnone := (hl.handed lock t ht hnot).1
  have := hheld lock ((hl.listed lock).mpr (.inr ⟨t, ht⟩))
  rw [hnone] at this
  cases this

def lend (s : Scheduler) (t h : ℕ) : Scheduler := if s.priority h < s.priority t then s.raise h (s.priority t) else s

theorem lend_spec (s : Scheduler) (t h : ℕ) :
    ∃ priority : ℕ → ℤ, s.lend t h = { s with priority := priority } ∧ (∀ u, s.priority u ≤ priority u) ∧
      s.priority t ≤ priority h ∧ ∀ u, priority u = s.priority u ∨ u = h ∧ priority u = s.priority t := by
  unfold lend
  split_ifs with hlt
  · have hself : update s.priority h (s.priority t) h = s.priority t := update_self ..
    refine ⟨_, rfl, ((Raised.refl s).raise hlt.le).le, hself.ge, fun u => ?_⟩
    by_cases hu : u = h
    · exact .inr ⟨hu, hu ▸ update_self ..⟩
    · exact .inl (update_of_ne hu ..)
  · exact ⟨_, rfl, fun _ => le_rfl, not_lt.mp hlt, fun _ => .inl rfl⟩

theorem donate_chain (hd : s.Donations) (hl : s.Locks) (hne : h ≠ t)
    (hr : (s.lend t h).resetDonatePriority = some s') :
    ∃ priority : ℕ → ℤ, s' = { s with priority := priority } ∧ (∀ u, s.priority u ≤ priority u) ∧
      Justified (fun u v => s.Waits u v ∨ u = t ∧ v = h) s.priorityOld priority ∧
      (∀ u v, s.Waits u v → priority u ≤ priority v) ∧ priority t ≤ priority h ∧
      ∀ lock ∈ s.lockList, (s.holder lock).isSome := by
  obtain ⟨priority, hlend, hle, hgive, hlent⟩ := s.lend_spec t h
  rw [hlend] at hr
  have hvalue : ∀ lock h, s.holder lock = some h → s.value lock = 0 := hl.value_eq_zero
  have hnonneg : ∀ u, 0 ≤ priority u := fun u => (hd.nonneg u).trans ((hd.base u).trans (hle u))
  have hj : Justified (fun u v => s.Waits u v ∨ u = t ∧ v = h) s.priorityOld priority := fun u => by
    rcases hlent u with heq | ⟨rfl, heq⟩
    · rw [heq]
      exact (hd.justified u).imp_right fun ⟨x, hx, hx'⟩ => ⟨x, .inl hx, hx'.trans (hle x)⟩
    · have hself : priority t = s.priority t := (hlent t).resolve_right fun hx => hne hx.1.symm
      exact .inr ⟨t, .inr ⟨rfl, rfl⟩, (heq.trans hself.symm).le⟩
  obtain ⟨hs', hj', habove, hheld⟩ := resetDonatePriority_justified (s := { s with priority := priority }) hvalue hnonneg
    hl.mem_lockList (fun u v huv => .inl huv) hj hr
  have hbound := resetDonatePriority_bound (s := { s with priority := priority }) hvalue hnonneg hd.above hle
    (fun u => (hlent u).imp_right fun hu => hu.2.le) hr t
  exact ⟨s'.priority, hs'.rest, fun u => (hle u).trans (hs'.le u), hj', habove,
    (hbound.elim (fun heq => heq.le) id).trans (hgive.trans (hs'.le h)), hheld⟩

theorem Inv.lockWait (hi : s.Inv) (ht : s.current = some t) (hrun : s.point t = .running) (hh : s.holder lock = some h)
    (hne : h ≠ t) (hr : (s.lend t h).resetDonatePriority = some s') : (s'.semaDown t lock).Inv := by
  obtain ⟨hd, hl, hq⟩ := hi
  obtain ⟨priority, rfl, hle, hj, habove, htop, hheld⟩ := donate_chain hd hl hne hr
  rw [semaDown, if_pos (hl.value_eq_zero lock h hh)]
  have hl' : Locks { s with priority := priority } := hl.setPriority hheld priority
  have hq' : Queues { s with priority := priority } := ⟨hq.active, hq.waiting, hq.waitNodup, hq.blocked⟩
  have hwaits : ∀ {u v}, (Scheduler.wait { s with priority := priority } t lock).Waits u v ↔ s.Waits u v ∨ u = t ∧ v = h :=
    waits_wait hh
  refine Inv.schedule ⟨⟨hd.nonneg, fun u => (hd.base u).trans (hle u), fun u v huv => ?_, ?_⟩,
    hl'.wait hrun hh hheld, hq'.wait ht⟩
  · rcases hwaits.mp huv with huv | ⟨rfl, rfl⟩
    · exact habove u v huv
    · exact htop
  · exact hj.mono fun u v huv => hwaits.mpr huv

theorem Inv.lockAcquire (hi : s.Inv) (ht : s.current = some t) (hrun : s.point t = .running)
    (hfree : s.holder lock = none → lock ∉ s.lockList) (ha : s.lockAcquire t lock = some s') : s'.Inv := by
  unfold Scheduler.lockAcquire at ha
  split_ifs at ha with hself hinit
  · obtain ⟨s₁, happend, ha⟩ := bind_eq_some_iff.mp ha
    simp only [isInitial, Bool.and_eq_true, isNone_iff_eq_none, List.isEmpty_iff, beq_iff_eq] at hinit
    obtain ⟨⟨hnone, hempty⟩, hvalue⟩ := hinit
    have hnot := hfree hnone
    rw [appendLockList, if_neg hnot, some.injEq] at happend
    subst happend
    have hnobody : ∀ u, s.point u ≠ .acquiring lock := fun u hu => hnot ((hi.locks.listed lock).mpr (.inr ⟨u, hu⟩))
    simp only [donateTo, hnone, map_some, some.injEq] at ha
    subst ha
    rw [semaDown, if_neg (by rw [hvalue]; exact one_ne_zero)]
    have hd : (s.take t lock).Donations := hi.donations.take hnone (by simp [hempty])
    have hq : (s.take t lock).Queues := hi.queues.take (by simp [Scheduler.active, ht])
    have hnodup : (s.lockList ++ [lock]).Nodup := by
      refine List.nodup_append.mpr ⟨hi.locks.listNodup, List.nodup_singleton _, fun x hx y hy => ?_⟩
      rintro rfl
      exact hnot (List.mem_singleton.mp hy ▸ hx)
    have hl : Locks { s.take t lock with lockList := s.lockList ++ [lock] } :=
      hi.locks.take (.inl hrun) hnone (fun u hu => absurd hu (hnobody u)) hnodup (by simp)
    exact ⟨⟨hd.nonneg, hd.base, hd.above, hd.justified⟩, hl, ⟨hq.active, hq.waiting, hq.waitNodup, hq.blocked⟩⟩
  · rw [bind_some] at ha
    obtain ⟨s₁, hdonate, rfl⟩ := map_eq_some_iff.mp ha
    cases hh : s.holder lock with
    | none =>
      -- a lock that nobody holds or takes is in its initial state
      have hnot := hfree hh
      have hempty : s.waiters lock = [] := List.eq_nil_iff_forall_not_mem.mpr fun u hu =>
        hnot ((hi.locks.listed lock).mpr (.inr ⟨u, (hi.queues.waiting lock u hu).1⟩))
      exact absurd (by simp [isInitial, hh, hempty, hi.locks.value]) hinit
    | some h =>
      simp only [donateTo, hh] at hdonate
      exact hi.lockWait ht hrun hh (fun heq => hself (heq ▸ hh)) hdonate

end Scheduler
end Cs162.Threads
