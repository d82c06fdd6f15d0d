import Cs162.Threads.MlfqsArith
import Cs162.Threads.ReadyQueues

namespace Cs162.Threads.Mlfqs.State
open Lib Option
variable {s s' s'' : State} {t N j : ℕ} {f : Thread → Thread}

def threadSetLoadAvgChecked (s : State) : Option State :=
  (Checked.loadAvg s.loadAvg (s.allList.filter s.isActive).length).map fun loadAvg => { s with loadAvg }

def threadRefreshRecentCpuChecked (s : State) (t : ℕ) : Option State :=
  (Checked.recentCpu s.loadAvg (s.thread t).recentCpu (s.thread t).nice).map fun recentCpu =>
    s.modify t ({ · with recentCpu })

def storePriority (s : State) (t : ℕ) (priority : Fin 64) : State :=
  let s' := s.modify t ({ · with priority })
  if (s.thread t).status = .ready ∧ (s'.thread t).priority ≠ (s.thread t).priority then
    { s' with ready := (s'.ready.remove t).push (s'.thread t).priority t }
  else s'

def threadRefreshPriorityChecked (s : State) (t : ℕ) : Option State :=
  (Checked.priority (s.thread t).nice (s.thread t).recentCpu).map fun priority => s.storePriority t (recap priority)

def forThreadsChecked (f : State → ℕ → Option State) (s : State) : Option State :=
  s.allList.foldlM (fun s t => if some t = s.idleThread then some s else f s t) s

def chargeTick (s : State) : Option State :=
  if some s.current = s.idleThread then some (s.modify s.current fun th => { th with recentCpu := faddI th.recentCpu 1 })
  else (Checked.faddI .int64 (s.thread s.current).recentCpu 1).map fun recentCpu => s.modify s.current ({ · with recentCpu })

def sampled (s : State) : State := s.allList.foldl wakeThread { s with ticks := s.ticks + 1 }

def everySecondChecked (s : State) : Option State :=
  if s.ticks % timerFreq = 0 then s.threadSetLoadAvgChecked.bind (forThreadsChecked threadRefreshRecentCpuChecked)
  else some s

def everySliceChecked (s : State) : Option State :=
  if s.ticks % timeSlice = 0 then forThreadsChecked threadRefreshPriorityChecked s else some s

def threadTickChecked (s : State) : Option Outcome := do
  let s ← s.sampled.chargeTick
  let s ← s.everySecondChecked
  let s ← s.everySliceChecked
  return s.threadYield

local instance neZero_queues : NeZero 64 := inferInstance

def threadSetNiceChecked (s : State) (nice : ℤ) : Option Outcome := do
  let s ← (s.modify s.current ({ · with nice })).threadRefreshRecentCpuChecked s.current
  let s ← s.threadRefreshPriorityChecked s.current
  return if (s.thread s.current).priority < s.firstQueue.getD 0 then s.threadYield else s.stay

structure SameNumbers (s s' : State) : Prop where
  allList : s'.allList = s.allList
  idleThread : s'.idleThread = s.idleThread
  loadAvg : s'.loadAvg = s.loadAvg
  ticks : s'.ticks = s.ticks
  nice : ∀ t, (s'.thread t).nice = (s.thread t).nice
  recentCpu : ∀ t, (s'.thread t).recentCpu = (s.thread t).recentCpu

theorem SameNumbers.refl (s : State) : SameNumbers s s := ⟨rfl, rfl, rfl, rfl, fun _ => rfl, fun _ => rfl⟩

theorem SameNumbers.trans (h : SameNumbers s s') (h' : SameNumbers s' s'') : SameNumbers s s'' :=
  ⟨h'.allList.trans h.allList, h'.idleThread.trans h.idleThread, h'.loadAvg.trans h.loadAvg, h'.ticks.trans h.ticks,
    fun t => (h'.nice t).trans (h.nice t), fun t => (h'.recentCpu t).trans (h.recentCpu t)⟩

theorem SameNumbers.modify (s : State) (t : ℕ) (hnice : (f (s.thread t)).nice = (s.thread t).nice)
    (hcpu : (f (s.thread t)).recentCpu = (s.thread t).recentCpu) : SameNumbers s (s.modify t f) := by
  refine ⟨rfl, rfl, rfl, rfl, fun u => ?_, fun u => ?_⟩
  all_goals
    by_cases hu : u = t
    · subst hu
      rw [modify_self]
      assumption
    · rw [modify_of_ne s hu]

theorem SameNumbers.setStatus (s : State) (t : ℕ) (status : Status) : SameNumbers s (s.setStatus t status) :=
  .modify s t rfl rfl

theorem SameNumbers.enqueue (s : State) (t : ℕ) : SameNumbers s (s.enqueue t) :=
  ⟨rfl, rfl, rfl, rfl, fun _ => rfl, fun _ => rfl⟩

theorem SameNumbers.threadYield (s : State) : SameNumbers s s.threadYield.2 := by
  refine SameNumbers.trans ?_ (.setStatus _ s.current .ready)
  split_ifs
  · exact .refl s
  · exact .enqueue s s.current

theorem SameNumbers.schedule (h : s.schedule = some s') : SameNumbers s s' := by
  have hnext : SameNumbers s s.nextThreadToRun.2 := by
    unfold nextThreadToRun
    split
    · exact ⟨rfl, rfl, rfl, rfl, fun _ => rfl, fun _ => rfl⟩
    · exact .refl s
  unfold State.schedule at h
  split at h
  · rename_i t s1 heq
    cases h
    rw [heq] at hnext
    have hrun := hnext.trans (.setStatus s1 t .running)
    exact ⟨hrun.allList, hrun.idleThread, hrun.loadAvg, hrun.ticks, hrun.nice, hrun.recentCpu⟩
  · cases h

theorem SameNumbers.threadUnblock (h : s.threadUnblock t = some s') : SameNumbers s s' := by
  unfold State.threadUnblock at h
  split_ifs at h
  cases h
  exact (SameNumbers.enqueue s t).trans (.setStatus _ t .ready)

theorem SameNumbers.wakeThread (s : State) (t : ℕ) : SameNumbers s (s.wakeThread t) := by
  unfold State.wakeThread
  split_ifs with hsleeps
  · have hless : SameNumbers s (s.modify t fun th => { th with sleepTicks := th.sleepTicks - 1 }) := .modify s t rfl rfl
    dsimp only
    split_ifs
    · exact (hless.trans (.enqueue _ t)).trans (.setStatus _ t .ready)
    · exact hless
  · exact .refl s

theorem SameNumbers.wakeThreads (l : List ℕ) (s : State) : SameNumbers s (l.foldl State.wakeThread s) := by
  induction l generalizing s with
  | nil => exact .refl s
  | cons t l ih => exact (SameNumbers.wakeThread s t).trans (ih _)

theorem SameNumbers.storePriority (s : State) (t : ℕ) (priority : Fin 64) : SameNumbers s (s.storePriority t priority) := by
  have hstore : SameNumbers s (s.modify t ({ · with priority })) := .modify s t rfl rfl
  unfold State.storePriority
  dsimp only
  split_ifs
  · exact ⟨hstore.allList, hstore.idleThread, hstore.loadAvg, hstore.ticks, hstore.nice, hstore.recentCpu⟩
  · exact hstore

def Counted (s : State) (t : ℕ) : Prop := t ∈ s.allList ∧ some t ≠ s.idleThread

structure Bounded (N j : ℕ) (s : State) : Prop where
  load : 0 ≤ s.loadAvg ∧ s.loadAvg ≤ N * frac
  nice : ∀ t, s.Counted t → -20 ≤ (s.thread t).nice ∧ (s.thread t).nice ≤ 20
  cpu : ∀ t, s.Counted t → |(s.thread t).recentCpu| ≤ Checked.cpuBound N j

theorem SameNumbers.counted (h : SameNumbers s s') : s'.Counted t ↔ s.Counted t := by
  unfold Counted
  rw [h.allList, h.idleThread]

theorem Bounded.of_same (h : s.Bounded N j) (hsame : SameNumbers s s') : s'.Bounded N j := by
  refine ⟨hsame.loadAvg ▸ h.load, fun t ht => ?_, fun t ht => ?_⟩
  · rw [hsame.nice]
    exact h.nice t (hsame.counted.mp ht)
  · rw [hsame.recentCpu]
    exact h.cpu t (hsame.counted.mp ht)

theorem Bounded.mono {k : ℕ} (h : s.Bounded N j) (hjk : j ≤ k) : s.Bounded N k :=
  ⟨h.load, h.nice, fun t ht => (h.cpu t ht).trans (Checked.cpuBound_le hjk)⟩

theorem Bounded.modify (h : s.Bounded N j)
    (hnice : s.Counted t → -20 ≤ (f (s.thread t)).nice ∧ (f (s.thread t)).nice ≤ 20)
    (hcpu : s.Counted t → |(f (s.thread t)).recentCpu| ≤ Checked.cpuBound N j) : (s.modify t f).Bounded N j := by
  refine ⟨h.load, fun u hu => ?_, fun u hu => ?_⟩
  · by_cases hut : u = t
    · subst hut
      rw [modify_self]
      exact hnice hu
    · rw [modify_of_ne s hut]
      exact h.nice u hu
  · by_cases hut : u = t
    · subst hut
      rw [modify_self]
      exact hcpu hu
    · rw [modify_of_ne s hut]
      exact h.cpu u hu

theorem Bounded.threadRefreshRecentCpu (h : s.Bounded N j) (hN : N ≤ 1000) (hj : j ≤ 100) (ht : s.Counted t) :
    s.threadRefreshRecentCpuChecked t = some (s.threadRefreshRecentCpu t) ∧
      (s.threadRefreshRecentCpu t).Bounded N j ∧
      |((s.threadRefreshRecentCpu t).thread t).recentCpu| ≤ Checked.cpuBound N 0 := by
  have hnew := (Checked.recentCpu_bound h.load (h.cpu t ht) hj (h.nice t ht)).2
  refine ⟨?_, h.modify (h.nice t) fun _ => hnew.trans (Checked.cpuBound_le (Nat.zero_le j)), ?_⟩
  · rw [threadRefreshRecentCpuChecked, Checked.recentCpu_eq hN h.load (h.cpu t ht) hj (h.nice t ht)]
    rfl
  · rw [State.threadRefreshRecentCpu, modify_self]
    exact hnew

theorem threadRefreshPriority_eq (s : State) (t : ℕ) :
    s.threadRefreshPriority t = s.storePriority t (newPriority (s.thread t)) := by
  unfold threadRefreshPriority storePriority
  rfl

theorem recap_val (p : Fin 64) : recap ((p : ℕ) : ℤ) = p := by
  refine Fin.ext ?_
  have hp := p.isLt
  show (min (max ((p : ℕ) : ℤ) 0) priMax).toNat = p
  unfold priMax
  omega

theorem Bounded.threadRefreshPriority (h : s.Bounded N j) (hN : N ≤ 1000) (hj : j ≤ 100) (ht : s.Counted t) :
    s.threadRefreshPriorityChecked t = some (s.threadRefreshPriority t) ∧ (s.threadRefreshPriority t).Bounded N j := by
  rw [threadRefreshPriority_eq]
  refine ⟨?_, h.of_same (.storePriority s t _)⟩
  rw [threadRefreshPriorityChecked, Checked.priority_eq hN (h.cpu t ht) hj (h.nice t ht), map_some, recap_val]

theorem Bounded.threadSetLoadAvg (h : s.Bounded N j) (hN : N ≤ 1000) (hactive : (s.allList.filter s.isActive).length ≤ N) :
    s.threadSetLoadAvgChecked = some s.threadSetLoadAvg ∧ s.threadSetLoadAvg.Bounded N j := by
  have hcount : 0 ≤ ((s.allList.filter s.isActive).length : ℤ) ∧ ((s.allList.filter s.isActive).length : ℤ) ≤ N :=
    ⟨Int.natCast_nonneg _, by exact_mod_cast hactive⟩
  refine ⟨?_, (Checked.loadAvg_bounds h.load hcount).2, h.nice, h.cpu⟩
  rw [threadSetLoadAvgChecked, Checked.loadAvg_eq hN h.load hcount]
  rfl

structure Pending (N : ℕ) (l : List ℕ) (s : State) : Prop where
  bounded : s.Bounded N 100
  done : ∀ t, s.Counted t → t ∉ l → |(s.thread t).recentCpu| ≤ Checked.cpuBound N 0

theorem Pending.loop (hN : N ≤ 1000) {l : List ℕ} (h : s.Pending N l) (hl : ∀ t ∈ l, t ∈ s.allList) :
    l.foldlM (fun s t => if some t = s.idleThread then some s else s.threadRefreshRecentCpuChecked t) s =
        some (l.foldl (fun s t => if some t = s.idleThread then s else s.threadRefreshRecentCpu t) s) ∧
      (l.foldl (fun s t => if some t = s.idleThread then s else s.threadRefreshRecentCpu t) s).Pending N [] := by
  induction l generalizing s with
  | nil => exact ⟨rfl, h⟩
  | cons t l ih =>
    have htail : ∀ u ∈ l, u ∈ s.allList := fun u hu => hl u (List.mem_cons_of_mem t hu)
    rw [List.foldlM_cons, List.foldl_cons]
    by_cases hidle : some t = s.idleThread
    · rw [if_pos hidle, if_pos hidle]
      refine ih ⟨h.bounded, fun u hu hmem => h.done u hu ?_⟩ htail
      rintro (_ | hmem')
      · exact hu.2 hidle
      · contradiction
    · rw [if_neg hidle, if_neg hidle]
      obtain ⟨hchecked, hbounded, hnew⟩ :=
        h.bounded.threadRefreshRecentCpu hN le_rfl ⟨hl t List.mem_cons_self, hidle⟩
      rw [hchecked]
      refine ih ⟨hbounded, fun u hu hmem => ?_⟩ htail
      by_cases hut : u = t
      · exact hut ▸ hnew
      · rw [State.threadRefreshRecentCpu, modify_of_ne s hut]
        refine h.done u hu fun hcons => ?_
        exact (List.mem_cons.mp hcons).elim hut hmem

theorem Bounded.refreshPriorities (hN : N ≤ 1000) (hj : j ≤ 100) (h : s.Bounded N j) :
    s.forThreadsChecked threadRefreshPriorityChecked = some (s.forThreads State.threadRefreshPriority) ∧
      (s.forThreads State.threadRefreshPriority).Bounded N j := by
  have hloop : ∀ (l : List ℕ) (s : State), s.Bounded N j → (∀ t ∈ l, t ∈ s.allList) →
      l.foldlM (fun s t => if some t = s.idleThread then some s else s.threadRefreshPriorityChecked t) s =
          some (l.foldl (fun s t => if some t = s.idleThread then s else s.threadRefreshPriority t) s) ∧
        (l.foldl (fun s t => if some t = s.idleThread then s else s.threadRefreshPriority t) s).Bounded N j := by
    intro l
    induction l with
    | nil => exact fun s hs _ => ⟨rfl, hs⟩
    | cons t l ih =>
      intro s hs hl
      have htail : ∀ u ∈ l, u ∈ s.allList := fun u hu => hl u (List.mem_cons_of_mem t hu)
      rw [List.foldlM_cons, List.foldl_cons]
      by_cases hidle : some t = s.idleThread
      · rw [if_pos hidle, if_pos hidle]
        exact ih s hs htail
      · rw [if_neg hidle, if_neg hidle]
        obtain ⟨hchecked, hbounded⟩ := hs.threadRefreshPriority hN hj ⟨hl t List.mem_cons_self, hidle⟩
        rw [hchecked]
        refine ih _ hbounded fun u hu => ?_
        rw [threadRefreshPriority_eq, (SameNumbers.storePriority s t _).allList]
        exact htail u hu
  exact hloop s.allList s h fun _ => id

def charged (s : State) : State := s.modify s.current fun th => { th with recentCpu := faddI th.recentCpu 1 }

def everySecond (s : State) : State :=
  if s.ticks % timerFreq = 0 then forThreads State.threadRefreshRecentCpu s.threadSetLoadAvg else s

def everySlice (s : State) : State := if s.ticks % timeSlice = 0 then forThreads State.threadRefreshPriority s else s

theorem threadTick_eq (s : State) : s.threadTick = s.sampled.charged.everySecond.everySlice.threadYield := by
  unfold threadTick everySlice everySecond charged sampled
  rfl

theorem Bounded.charged (h : s.Bounded N j) (hN : N ≤ 1000) (hj : j < 100) (hi : s.current ∈ s.allList) :
    s.chargeTick = some s.charged ∧ s.charged.Bounded N (j + 1) := by
  have hmore : ∀ cpu : ℤ, |cpu| ≤ Checked.cpuBound N j → |faddI cpu 1| ≤ Checked.cpuBound N (j + 1) := by
    intro cpu hcpu
    obtain ⟨hlo, hhi⟩ := abs_le.mp hcpu
    refine abs_le.mpr ?_
    unfold Checked.cpuBound faddI at *
    rw [Checked.frac_eq] at *
    omega
  constructor
  · unfold chargeTick
    split_ifs with hidle
    · rfl
    · have hcpu := hmore _ (h.cpu s.current ⟨hi, hidle⟩)
      have hsmall := hcpu.trans (Checked.cpuBound_small hN hj)
      rw [Checked.faddI_eq (by decide) (Checked.fits64 (hsmall.trans (by decide)))]
      rfl
  · refine (h.mono (Nat.le_succ j)).modify (h.nice s.current) fun hc => hmore _ (h.cpu s.current hc)

theorem Bounded.everySecond (h : s.Bounded N j) (hN : N ≤ 1000) (hj : j ≤ 100)
    (hactive : s.ticks % timerFreq = 0 → (s.allList.filter s.isActive).length ≤ N) :
    s.everySecondChecked = some s.everySecond ∧
      s.everySecond.Bounded N (if s.ticks % timerFreq = 0 then 0 else j) := by
  unfold everySecondChecked State.everySecond
  split_ifs with hsample
  · obtain ⟨hload, hbounded⟩ := h.threadSetLoadAvg hN (hactive hsample)
    have hpending : s.threadSetLoadAvg.Pending N s.allList :=
      ⟨hbounded.mono hj, fun t ht hmem => absurd ht.1 hmem⟩
    obtain ⟨hloop, hdone⟩ := hpending.loop hN fun _ => id
    refine ⟨?_, hdone.bounded.load, hdone.bounded.nice, fun t ht => hdone.done t ht List.not_mem_nil⟩
    rw [hload, bind_some]
    exact hloop
  · exact ⟨rfl, h⟩

theorem Bounded.everySlice (h : s.Bounded N j) (hN : N ≤ 1000) (hj : j ≤ 100) :
    s.everySliceChecked = some s.everySlice ∧ s.everySlice.Bounded N j := by
  unfold everySliceChecked State.everySlice
  split_ifs
  · exact h.refreshPriorities hN hj
  · exact ⟨rfl, h⟩

def FewActive (N : ℕ) (s : State) (a : Action) : Prop :=
  a = .tick → (s.ticks + 1) % timerFreq = 0 → (s.sampled.allList.filter s.sampled.isActive).length ≤ N

instance (N : ℕ) (s : State) (a : Action) : Decidable (FewActive N s a) :=
  inferInstanceAs (Decidable (a = .tick → (s.ticks + 1) % timerFreq = 0 →
    (s.sampled.allList.filter s.sampled.isActive).length ≤ N))

theorem Inv.sampled (hi : s.Inv) : s.sampled.Inv :=
  (hi.clock (s.ticks + 1) s.loadAvg).foldl (fun _ _ hi => hi.wakeThread) s.allList

theorem isActive_charged (s : State) : s.charged.isActive = s.isActive := by
  funext t
  have hstatus : (s.charged.thread t).status = (s.thread t).status := by
    by_cases ht : t = s.current
    · subst ht
      rw [charged, modify_self]
    · rw [charged, modify_of_ne s ht]
  unfold isActive
  rw [hstatus]
  rfl

theorem ticks_forThreads {g : State → ℕ → State} (hg : ∀ s t, (g s t).ticks = s.ticks) (s : State) :
    (s.forThreads g).ticks = s.ticks := by
  have hloop : ∀ (l : List ℕ) (s : State),
      (l.foldl (fun s t => if some t = s.idleThread then s else g s t) s).ticks = s.ticks := by
    intro l
    induction l with
    | nil => exact fun _ => rfl
    | cons t l ih =>
      intro s
      rw [List.foldl_cons, ih]
      split_ifs
      · rfl
      · exact hg s t
  exact hloop s.allList s

theorem ticks_everySecond (s : State) : s.everySecond.ticks = s.ticks := by
  unfold everySecond
  split_ifs
  · exact ticks_forThreads (g := threadRefreshRecentCpu) (fun _ _ => rfl) s.threadSetLoadAvg
  · rfl

theorem ticks_everySlice (s : State) : s.everySlice.ticks = s.ticks := by
  unfold everySlice
  split_ifs
  · exact ticks_forThreads (fun s t => (SameNumbers.storePriority s t _).ticks) s
  · rfl

theorem Bounded.threadTick (h : s.Bounded N (s.ticks % timerFreq)) (hi : s.Inv) (hN : N ≤ 1000)
    (hfew : FewActive N s .tick) :
    s.threadTickChecked = some s.threadTick ∧ s.threadTick.2.Bounded N (s.threadTick.2.ticks % timerFreq) := by
  have hless : s.ticks % timerFreq < 100 := Nat.mod_lt _ (by decide)
  have hsame : SameNumbers { s with ticks := s.ticks + 1 } s.sampled := .wakeThreads s.allList _
  have hsampled : s.sampled.Bounded N (s.ticks % timerFreq) :=
    Bounded.of_same (s := { s with ticks := s.ticks + 1 }) ⟨h.load, h.nice, h.cpu⟩ hsame
  have hticks : s.sampled.charged.ticks = s.ticks + 1 := hsame.ticks
  obtain ⟨hcharge, hcharged⟩ := hsampled.charged hN hless hi.sampled.current_mem
  have hactive : s.sampled.charged.ticks % timerFreq = 0 →
      (s.sampled.charged.allList.filter s.sampled.charged.isActive).length ≤ N := by
    rw [hticks, isActive_charged]
    exact hfew rfl
  obtain ⟨hsecond, hrefreshed⟩ := hcharged.everySecond hN (by omega) hactive
  rw [hticks] at hrefreshed
  obtain ⟨hslice, hlast⟩ := hrefreshed.everySlice hN (by split_ifs <;> omega)
  have hend : s.threadTick.2.ticks = s.ticks + 1 := by
    rw [threadTick_eq, (SameNumbers.threadYield _).ticks, ticks_everySlice, ticks_everySecond, hticks]
  have hmod : (if (s.ticks + 1) % timerFreq = 0 then 0 else s.ticks % timerFreq + 1) = (s.ticks + 1) % timerFreq := by
    unfold timerFreq
    split_ifs <;> omega
  constructor
  · rw [threadTick_eq]
    simp only [threadTickChecked, hcharge, hsecond, hslice, bind_eq_bind, bind_some, pure_def]
  · rw [hend, ← hmod, threadTick_eq]
    exact hlast.of_same (.threadYield _)

theorem Bounded.threadSetNice {nice : ℤ} (h : s.Bounded N j) (hN : N ≤ 1000) (hj : j ≤ 100) (hc : s.Counted s.current)
    (hnice : -20 ≤ nice ∧ nice ≤ 20) :
    ∃ r, s.threadSetNiceChecked nice = some r ∧ s.threadSetNice nice = some r ∧ r.2.Bounded N j ∧ r.2.ticks = s.ticks := by
  have hset : (s.modify s.current ({ · with nice })).Bounded N j := h.modify (fun _ => hnice) (h.cpu s.current)
  obtain ⟨hcpu, hbounded, -⟩ := hset.threadRefreshRecentCpu hN hj hc
  obtain ⟨hpriority, hlast⟩ := hbounded.threadRefreshPriority (t := s.current) hN hj hc
  generalize hs1 : (s.modify s.current ({ · with nice })).threadRefreshRecentCpu s.current = s1 at *
  have hcurrent : s1.current = s.current := hs1 ▸ rfl
  have hticks : (s1.threadRefreshPriority s.current).ticks = s.ticks :=
    (SameNumbers.storePriority s1 s.current _).ticks.trans (hs1 ▸ rfl)
  refine ⟨if ((s1.threadRefreshPriority s.current).thread (s1.threadRefreshPriority s.current).current).priority <
    (s1.threadRefreshPriority s.current).firstQueue.getD 0 then (s1.threadRefreshPriority s.current).threadYield
    else (s1.threadRefreshPriority s.current).stay, ?_, ?_, ?_, ?_⟩
  · simp only [threadSetNiceChecked, hcpu, hcurrent, hpriority, bind_eq_bind, bind_some, pure_def]
  · rw [State.threadSetNice, if_pos hnice]
    simp only [show (s.modify s.current ({ · with nice })).current = s.current from rfl, hs1, hcurrent]
  · split_ifs
    · exact hlast.of_same (.threadYield _)
    · exact hlast
  · split_ifs
    · exact (SameNumbers.threadYield _).ticks.trans hticks
    · exact hticks

theorem Bounded.newThread (h : s.Bounded N j) (priority : Fin 64) : (s.newThread priority).Bounded N j := by
  have hthread : ∀ t, (s.newThread priority).Counted t →
      (s.newThread priority).thread t = initThread priority ∨
        (s.newThread priority).thread t = s.thread t ∧ s.Counted t := by
    rintro t ⟨hmem, hidle⟩
    by_cases ht : t = s.nextTid
    · subst ht
      exact .inl (Function.update_self ..)
    · refine .inr ⟨Function.update_of_ne ht .., (List.mem_append.mp hmem).resolve_right ?_, hidle⟩
      exact fun hlast => ht (List.mem_singleton.mp hlast)
  refine ⟨h.load, fun t ht => ?_, fun t ht => ?_⟩
  · rcases hthread t ht with heq | ⟨heq, hc⟩ <;> rw [heq]
    · show -20 ≤ (0 : ℤ) ∧ (0 : ℤ) ≤ 20
      decide
    · exact h.nice t hc
  · rcases hthread t ht with heq | ⟨heq, hc⟩ <;> rw [heq]
    · show |(0 : ℤ)| ≤ _
      rw [abs_zero, Checked.cpuBound, Checked.frac_eq]
      omega
    · exact h.cpu t hc

theorem Bounded.of_fewer (h : s.Bounded N j) (hload : s'.loadAvg = s.loadAvg) (hthread : s'.thread = s.thread)
    (hcounted : ∀ t, s'.Counted t → s.Counted t) : s'.Bounded N j := by
  refine ⟨hload ▸ h.load, fun t ht => ?_, fun t ht => ?_⟩
  · rw [hthread]
    exact h.nice t (hcounted t ht)
  · rw [hthread]
    exact h.cpu t (hcounted t ht)

theorem Bounded.operate {a : Action} {r : Outcome} (h : s.Bounded N (s.ticks % timerFreq)) (hi : s.Inv) (hN : N ≤ 1000)
    (hfew : FewActive N s a) (hr : s.operate a = some r) : r.2.Bounded N (r.2.ticks % timerFreq) := by
  have hkeeps : ∀ {s' : State}, SameNumbers s s' → s'.Bounded N (s'.ticks % timerFreq) := by
    intro s' hsame
    rw [hsame.ticks]
    exact h.of_same hsame
  unfold State.operate at hr
  cases a with
  | create priority =>
    dsimp only at hr
    split_ifs at hr
    obtain ⟨s1, hunblock, rfl⟩ := map_eq_some_iff.mp hr
    have hready := SameNumbers.threadUnblock hunblock
    have hbounded := (h.newThread priority).of_same hready
    have hticks : s1.ticks = s.ticks := hready.ticks
    split_ifs
    · rw [(SameNumbers.threadYield s1).ticks, hticks]
      exact hbounded.of_same (.threadYield s1)
    · show s1.Bounded N (s1.ticks % timerFreq)
      rw [hticks]
      exact hbounded
  | block =>
    cases hr
    dsimp only [threadBlock, switch]
    exact hkeeps (.modify s s.current rfl rfl)
  | sleep ticks =>
    dsimp only at hr
    split_ifs at hr
    cases hr
    unfold timerSleep
    split_ifs
    · dsimp only [switch]
      exact hkeeps (.modify s s.current rfl rfl)
    · exact h
  | unblock t =>
    obtain ⟨s1, hwake, rfl⟩ := map_eq_some_iff.mp hr
    unfold State.wakeWaiter at hwake
    split_ifs at hwake
    have hwaits : SameNumbers s (s.modify t ({ · with waits := false })) := .modify s t rfl rfl
    exact hkeeps (hwaits.trans (.threadUnblock hwake))
  | yield =>
    cases hr
    exact hkeeps (.threadYield s)
  | setNice nice =>
    dsimp only at hr
    split_ifs at hr with hord
    have hnice : -20 ≤ nice ∧ nice ≤ 20 := by
      by_contra hout
      rw [State.threadSetNice, if_neg hout] at hr
      cases hr
    have hc : s.Counted s.current := ⟨hi.current_mem, by simpa [ordinary] using hord⟩
    have hj : s.ticks % timerFreq ≤ 100 := (Nat.mod_lt s.ticks (by decide)).le
    obtain ⟨r', -, hr', hbounded, hticks⟩ := h.threadSetNice hN hj hc hnice
    obtain rfl := some.inj (hr.symm.trans hr')
    rw [hticks]
    exact hbounded
  | setPriority priority =>
    dsimp only at hr
    split_ifs at hr
    cases hr
    dsimp only [threadSetPriority, stay]
    exact hkeeps (.modify s s.current rfl rfl)
  | exit =>
    dsimp only at hr
    split_ifs at hr
    cases hr
    refine Bounded.of_same (s := { s with allList := s.allList.erase s.current }) ?_ (.setStatus _ _ _)
    exact h.of_fewer rfl rfl fun t ht => ⟨List.mem_of_mem_erase ht.1, ht.2⟩
  | becomeIdle =>
    dsimp only at hr
    split_ifs at hr with hnone
    cases hr
    refine h.of_fewer rfl rfl fun t ht => ⟨ht.1, ?_⟩
    rw [hnone]
    exact some_ne_none t
  | tick =>
    cases hr
    exact (h.threadTick hi hN hfew).2

theorem bounded_boot (N : ℕ) : boot.Bounded N (boot.ticks % timerFreq) := by
  refine ⟨⟨le_rfl, ?_⟩, fun t _ => ?_, fun t _ => ?_⟩
  · show 0 ≤ (N : ℤ) * frac
    rw [Checked.frac_eq]
    omega
  · show -20 ≤ (0 : ℤ) ∧ (0 : ℤ) ≤ 20
    decide
  · show |(0 : ℤ)| ≤ _
    rw [abs_zero, Checked.cpuBound, Checked.frac_eq]
    omega

theorem bounded_of_reach (hN : N ≤ 1000) (h : system.ReachVia (FewActive N) s) : s.Bounded N (s.ticks % timerFreq) := by
  have hboth : s.Inv ∧ s.Bounded N (s.ticks % timerFreq) := by
    refine h.invariant (I := fun s => s.Inv ∧ s.Bounded N (s.ticks % timerFreq)) (fun s hs => ?_) ?_
    · exact hs ▸ ⟨inv_boot, bounded_boot N⟩
    · rintro s a s' ⟨hi, hb⟩ hfew hstep
      refine ⟨hi.step hstep, ?_⟩
      obtain ⟨r, hr, hs'⟩ := bind_eq_some_iff.mp hstep
      have hbounded := hb.operate hi hN hfew hr
      split_ifs at hs'
      · have hsame := SameNumbers.schedule hs'
        rw [hsame.ticks]
        exact hbounded.of_same hsame
      · cases hs'
        exact hbounded
  exact hboth.2

structure ThreadInRange (N : ℕ) (s : State) (t : ℕ) : Prop where
  cpu : |(s.thread t).recentCpu| ≤ 2 ^ 14 * (120 * (2 * N + 1) + 100)
  refresh : s.threadRefreshRecentCpuChecked t = some (s.threadRefreshRecentCpu t)
  priority : ∃ p, Checked.priority (s.thread t).nice (s.thread t).recentCpu = some p ∧ 0 ≤ p ∧ p ≤ priMax
  getRecentCpu :
    Checked.getRecentCpu (s.thread t).recentCpu = some (roundToInt ((s.thread t).recentCpu * 100))

structure InRange (N : ℕ) (s : State) : Prop where
  load : 0 ≤ s.loadAvg ∧ s.loadAvg ≤ N * 2 ^ 14
  divisor : 0 < faddI (s.loadAvg * 2) 1
  getLoadAvg : Checked.getLoadAvg s.loadAvg = some (toInt (s.loadAvg * 100))
  threads : ∀ t, s.Counted t → s.ThreadInRange N t
  tick : FewActive N s .tick → s.threadTickChecked = some s.threadTick
  setNice : ∀ nice, -20 ≤ nice ∧ nice ≤ 20 → s.Counted s.current →
    s.threadSetNiceChecked nice = s.threadSetNice nice

theorem inRange_of_reach (hN : N ≤ 1000) (h : system.ReachVia (FewActive N) s) : s.InRange N := by
  have hb := bounded_of_reach hN h
  have hi : s.Inv := inv_of_reach (h.mono fun _ _ _ => trivial)
  have hj : s.ticks % timerFreq ≤ 100 := (Nat.mod_lt s.ticks (by decide)).le
  refine ⟨hb.load, Checked.divisor_pos hb.load.1, Checked.getLoadAvg_eq hN hb.load, fun t ht => ?_,
    fun hfew => (hb.threadTick hi hN hfew).1, fun nice hnice hc => ?_⟩
  · refine ⟨(hb.mono hj).cpu t ht, (hb.threadRefreshRecentCpu hN hj ht).1, ?_, Checked.getRecentCpu_eq hN (hb.cpu t ht) hj⟩
    refine ⟨_, Checked.priority_eq hN (hb.cpu t ht) hj (hb.nice t ht), Int.natCast_nonneg _, ?_⟩
    have hlt := (newPriority (s.thread t)).isLt
    unfold priMax
    omega
  · obtain ⟨r, hchecked, hr, -⟩ := hb.threadSetNice hN hj hc hnice
    rw [hchecked, hr]

theorem inRange_first_second :
    ∃ s, system.ReachVia (FewActive 2) s ∧ s.ticks = 100 ∧ s.loadAvg = 546 ∧ s.InRange 2 := by
  have hrun : (System.runVia step (FewActive 2) boot
      ([.create 0, .block, .becomeIdle, .unblock 1, .block, .create 31, .setNice 20] ++ List.replicate 100 .tick)).map
        (fun s => (s.ticks, s.loadAvg)) = some (100, 546) := by decide +kernel
  obtain ⟨s, hs, hv⟩ := map_eq_some_iff.mp hrun
  simp only [Prod.mk.injEq] at hv
  have hreach : system.ReachVia (FewActive 2) s := System.ReachVia.run (.init rfl) hs
  exact ⟨s, hreach, hv.1, hv.2, inRange_of_reach (by decide) hreach⟩

end Cs162.Threads.Mlfqs.State
