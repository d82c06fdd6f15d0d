import Cs162.Threads.Mlfqs

namespace Cs162.Threads.Mlfqs.State
open Lib Option

variable {s s' : State} {t : ℕ} {f : Thread → Thread}

def Queued (s : State) (t : ℕ) : Prop := (s.thread t).status = .ready ∧ some t ≠ s.idleThread

def Calm (th : Thread) : Prop := th.waits = false ∧ th.sleepTicks = 0

structure Thread.Ok (s : State) (t : ℕ) (th : Thread) : Prop where
  dead : t ∉ s.allList → th.status = .dying
  idle : s.idleThread = some t → Calm th
  calm : th.status = .running ∨ th.status = .ready → Calm th
  waits : th.waits = true → th.sleepTicks = 0

structure Parts (s : State) : Prop where
  sorted : s.ready.Sorted (fun t => (s.thread t).priority) s.Queued
  thread : ∀ t, Thread.Ok s t (s.thread t)
  fresh : ∀ t ∈ s.allList, t < s.nextTid
  idle : ∀ t, s.idleThread = some t → t ∈ s.allList

structure Inv (s : State) : Prop extends Parts s where
  current : (s.thread s.current).status = .running

theorem Parts.mem_allList (hp : s.Parts) (ht : (s.thread t).status ≠ .dying) : t ∈ s.allList :=
  not_not.mp fun hnot => ht ((hp.thread t).dead hnot)

theorem modify_self (s : State) (t : ℕ) (f : Thread → Thread) :
    (s.modify t f).thread t = f (s.thread t) := Function.update_self ..

theorem modify_of_ne (s : State) {t u : ℕ} (h : u ≠ t) (f : Thread → Thread) :
    (s.modify t f).thread u = s.thread u := Function.update_of_ne h ..

theorem queued_modify_of_ne (s : State) {t u : ℕ} (h : u ≠ t) (f : Thread → Thread) :
    (s.modify t f).Queued u ↔ s.Queued u := by
  rw [Queued, Queued, modify_of_ne s h]
  rfl

theorem Parts.replace (hp : s.Parts) {B : Buckets ℕ (Fin 64)}
    (hsorted : B.Sorted (fun u => ((s.modify t f).thread u).priority) (s.modify t f).Queued)
    (hok : Thread.Ok s t (f (s.thread t))) : Parts { s.modify t f with ready := B } where
  sorted := hsorted
  thread u := by
    by_cases hu : u = t
    · subst hu
      rw [show State.thread { s.modify u f with ready := B } = (s.modify u f).thread from rfl,
        modify_self]
      exact ⟨hok.dead, hok.idle, hok.calm, hok.waits⟩
    · rw [show State.thread { s.modify t f with ready := B } = (s.modify t f).thread from rfl,
        modify_of_ne s hu]
      exact ⟨(hp.thread u).dead, (hp.thread u).idle, (hp.thread u).calm, (hp.thread u).waits⟩
  fresh := hp.fresh
  idle := hp.idle

theorem Parts.modify (hp : s.Parts) (hqueued : (s.modify t f).Queued t ↔ s.Queued t)
    (hkey : s.Queued t → (f (s.thread t)).priority = (s.thread t).priority)
    (hok : Thread.Ok s t (f (s.thread t))) : (s.modify t f).Parts := by
  refine hp.replace (B := s.ready) (hp.sorted.congr (fun u => ?_) fun u hu => ?_) hok
  · by_cases h : u = t
    · exact h ▸ hqueued
    · exact queued_modify_of_ne s h f
  · by_cases h : u = t
    · subst h
      rw [modify_self]
      exact hkey hu
    · rw [modify_of_ne s h]

theorem Parts.makeReady (hp : s.Parts) (hnot : (s.thread t).status ≠ .ready)
    (hlive : (s.thread t).status ≠ .dying) (hidle : some t ≠ s.idleThread)
    (hcalm : Calm (s.thread t)) : ((s.enqueue t).setStatus t .ready).Parts := by
  have hsorted := hp.sorted.push (i := t) fun h => hnot h.1
  refine hp.replace (f := ({ · with status := .ready })) (hsorted.congr (fun u => ?_) fun u _ => ?_)
    ⟨?_, ?_, fun _ => hcalm, ?_⟩
  · by_cases hu : u = t
    · subst hu
      exact iff_of_true ⟨by rw [modify_self], hidle⟩ (.inr rfl)
    · rw [queued_modify_of_ne s hu]
      exact ⟨.inl, fun h => h.resolve_right hu⟩
  · by_cases hu : u = t
    · rw [hu, modify_self]
    · rw [modify_of_ne s hu]
  · exact fun hdead => absurd ((hp.thread t).dead hdead) hlive
  · exact fun hi => absurd hi.symm hidle
  · exact fun _ => hcalm.2

theorem Parts.run (hp : s.Parts) {B : Buckets ℕ (Fin 64)}
    (hsorted : B.Sorted (fun u => (s.thread u).priority) fun u => s.Queued u ∧ u ≠ t)
    (ht : t ∈ s.allList) (hcalm : Calm (s.thread t)) :
    Inv { ({ s with ready := B } : State).setStatus t .running with current := t } := by
  have hparts : Parts { s.modify t ({ · with status := .running }) with ready := B } := by
    refine hp.replace (hsorted.congr (fun u => ?_) fun u _ => ?_)
      ⟨fun h => absurd ht h, fun _ => hcalm, fun _ => hcalm, fun _ => hcalm.2⟩
    · by_cases hu : u = t
      · subst hu
        refine iff_of_false (fun h => ?_) fun h => h.2 rfl
        have := h.1
        rw [modify_self] at this
        cases this
      · rw [queued_modify_of_ne s hu]
        exact ⟨fun h => ⟨h, hu⟩, And.left⟩
    · by_cases hu : u = t
      · rw [hu, modify_self]
      · rw [modify_of_ne s hu]
  refine ⟨⟨hparts.sorted, fun u => ?_, hparts.fresh, hparts.idle⟩, ?_⟩
  · exact ⟨(hparts.thread u).dead, (hparts.thread u).idle, (hparts.thread u).calm,
      (hparts.thread u).waits⟩
  · exact congrArg Thread.status (modify_self s t ({ · with status := .running }))

theorem firstQueue_eq_some {i : Fin 64} (h : s.firstQueue = some i) :
    s.ready.queue i.rev ≠ [] ∧ ∀ p, i.rev < p → s.ready.queue p = [] := by
  obtain ⟨hi, before, after, hsplit, hbefore⟩ := List.find?_eq_some_iff_append.mp h
  refine ⟨by simpa using hi, fun p hp => ?_⟩
  have hlt : p.rev < i := Fin.rev_lt_iff.mpr hp
  have hsorted : (before ++ i :: after).Pairwise (· < ·) := hsplit ▸ List.pairwise_lt_finRange 64
  have hmem : p.rev ∈ before ++ i :: after := hsplit ▸ List.mem_finRange _
  rcases List.mem_append.mp hmem with hm | hm
  · simpa using hbefore p.rev hm
  · rcases List.mem_cons.mp hm with heq | hm
    · exact absurd hlt (heq ▸ lt_irrefl _)
    · have hgt := (List.pairwise_cons.mp (List.pairwise_append.mp hsorted).2.1).1 _ hm
      exact absurd (hlt.trans hgt) (lt_irrefl _)

theorem firstQueue_eq_none (h : s.firstQueue = none) (p : Fin 64) : s.ready.queue p = [] := by
  have := List.find?_eq_none.mp h p.rev (List.mem_finRange _)
  simpa using this

structure Next (s : State) (t : ℕ) : Prop where
  queued : s.Queued t
  highest : ∀ u, s.Queued u → (s.thread u).priority ≤ (s.thread t).priority
  longest : ∀ u, s.Queued u → (s.thread u).priority = (s.thread t).priority →
    s.ready.entered t ≤ s.ready.entered u

theorem Parts.nextThreadToRun (hp : s.Parts) :
    (∃ t, s.Next t ∧ (∃ l, s.ready.queue (s.thread t).priority = t :: l) ∧ s.nextThreadToRun =
      (some t, { s with ready := s.ready.popFront (s.thread t).priority })) ∨
    ((∀ u, ¬ s.Queued u) ∧ s.nextThreadToRun = (s.idleThread, s)) := by
  rw [State.nextThreadToRun]
  rcases hf : s.firstQueue with _ | i
  · refine .inr ⟨fun u hu => ?_, rfl⟩
    have := (hp.sorted.mem u _).mpr ⟨hu, rfl⟩
    rw [firstQueue_eq_none hf] at this
    cases this
  · obtain ⟨hne, htop⟩ := firstQueue_eq_some hf
    obtain ⟨t, l, hl⟩ := List.exists_cons_of_ne_nil hne
    obtain ⟨hq, hkey, hfront⟩ := hp.sorted.front hl
    refine .inl ⟨t, ⟨hq, fun u hu => ?_, fun u hu heq => ?_⟩, ⟨l, hkey ▸ hl⟩, by simp [hl, hkey]⟩
    · by_contra hlt
      have hmem := (hp.sorted.mem u _).mpr ⟨hu, rfl⟩
      rw [htop _ (hkey ▸ not_le.mp hlt)] at hmem
      cases hmem
    · exact hfront u hu (heq.trans hkey)

theorem Parts.schedule (hp : s.Parts) (hs : s.schedule = some s') : s'.Inv := by
  rw [State.schedule] at hs
  rcases hp.nextThreadToRun with ⟨t, hn, ⟨l, hl⟩, heq⟩ | ⟨-, heq⟩ <;> rw [heq] at hs
  · cases hs
    have hready := hn.queued.1
    refine hp.run (hp.sorted.popFront hl) (hp.mem_allList ?_) ((hp.thread t).calm (.inr hready))
    rw [hready]
    decide
  · rcases hi : s.idleThread with _ | i <;> rw [hi] at hs <;> cases hs
    refine hp.run (B := s.ready) (hp.sorted.congr (fun u => ?_) fun _ _ => rfl) (hp.idle i hi)
      ((hp.thread i).idle hi)
    exact ⟨And.left, fun h => ⟨h, fun hu => h.2 (hu ▸ hi.symm)⟩⟩

def Sound (r : Outcome) : Prop := r.2.Parts ∧ (r.1 = false → r.2.Inv)

theorem sound_switch (hp : s.Parts) : Sound s.switch := ⟨hp, nofun⟩

theorem Inv.sound_stay (hi : s.Inv) : Sound s.stay := ⟨hi.toParts, fun _ => hi⟩

theorem Inv.current_mem (hi : s.Inv) : s.current ∈ s.allList :=
  hi.mem_allList (by rw [hi.current]; decide)

theorem Inv.current_calm (hi : s.Inv) : Calm (s.thread s.current) :=
  (hi.thread s.current).calm (.inl hi.current)

theorem Inv.not_queued_current (hi : s.Inv) : ¬ s.Queued s.current := fun h => by
  have := h.1
  rw [hi.current] at this
  cases this

theorem Inv.sound_threadYield (hi : s.Inv) : Sound s.threadYield := by
  refine sound_switch ?_
  have hcalm := hi.current_calm
  split_ifs with hidle
  · refine hi.toParts.modify ?_ (fun _ => rfl)
      ⟨fun h => absurd hi.current_mem h, fun _ => hcalm, fun _ => hcalm, fun _ => hcalm.2⟩
    exact iff_of_false (fun h => h.2 hidle) fun h => h.2 hidle
  · exact hi.toParts.makeReady (by rw [hi.current]; decide) (by rw [hi.current]; decide) hidle hcalm

theorem Inv.unblocked (hi : s.Inv) (hb : (s.thread t).status = .blocked)
    (hidle : some t ≠ s.idleThread) (hcalm : Calm (s.thread t)) :
    ((s.enqueue t).setStatus t .ready).Inv := by
  refine ⟨hi.toParts.makeReady (by rw [hb]; decide) (by rw [hb]; decide) hidle hcalm, ?_⟩
  have hne : s.current ≠ t := fun h => by
    have := hi.current
    rw [h, hb] at this
    cases this
  exact (congrArg Thread.status (modify_of_ne (s.enqueue t) hne _)).trans hi.current

theorem Inv.tweak (hi : s.Inv) (hstatus : (f (s.thread t)).status = (s.thread t).status)
    (hwaits : (f (s.thread t)).waits = (s.thread t).waits)
    (hsleep : (f (s.thread t)).sleepTicks = (s.thread t).sleepTicks)
    (hkey : s.Queued t → (f (s.thread t)).priority = (s.thread t).priority) :
    (s.modify t f).Inv := by
  have hok := hi.thread t
  refine ⟨hi.toParts.modify ?_ hkey ⟨?_, ?_, ?_, ?_⟩, ?_⟩
  · rw [Queued, modify_self, hstatus]
    rfl
  · rw [hstatus]
    exact hok.dead
  · rw [Calm, hwaits, hsleep]
    exact hok.idle
  · rw [Calm, hwaits, hsleep, hstatus]
    exact hok.calm
  · rw [hwaits, hsleep]
    exact hok.waits
  · show ((s.modify t f).thread s.current).status = .running
    by_cases h : s.current = t
    · rw [h, modify_self, hstatus, ← h]
      exact hi.current
    · rw [modify_of_ne s h]
      exact hi.current

theorem Inv.threadRefreshRecentCpu (hi : s.Inv) : (s.threadRefreshRecentCpu t).Inv :=
  hi.tweak rfl rfl rfl fun _ => rfl

theorem Inv.threadRefreshPriority (hi : s.Inv)
    (hidle : (s.thread t).status = .ready → some t ≠ s.idleThread) :
    (s.threadRefreshPriority t).Inv := by
  rw [State.threadRefreshPriority]
  set f : Thread → Thread := fun th => { th with priority := newPriority th } with hf
  have hok := hi.thread t
  have hcurrent : ((s.modify t f).thread s.current).status = .running := by
    by_cases h : s.current = t
    · rw [h, modify_self, ← h]
      exact hi.current
    · rw [modify_of_ne s h]
      exact hi.current
  split_ifs with hmoves
  · obtain ⟨hready, -⟩ := hmoves
    have hremoved : (s.ready.remove t).Sorted (fun u => ((s.modify t f).thread u).priority)
        fun u => s.Queued u ∧ u ≠ t :=
      (hi.sorted.remove t).congr (fun _ => Iff.rfl) fun u hu => by rw [modify_of_ne s hu.2]
    have hmoved := hremoved.push (i := t) fun h => h.2 rfl
    refine ⟨hi.toParts.replace (hmoved.congr (fun u => ?_) fun _ _ => rfl)
      ⟨hok.dead, hok.idle, hok.calm, hok.waits⟩, hcurrent⟩
    by_cases hu : u = t
    · subst hu
      refine iff_of_true ⟨?_, hidle hready⟩ (.inr rfl)
      rw [modify_self]
      exact hready
    · rw [queued_modify_of_ne s hu]
      exact ⟨fun h => .inl ⟨h, hu⟩, fun h => (h.resolve_right hu).1⟩
  · refine ⟨hi.toParts.modify ?_ (fun h => ?_) ⟨hok.dead, hok.idle, hok.calm, hok.waits⟩, hcurrent⟩
    · rw [Queued, modify_self]
      rfl
    · rw [not_and, not_not] at hmoves
      have := hmoves h.1
      rwa [modify_self] at this

theorem Inv.wakeThread (hi : s.Inv) : (s.wakeThread t).Inv := by
  rw [State.wakeThread]
  split_ifs with hasleep
  swap
  · exact hi
  obtain ⟨hb, hpos⟩ := hasleep
  have hok := hi.thread t
  have hidle : some t ≠ s.idleThread := fun h => by
    have := (hok.idle h.symm).2
    omega
  have hwaits : (s.thread t).waits = false := by
    by_contra h
    have := hok.waits (by simpa using h)
    omega
  have hne : s.current ≠ t := fun h => by
    have := hi.current
    rw [h, hb] at this
    cases this
  set f : Thread → Thread := fun th => { th with sleepTicks := th.sleepTicks - 1 }
  have hi' : (s.modify t f).Inv := by
    refine ⟨hi.toParts.modify ?_ (fun _ => rfl) ⟨hok.dead, fun h => absurd h.symm hidle, ?_, ?_⟩, ?_⟩
    · rw [Queued, modify_self]
      rfl
    · rintro (h | h) <;> exact absurd (h.symm.trans hb) (by decide)
    · exact fun h => absurd (h.symm.trans hwaits) (by decide)
    · exact (congrArg Thread.status (modify_of_ne s hne f)).trans hi.current
  dsimp only
  split_ifs with hzero
  · refine hi'.unblocked ?_ hidle ⟨?_, hzero⟩
    · rw [modify_self]
      exact hb
    · rw [modify_self]
      exact hwaits
  · exact hi'

theorem Inv.foldl {g : State → ℕ → State} (hg : ∀ s t, s.Inv → (g s t).Inv) (l : List ℕ)
    (hi : s.Inv) : (l.foldl g s).Inv := by
  induction l generalizing s with
  | nil => exact hi
  | cons t l ih => exact ih (hg s t hi)

theorem Inv.forThreads {g : State → ℕ → State}
    (hg : ∀ s t, s.Inv → some t ≠ s.idleThread → (g s t).Inv) (hi : s.Inv) : (forThreads g s).Inv := by
  refine hi.foldl (fun s t hi => ?_) s.allList
  split_ifs with hidle
  · exact hi
  · exact hg s t hi hidle

theorem Inv.clock (hi : s.Inv) (ticks : ℕ) (loadAvg : ℤ) : Inv { s with ticks, loadAvg } :=
  ⟨⟨hi.sorted, fun t => ⟨(hi.thread t).dead, (hi.thread t).idle, (hi.thread t).calm,
    (hi.thread t).waits⟩, hi.fresh, hi.idle⟩, hi.current⟩

theorem Inv.sound_threadTick (hi : s.Inv) : Sound s.threadTick := by
  rw [threadTick]
  apply Inv.sound_threadYield
  have hawake := (hi.clock (s.ticks + 1) s.loadAvg).foldl (g := State.wakeThread)
    (fun _ _ hi => hi.wakeThread) s.allList
  have hcharge : ∀ {s : State}, s.Inv →
      (s.modify s.current fun th => { th with recentCpu := faddI th.recentCpu 1 }).Inv :=
    fun hi => hi.tweak rfl rfl rfl fun _ => rfl
  have hcpu : ∀ {s : State}, s.Inv →
      (State.forThreads State.threadRefreshRecentCpu s.threadSetLoadAvg).Inv :=
    fun hi => (hi.clock _ _).forThreads fun _ _ hi _ => hi.threadRefreshRecentCpu
  have hrefresh : ∀ {s : State}, s.Inv → (State.forThreads State.threadRefreshPriority s).Inv :=
    fun hi => hi.forThreads fun _ _ hi hidle => hi.threadRefreshPriority fun _ => hidle
  dsimp only
  split_ifs
  · exact hrefresh (hcpu (hcharge hawake))
  · exact hcpu (hcharge hawake)
  · exact hrefresh (hcharge hawake)
  · exact hcharge hawake

theorem Inv.newThread (hi : s.Inv) (priority : Fin 64) : (s.newThread priority).Inv := by
  have hnot : s.nextTid ∉ s.allList := fun h => Nat.lt_irrefl _ (hi.fresh _ h)
  have hdead := (hi.thread s.nextTid).dead hnot
  have hself : (s.newThread priority).thread s.nextTid = initThread priority := Function.update_self ..
  have hother : ∀ u, u ≠ s.nextTid → (s.newThread priority).thread u = s.thread u :=
    fun u hu => Function.update_of_ne hu ..
  have hqueued : ∀ u, (s.newThread priority).Queued u ↔ s.Queued u := by
    intro u
    by_cases hu : u = s.nextTid
    · subst hu
      rw [Queued, Queued, hself, hdead]
      simp [initThread]
    · rw [Queued, hother u hu]
      rfl
  refine ⟨⟨hi.sorted.congr hqueued fun u hu => ?_, fun u => ?_, fun u hu => ?_, fun u hu => ?_⟩, ?_⟩
  · rw [hother u]
    rintro rfl
    exact absurd (hu.1.symm.trans hdead) (by decide)
  · by_cases hu : u = s.nextTid
    · subst hu
      rw [hself]
      exact ⟨fun h => absurd (by simp [State.newThread]) h, fun _ => ⟨rfl, rfl⟩, fun _ => ⟨rfl, rfl⟩,
        fun _ => rfl⟩
    · rw [hother u hu]
      have hok := hi.thread u
      exact ⟨fun h => hok.dead fun hu => h (List.mem_append_left _ hu), hok.idle, hok.calm, hok.waits⟩
  · rcases List.mem_append.mp hu with hu | hu
    · exact Nat.lt_succ_of_lt (hi.fresh u hu)
    · rw [List.mem_singleton.mp hu]
      exact Nat.lt_succ_self _
  · exact List.mem_append_left _ (hi.idle u hu)
  · refine (congrArg Thread.status (hother s.current ?_)).trans hi.current
    intro h
    exact hnot (h ▸ hi.current_mem)

theorem Inv.sound_threadCreate {r : Outcome} {priority : Fin 64} (hi : s.Inv)
    (hr : s.threadCreate priority = some r) : Sound r := by
  obtain ⟨s', hs', rfl⟩ := map_eq_some_iff.mp hr
  rw [threadUnblock] at hs'
  split_ifs at hs' with hb
  have hnot : s.nextTid ∉ s.allList := fun h => Nat.lt_irrefl _ (hi.fresh _ h)
  have hi' : s'.Inv := by
    cases hs'
    refine (hi.newThread priority).unblocked hb ?_ ?_
    · exact fun h => hnot (hi.idle _ h.symm)
    · rw [show (s.newThread priority).thread s.nextTid = initThread priority from
        Function.update_self ..]
      exact ⟨rfl, rfl⟩
  split_ifs
  · exact hi'.sound_threadYield
  · exact hi'.sound_stay

theorem Inv.blocked (hi : s.Inv) (hstatus : (f (s.thread s.current)).status = .blocked)
    (hidle : s.idleThread = some s.current → Calm (f (s.thread s.current)))
    (hwaits : (f (s.thread s.current)).waits = true → (f (s.thread s.current)).sleepTicks = 0) :
    (s.modify s.current f).Parts := by
  refine hi.toParts.modify ?_ (fun h => absurd h hi.not_queued_current)
    ⟨fun h => absurd hi.current_mem h, hidle, ?_, hwaits⟩
  · refine iff_of_false (fun h => ?_) hi.not_queued_current
    have := h.1
    rw [modify_self, hstatus] at this
    cases this
  · rw [hstatus]
    rintro (h | h) <;> cases h

theorem Inv.sound_threadBlock (hi : s.Inv) : Sound s.threadBlock := by
  have hcalm := hi.current_calm
  refine sound_switch (hi.blocked rfl (fun hidle => ⟨?_, hcalm.2⟩) fun _ => hcalm.2)
  simp [hidle]

theorem Inv.sound_timerSleep (hi : s.Inv) (hord : s.ordinary) (ticks : ℕ) :
    Sound (s.timerSleep ticks) := by
  rw [timerSleep]
  split_ifs
  · refine sound_switch (hi.blocked rfl (fun hidle => ?_) fun h => ?_)
    · simp [ordinary, hidle] at hord
    · exact absurd (h.symm.trans hi.current_calm.1) (by decide)
  · exact hi.sound_stay

theorem Inv.sound_threadSetNice {r : Outcome} {nice : ℤ} (hi : s.Inv)
    (hr : s.threadSetNice nice = some r) : Sound r := by
  rw [threadSetNice] at hr
  split_ifs at hr
  have hnice := hi.tweak (t := s.current) (f := ({ · with nice })) rfl rfl rfl fun _ => rfl
  have hcpu := hnice.threadRefreshRecentCpu (t := s.current)
  have hnew : (State.threadRefreshPriority _ s.current).Inv := hcpu.threadRefreshPriority fun h => by
    exact absurd (h.symm.trans hcpu.current) (by decide)
  cases hr
  split_ifs
  · exact hnew.sound_threadYield
  · exact hnew.sound_stay

theorem Inv.sound_threadExit (hi : s.Inv) (hord : s.ordinary) : Sound s.threadExit := by
  set gone := { s with allList := s.allList.erase s.current }.setStatus s.current .dying with hgone
  have hother : ∀ u, u ≠ s.current → gone.thread u = s.thread u := fun u hu => modify_of_ne _ hu _
  have hself : gone.thread s.current = { s.thread s.current with status := .dying } := modify_self ..
  have hidle : ∀ u, s.idleThread = some u → u ≠ s.current := by
    rintro u hu rfl
    simp [ordinary, hu] at hord
  refine sound_switch ⟨hi.sorted.congr (fun u => ?_) fun u hu => ?_, fun u => ?_, fun u hu => ?_,
    fun u hu => ?_⟩
  · by_cases hu : u = s.current
    · subst hu
      refine iff_of_false (fun h => ?_) hi.not_queued_current
      have := h.1
      rw [hself] at this
      cases this
    · rw [Queued, hother u hu]
      rfl
  · rw [hother u]
    rintro rfl
    exact hi.not_queued_current hu
  · by_cases hu : u = s.current
    · subst hu
      rw [hself]
      exact ⟨fun _ => rfl, fun h => absurd rfl (hidle _ h), nofun, (hi.thread _).waits⟩
    · rw [hother u hu]
      have hok := hi.thread u
      exact ⟨fun h => hok.dead fun hmem => h ((List.mem_erase_of_ne hu).mpr hmem), hok.idle, hok.calm,
        hok.waits⟩
  · exact hi.fresh u (List.mem_of_mem_erase hu)
  · exact (List.mem_erase_of_ne (hidle u hu)).mpr (hi.idle u hu)

theorem Inv.wakeWaiter (hi : s.Inv) (hs : s.wakeWaiter t = some s') : s'.Inv := by
  rw [State.wakeWaiter] at hs
  split_ifs at hs with hw
  rw [threadUnblock] at hs
  split_ifs at hs with hb
  cases hs
  have hok := hi.thread t
  rw [modify_self] at hb
  have hidle : some t ≠ s.idleThread := fun h => by
    have := (hok.idle h.symm).1
    rw [hw] at this
    cases this
  have hne : s.current ≠ t := fun h => by
    have := hi.current
    rw [h, hb] at this
    cases this
  have hi' : (s.modify t ({ · with waits := false })).Inv := by
    refine ⟨hi.toParts.modify ?_ (fun _ => rfl) ⟨hok.dead, fun h => absurd h.symm hidle, ?_, nofun⟩, ?_⟩
    · rw [Queued, modify_self]
      rfl
    · rintro (h | h) <;> exact absurd (h.symm.trans hb) (by decide)
    · exact (congrArg Thread.status (modify_of_ne s hne _)).trans hi.current
  refine hi'.unblocked ?_ hidle ?_
  · rw [modify_self]
    exact hb
  · rw [modify_self]
    exact ⟨rfl, hok.waits hw⟩

theorem Inv.becomeIdle (hi : s.Inv) (hnone : s.idleThread = none) :
    Inv { s with idleThread := some s.current } := by
  refine ⟨⟨hi.sorted.congr (fun u => ?_) fun _ _ => rfl, fun u => ?_, hi.fresh, fun u hu => ?_⟩,
    hi.current⟩
  · by_cases hu : u = s.current
    · subst hu
      exact iff_of_false (fun h => h.2 rfl) hi.not_queued_current
    · simp [Queued, hnone, hu]
  · have hok := hi.thread u
    refine ⟨hok.dead, fun hu => ?_, hok.calm, hok.waits⟩
    rw [← some.inj hu]
    exact hi.current_calm
  · exact some.inj hu ▸ hi.current_mem

theorem Inv.operate {a : Action} {r : Outcome} (hi : s.Inv) (hr : s.operate a = some r) : Sound r := by
  cases a with
  | create priority =>
    simp only [State.operate] at hr
    split_ifs at hr
    exact hi.sound_threadCreate hr
  | block => exact some.inj hr ▸ hi.sound_threadBlock
  | sleep ticks =>
    simp only [State.operate] at hr
    split_ifs at hr with hord
    exact some.inj hr ▸ hi.sound_timerSleep hord ticks
  | unblock t =>
    obtain ⟨s', hs', rfl⟩ := map_eq_some_iff.mp hr
    exact (hi.wakeWaiter hs').sound_stay
  | yield => exact some.inj hr ▸ hi.sound_threadYield
  | setNice nice =>
    simp only [State.operate] at hr
    split_ifs at hr
    exact hi.sound_threadSetNice hr
  | setPriority priority =>
    simp only [State.operate] at hr
    split_ifs at hr
    exact some.inj hr ▸
      (hi.tweak rfl rfl rfl fun h => absurd h hi.not_queued_current).sound_stay
  | exit =>
    simp only [State.operate] at hr
    split_ifs at hr with hord
    exact some.inj hr ▸ hi.sound_threadExit hord
  | becomeIdle =>
    simp only [State.operate] at hr
    split_ifs at hr with hnone
    exact some.inj hr ▸ (hi.becomeIdle hnone).sound_stay
  | tick => exact some.inj hr ▸ hi.sound_threadTick

theorem Inv.step {a : Action} (hi : s.Inv) (hs : s.step a = some s') : s'.Inv := by
  obtain ⟨r, hr, hs⟩ := bind_eq_some_iff.mp hs
  have hsound := hi.operate hr
  split_ifs at hs with hswitch
  · exact hsound.1.schedule hs
  · exact some.inj hs ▸ hsound.2 (by simpa using hswitch)

theorem inv_boot : boot.Inv := by
  refine ⟨⟨?_, fun t => ⟨fun h => ?_, nofun, fun _ => ⟨rfl, rfl⟩, fun _ => rfl⟩, ?_, nofun⟩, rfl⟩
  · refine (Buckets.sorted_empty fun t => (boot.thread t).priority).congr
      (fun t => iff_false_intro fun h => ?_) fun _ _ => rfl
    have := h.1
    simp only [boot] at this
    split_ifs at this
  · exact if_neg fun ht => h (by simp [boot, ht])
  · simp [boot]

theorem inv_of_reach (h : system.Reach s) : s.Inv := by
  refine System.ReachVia.invariant (I := Inv) (fun s hs => ?_) (fun s a s' hi _ hs => ?_) h
  · exact hs ▸ inv_boot
  · exact hi.step hs

def QueuesRight (s : State) : Prop :=
  ∀ p, (s.ready.queue p).Nodup ∧ ∀ t, t ∈ s.ready.queue p ↔ s.Queued t ∧ (s.thread t).priority = p

theorem Parts.queuesRight (hp : s.Parts) : s.QueuesRight :=
  fun p => ⟨hp.sorted.nodup p, fun t => hp.sorted.mem t p⟩

theorem queues_right_of_reach (h : system.Reach s) :
    s.QueuesRight ∧ ∀ a s₁, s.operate a = some (true, s₁) → s₁.QueuesRight ∧
      ((∃ t, s₁.nextThreadToRun.1 = some t ∧ s₁.Next t) ∨
        ((∀ t, ¬ s₁.Queued t) ∧ s₁.nextThreadToRun.1 = s₁.idleThread)) := by
  have hi := inv_of_reach h
  refine ⟨hi.queuesRight, fun a s₁ hr => ?_⟩
  have hp : s₁.Parts := (hi.operate hr).1
  refine ⟨hp.queuesRight, hp.nextThreadToRun.imp ?_ ?_⟩
  · rintro ⟨t, hnext, -, heq⟩
    exact ⟨t, by rw [heq], hnext⟩
  · rintro ⟨hnone, heq⟩
    exact ⟨hnone, by rw [heq]⟩

theorem queues_right_ticks :
    ∃ s, system.Reach s ∧ s.current = 1 ∧ s.ready.queue 63 = [3] ∧ s.QueuesRight := by
  have hrun : (System.runVia step (fun _ _ => True) boot
      [.create 0, .block, .becomeIdle, .unblock 1, .block, .create 31, .tick, .tick, .tick, .tick]).map
        (fun s => (s.current, s.ready.queue 63)) = some (1, [3]) := by decide +kernel
  obtain ⟨s, hs, hv⟩ := map_eq_some_iff.mp hrun
  simp only [Prod.mk.injEq] at hv
  have hreach : system.Reach s := System.ReachVia.run (.init rfl) hs
  exact ⟨s, hreach, hv.1, hv.2, (queues_right_of_reach hreach).1⟩

end Cs162.Threads.Mlfqs.State
