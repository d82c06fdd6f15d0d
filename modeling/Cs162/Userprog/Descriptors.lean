import Mathlib.Algebra.GroupWithZero.Nat
import Mathlib.Data.List.FinRange
import Cs162.Lib.System
import Cs162.Lib.Walk

namespace Cs162.Userprog
open Lib Function Option

def fdMax : ℕ := 128

abbrev Fd := Fin fdMax

instance neZero_fdMax : NeZero fdMax := ⟨by decide⟩

structure Descriptors (F : Type) where
  fdTable : Fd → Option F
  nextFd : Fd
  executable : Option F
  closed : List F

namespace Descriptors
variable {F : Type}

def initProcess (executable : Option F) : Descriptors F := ⟨fun _ => none, 2, executable, []⟩

def fileClose (s : Descriptors F) (f : F) : Descriptors F := { s with closed := f :: s.closed }

def sysOpen (s : Descriptors F) (rounds : ℕ) : Option F → Option (ℤ × Descriptors F)
  | none => some (-1, s)
  | some f =>
    (walk (fun fd => (s.fdTable fd).isNone) (· + 1) rounds s.nextFd).map fun fd : Fd =>
      ((fd : ℕ), { s with fdTable := update s.fdTable fd (some f), nextFd := fd })

def closeFd (s : Descriptors F) (fd : Fd) : Descriptors F :=
  match s.fdTable fd with
  | some f => { s.fileClose f with fdTable := update s.fdTable fd none }
  | none => s

def sysClose (s : Descriptors F) (fd : ℤ) : Option (Descriptors F) :=
  if h : fd.toNat < fdMax ∧ 0 ≤ fd then some (s.closeFd ⟨fd.toNat, h.1⟩) else none

def exitFds (s : Descriptors F) : List Fd := (List.finRange fdMax).filter fun fd => 2 ≤ fd ∧ fd < s.nextFd

def processExit (s : Descriptors F) : Descriptors F :=
  let s := s.exitFds.foldl closeFd s
  match s.executable with
  | some f => s.fileClose f
  | none => s

def Fresh (s : Descriptors F) (f : F) : Prop := s.executable ≠ some f ∧ ∀ fd, s.fdTable fd ≠ some f

instance [DecidableEq F] (s : Descriptors F) (f : F) : Decidable (s.Fresh f) := inferInstanceAs (Decidable (_ ∧ _))

inductive Call (F : Type)
  | open (file : Option F)
  | close (fd : ℤ)

section
variable [DecidableEq F]

def step (s : Descriptors F) : Call F → Option (Descriptors F)
  | .open file => if ∀ f ∈ file, s.Fresh f then (s.sysOpen fdMax file).map Prod.snd else none
  | .close fd => s.sysClose fd

def system (F : Type) [DecidableEq F] : System (Descriptors F) (Call F) :=
  .ofStep (fun s => ∃ executable, s = initProcess executable) step

end

theorem val_iterate (fd : Fd) (j : ℕ) : (((· + 1)^[j] fd : Fd) : ℕ) = (fd + j) % fdMax := by
  induction j with
  | zero => exact (Nat.mod_eq_of_lt fd.isLt).symm
  | succ j ih =>
    have hone : ((1 : Fd) : ℕ) = 1 := rfl
    rw [Function.iterate_succ_apply', Fin.val_add, ih, hone, Nat.mod_add_mod, Nat.add_assoc]

def Allocates (s : Descriptors F) (f : F) : Prop :=
  ∃ rounds r s', s.sysOpen rounds (some f) = some (r, s') ∧
    ((∃ fd : Fd, 2 ≤ fd ∧ r = (fd : ℕ) ∧ s.fdTable fd = none ∧ s'.fdTable = update s.fdTable fd (some f)) ∨
      (r = -1 ∧ (∀ fd : Fd, 2 ≤ fd → s.fdTable fd ≠ none) ∧ s'.fdTable = s.fdTable ∧ s'.closed = f :: s.closed))

def UserFirst (s : Descriptors F) : Prop :=
  ∃ k, ∃ fd : Fd, 2 ≤ fd ∧ Meets (fun fd => (s.fdTable fd).isNone) (· + 1) s.nextFd k fd

theorem sysOpen_eq_some {s s' : Descriptors F} {rounds : ℕ} {f : F} {r : ℤ} :
    s.sysOpen rounds (some f) = some (r, s') ↔
      ∃ k < rounds, ∃ fd : Fd, Meets (fun fd => (s.fdTable fd).isNone) (· + 1) s.nextFd k fd ∧ r = (fd : ℕ) ∧
        s' = { s with fdTable := update s.fdTable fd (some f), nextFd := fd } := by
  rw [sysOpen, map_eq_some_iff]
  constructor
  · rintro ⟨fd, hwalk, heq⟩
    obtain ⟨k, hk, hmeets⟩ := walk_eq_some.mp hwalk
    obtain ⟨hr, hs⟩ := Prod.mk.inj heq
    exact ⟨k, hk, fd, hmeets, hr.symm, hs.symm⟩
  · rintro ⟨k, hk, fd, hmeets, rfl, rfl⟩
    exact ⟨fd, walk_eq_some.mpr ⟨k, hk, hmeets⟩, rfl⟩

theorem allocates_iff_userFirst (s : Descriptors F) (f : F) : s.Allocates f ↔ s.UserFirst := by
  constructor
  · rintro ⟨rounds, r, s', hopen, hres⟩
    obtain ⟨k, -, fd, hmeets, rfl, rfl⟩ := sysOpen_eq_some.mp hopen
    rcases hres with ⟨fd', hfd', heq, -⟩ | ⟨hr, -⟩
    · obtain rfl : fd = fd' := Fin.ext (Int.ofNat_inj.mp heq)
      exact ⟨k, fd, hfd', hmeets⟩
    · exact absurd hr (by omega)
  · rintro ⟨k, fd, hfd, hmeets⟩
    refine ⟨k + 1, fd, _, sysOpen_eq_some.mpr ⟨k, Nat.lt_succ_self k, fd, hmeets, rfl, rfl⟩, .inl ?_⟩
    exact ⟨fd, hfd, rfl, isNone_iff_eq_none.mp hmeets.2.1, rfl⟩

def ClosesOnce (s : Descriptors F) : Prop :=
  ∃ calls, s.processExit.closed = calls ++ s.closed ∧ calls.Nodup ∧
    ∀ f, f ∈ calls ↔ s.executable = some f ∨ ∃ fd, s.fdTable fd = some f

theorem closeFd_fdTable (s : Descriptors F) (fd : Fd) : (s.closeFd fd).fdTable = update s.fdTable fd none := by
  unfold closeFd
  split
  · rfl
  · rename_i hnone
    rw [← hnone, update_eq_self]

theorem closeFd_nextFd (s : Descriptors F) (fd : Fd) : (s.closeFd fd).nextFd = s.nextFd := by
  unfold closeFd
  split <;> rfl

theorem closeFd_executable (s : Descriptors F) (fd : Fd) : (s.closeFd fd).executable = s.executable := by
  unfold closeFd
  split <;> rfl

theorem closeFd_closed (s : Descriptors F) (fd : Fd) : (s.closeFd fd).closed = (s.fdTable fd).toList ++ s.closed := by
  unfold closeFd
  split
  · rename_i f hf
    rw [hf]
    rfl
  · rename_i hnone
    rw [hnone]
    rfl

theorem foldl_closeFd {fds : List Fd} (hnodup : fds.Nodup) (s : Descriptors F) :
    (fds.foldl closeFd s).executable = s.executable ∧
      (fds.foldl closeFd s).closed = (fds.filterMap s.fdTable).reverse ++ s.closed := by
  induction fds generalizing s with
  | nil => exact ⟨rfl, rfl⟩
  | cons fd fds ih =>
    obtain ⟨hnot, hrest⟩ := List.nodup_cons.mp hnodup
    obtain ⟨hexec, hclosed⟩ := ih hrest (s.closeFd fd)
    have hsame : fds.filterMap (s.closeFd fd).fdTable = fds.filterMap s.fdTable := by
      refine List.filterMap_congr fun fd' hfd' => ?_
      rw [closeFd_fdTable, update_of_ne]
      rintro rfl
      exact hnot hfd'
    refine ⟨hexec.trans (closeFd_executable s fd), ?_⟩
    rw [List.foldl_cons, hclosed, hsame, closeFd_closed]
    rcases hf : s.fdTable fd with _ | f <;> simp [hf]

theorem processExit_closed (s : Descriptors F) :
    s.processExit.closed = (s.executable.toList ++ (s.exitFds.filterMap s.fdTable).reverse) ++ s.closed := by
  have hnodup : s.exitFds.Nodup := (List.nodup_finRange fdMax).filter _
  obtain ⟨hexec, hclosed⟩ := foldl_closeFd hnodup s
  unfold processExit
  simp only [hexec]
  rcases s.executable with _ | f
  · exact hclosed
  · exact congrArg (f :: ·) hclosed

theorem mem_exitFds {s : Descriptors F} {fd : Fd} : fd ∈ s.exitFds ↔ 2 ≤ fd ∧ fd < s.nextFd := by
  simp [exitFds, List.mem_filter]

structure Distinct (s : Descriptors F) : Prop where
  once : ∀ fd fd' f, s.fdTable fd = some f → s.fdTable fd' = some f → fd = fd'
  executable : ∀ fd f, s.fdTable fd = some f → s.executable ≠ some f

theorem Distinct.update {s s' : Descriptors F} {fd : Fd} {file : Option F} (h : s.Distinct)
    (hfresh : ∀ f ∈ file, s.Fresh f) (ht : s'.fdTable = update s.fdTable fd file)
    (he : s'.executable = s.executable) : s'.Distinct := by
  have hcases : ∀ x f, s'.fdTable x = some f → x = fd ∧ file = some f ∨ x ≠ fd ∧ s.fdTable x = some f := by
    intro x f hx
    rw [ht] at hx
    by_cases hxfd : x = fd
    · subst hxfd
      exact .inl ⟨rfl, by rwa [update_self] at hx⟩
    · exact .inr ⟨hxfd, by rwa [update_of_ne hxfd] at hx⟩
  refine ⟨fun x y f hx hy => ?_, fun x f hx => ?_⟩
  · rcases hcases x f hx with ⟨rfl, hf⟩ | ⟨-, hx⟩ <;> rcases hcases y f hy with ⟨rfl, hf'⟩ | ⟨-, hy⟩
    · rfl
    · exact absurd hy ((hfresh f hf).2 y)
    · exact absurd hx ((hfresh f hf').2 x)
    · exact h.once x y f hx hy
  · rw [he]
    rcases hcases x f hx with ⟨-, hf⟩ | ⟨-, hx⟩
    · exact (hfresh f hf).1
    · exact h.executable x f hx

theorem Distinct.closeFd {s : Descriptors F} (h : s.Distinct) (fd : Fd) : (s.closeFd fd).Distinct :=
  have hnone : ∀ f ∈ (none : Option F), s.Fresh f := fun f hf => absurd hf (not_mem_none f)
  h.update hnone (closeFd_fdTable s fd) (closeFd_executable s fd)

theorem closesOnce_iff_of_distinct {s : Descriptors F} (h : s.Distinct) :
    s.ClosesOnce ↔ ∀ fd f, s.fdTable fd = some f → 2 ≤ fd ∧ fd < s.nextFd := by
  have hmem : ∀ f, f ∈ s.executable.toList ++ (s.exitFds.filterMap s.fdTable).reverse ↔
      s.executable = some f ∨ ∃ fd, (2 ≤ fd ∧ fd < s.nextFd) ∧ s.fdTable fd = some f := fun f => by
    simp [mem_exitFds]
  constructor
  · rintro ⟨calls, hcalls, -, hall⟩ fd f hf
    have hsame := List.append_cancel_right ((processExit_closed s).symm.trans hcalls)
    have hin : f ∈ calls := (hall f).mpr (.inr ⟨fd, hf⟩)
    rw [← hsame, hmem] at hin
    rcases hin with hexec | ⟨fd', hrange, hf'⟩
    · exact absurd hexec (h.executable fd f hf)
    · rwa [h.once fd fd' f hf hf']
  · intro hrange
    refine ⟨_, processExit_closed s, ?_, fun f => (hmem f).trans (or_congr_right ?_)⟩
    · have hnodup : (s.exitFds.filterMap s.fdTable).Nodup :=
        ((List.nodup_finRange fdMax).filter _).filterMap fun fd fd' f hf hf' => h.once fd fd' f hf hf'
      refine List.nodup_append.mpr ⟨?_, List.nodup_reverse.mpr hnodup, ?_⟩
      · rcases s.executable with _ | f <;> simp
      · rintro f hf g hg rfl
        obtain ⟨fd, -, hfd⟩ := List.mem_filterMap.mp (List.mem_reverse.mp hg)
        exact h.executable fd f hfd (by simpa using hf)
    · constructor
      · rintro ⟨fd, -, hf⟩
        exact ⟨fd, hf⟩
      · rintro ⟨fd, hf⟩
        exact ⟨fd, hrange fd f hf, hf⟩

def KeepsOff (s : Descriptors F) : Call F → Prop
  | .open (some _) => s.UserFirst
  | _ => True

structure ConsoleFree (s : Descriptors F) : Prop where
  console : ∀ fd : Fd, fd < 2 → s.fdTable fd = none
  nextFd : 2 ≤ s.nextFd

theorem ConsoleFree.closeFd {s : Descriptors F} (h : s.ConsoleFree) (fd : Fd) : (s.closeFd fd).ConsoleFree := by
  refine ⟨fun x hx => ?_, (closeFd_nextFd s fd).symm ▸ h.nextFd⟩
  rw [closeFd_fdTable, update_apply]
  split_ifs
  · rfl
  · exact h.console x hx

theorem ConsoleFree.userFirst_iff {s : Descriptors F} (h : s.ConsoleFree) :
    s.UserFirst ↔ ∃ fd, s.nextFd ≤ fd ∧ s.fdTable fd = none := by
  constructor
  · rintro ⟨k, fd, hfd, heq, hfree, hbefore⟩
    refine ⟨fd, not_lt.mp fun hlt => ?_, isNone_iff_eq_none.mp hfree⟩
    -- the walk has come past descriptor 0, which is free
    have hval : (fd : ℕ) = (s.nextFd + k) % fdMax := heq ▸ val_iterate s.nextFd k
    have hpast : fdMax - s.nextFd < k := by
      have := s.nextFd.isLt
      simp only [Fin.lt_def, Fin.le_def, fdMax] at *
      omega
    have hzero : (· + 1)^[fdMax - s.nextFd] s.nextFd = (0 : Fd) := by
      refine Fin.ext ((val_iterate ..).trans ?_)
      rw [Nat.add_sub_cancel' s.nextFd.isLt.le, Nat.mod_self]
      rfl
    have hused := hbefore _ hpast
    simp only [hzero, h.console 0 (by decide)] at hused
    cases hused
  · rintro ⟨fd, hle, hnone⟩
    have hreach : (· + 1)^[(fd : ℕ) - s.nextFd] s.nextFd = fd := by
      refine Fin.ext ((val_iterate ..).trans ?_)
      rw [Nat.add_sub_cancel' hle, Nat.mod_eq_of_lt fd.isLt]
    have hwalk : walk (fun fd => (s.fdTable fd).isNone) (· + 1) (fd - s.nextFd + 1) s.nextFd ≠ none := by
      rw [Ne, walk_eq_none]
      intro hused
      have hfree := hused _ (Nat.lt_succ_self _)
      rw [hreach, hnone] at hfree
      cases hfree
    obtain ⟨b, hb⟩ := ne_none_iff_exists'.mp hwalk
    obtain ⟨k, hk, hmeets⟩ := walk_eq_some.mp hb
    have hval : (b : ℕ) = (s.nextFd + k) % fdMax := hmeets.1 ▸ val_iterate s.nextFd k
    refine ⟨k, b, h.nextFd.trans (Fin.le_def.mpr ?_), hmeets⟩
    have hlt : s.nextFd + k < fdMax := by
      have := fd.isLt
      rw [Fin.le_def] at hle
      omega
    rw [hval, Nat.mod_eq_of_lt hlt]
    exact Nat.le_add_right ..

variable [DecidableEq F] {s s' : Descriptors F} {c : Call F}

theorem step_cases (hs : s.step c = some s') :
    s' = s ∨ (∃ fd, s' = s.closeFd fd) ∨
      ∃ f k fd, c = .open (some f) ∧ s.Fresh f ∧
        Meets (fun fd => (s.fdTable fd).isNone) (· + 1) s.nextFd k fd ∧
        s' = { s with fdTable := update s.fdTable fd (some f), nextFd := fd } := by
  cases c with
  | «open» file =>
    simp only [step] at hs
    split_ifs at hs with hfresh
    obtain ⟨⟨r, t⟩, hopen, rfl⟩ := map_eq_some_iff.mp hs
    cases file with
    | none =>
      cases hopen
      exact .inl rfl
    | some f =>
      obtain ⟨k, -, fd, hmeets, -, rfl⟩ := sysOpen_eq_some.mp hopen
      exact .inr (.inr ⟨f, k, fd, rfl, hfresh f rfl, hmeets, rfl⟩)
  | close fd =>
    simp only [step, sysClose] at hs
    split_ifs at hs
    cases hs
    exact .inr (.inl ⟨_, rfl⟩)

theorem Distinct.step (h : s.Distinct) (hs : s.step c = some s') : s'.Distinct := by
  rcases step_cases hs with rfl | ⟨fd, rfl⟩ | ⟨f, k, fd, -, hf, -, rfl⟩
  · exact h
  · exact h.closeFd fd
  · have hfresh : ∀ g ∈ some f, s.Fresh g := fun g hg => mem_some_iff.mp hg ▸ hf
    exact h.update hfresh rfl rfl

theorem distinct_of_reach (h : (system F).Reach s) : s.Distinct := by
  refine System.ReachVia.invariant ?_ (fun s c s' hi _ hs => hi.step hs) h
  rintro s ⟨executable, rfl⟩
  exact ⟨fun _ _ f hf => absurd hf.symm (some_ne_none f), fun _ f hf => absurd hf.symm (some_ne_none f)⟩

theorem ConsoleFree.step (h : s.ConsoleFree) (hc : s.KeepsOff c) (hs : s.step c = some s') : s'.ConsoleFree := by
  rcases step_cases hs with rfl | ⟨fd, rfl⟩ | ⟨f, k, fd, rfl, -, hmeets, rfl⟩
  · exact h
  · exact h.closeFd fd
  · obtain ⟨k', fd', hfd', hmeets'⟩ := hc
    obtain rfl := hmeets.unique hmeets'
    refine ⟨fun x hx => ?_, hfd'⟩
    have hne : x ≠ fd := fun heq => absurd (heq ▸ hx) (not_lt.mpr hfd')
    exact (update_of_ne hne ..).trans (h.console x hx)

theorem consoleFree_of_reach (h : (system F).ReachVia KeepsOff s) : s.ConsoleFree := by
  refine System.ReachVia.invariant ?_ (fun s c s' hi hc hs => hi.step hc hs) h
  rintro s ⟨executable, rfl⟩
  exact ⟨fun _ _ => rfl, le_refl 2⟩

theorem allocates_iff :
    (∀ s : Descriptors F, (system F).Reach s → ∀ f, s.Allocates f ↔ s.UserFirst) ∧
      ∀ s : Descriptors F, (system F).ReachVia KeepsOff s →
        ∀ f, s.Allocates f ↔ ∃ fd, s.nextFd ≤ fd ∧ s.fdTable fd = none :=
  ⟨fun s _ f => allocates_iff_userFirst s f,
    fun s h f => (allocates_iff_userFirst s f).trans (consoleFree_of_reach h).userFirst_iff⟩

theorem closesOnce_iff (h : (system F).Reach s) :
    s.ClosesOnce ↔ ∀ fd f, s.fdTable fd = some f → 2 ≤ fd ∧ fd < s.nextFd :=
  closesOnce_iff_of_distinct (distinct_of_reach h)

theorem ReachVia.openAt {f : F} {k : ℕ} {fd : Fd} (h : (system F).ReachVia KeepsOff s) (hf : s.Fresh f)
    (hk : k < fdMax) (hfd : 2 ≤ fd) (hmeets : Meets (fun fd => (s.fdTable fd).isNone) (· + 1) s.nextFd k fd) :
    (system F).ReachVia KeepsOff { s with fdTable := update s.fdTable fd (some f), nextFd := fd } := by
  have hopen : s.sysOpen fdMax (some f) = some (_, _) := sysOpen_eq_some.mpr ⟨k, hk, fd, hmeets, rfl, rfl⟩
  have hfresh : ∀ g ∈ some f, s.Fresh g := fun g hg => mem_some_iff.mp hg ▸ hf
  refine System.ReachVia.step (l := .open (some f)) h ⟨k, fd, hfd, hmeets⟩ ?_
  show (if ∀ g ∈ some f, s.Fresh g then _ else none) = _
  rw [if_pos hfresh, hopen]
  rfl

def openedTo (fd : Fd) : Descriptors ℕ :=
  ⟨fun x => if 2 ≤ x ∧ x ≤ fd then some x else none, fd, none, []⟩

theorem fresh_openedTo {fd : Fd} {f : ℕ} (hf : fd < f) : (openedTo fd).Fresh f := by
  refine ⟨(some_ne_none f).symm, fun x hx => ?_⟩
  simp only [openedTo] at hx
  split_ifs at hx with hle
  have hval := some.inj hx
  have hx : (x : ℕ) ≤ fd := hle.2
  omega

theorem openedTo_next {fd fd' : Fd} (h : 2 ≤ fd) (hnext : (fd' : ℕ) = fd + 1) :
    openedTo fd' =
      { openedTo fd with fdTable := update (openedTo fd).fdTable fd' (some (fd' : ℕ)), nextFd := fd' } := by
  have htwo : ((2 : Fd) : ℕ) = 2 := rfl
  have htable : (openedTo fd').fdTable = update (openedTo fd).fdTable fd' (some (fd' : ℕ)) := by
    funext x
    rw [Fin.le_def, htwo] at h
    by_cases hx : x = fd'
    · subst hx
      rw [update_self]
      exact if_pos ⟨Fin.le_def.mpr (by omega), le_refl x⟩
    · rw [update_of_ne hx]
      have hne : (x : ℕ) ≠ fd' := fun heq => hx (Fin.ext heq)
      refine if_congr ?_ rfl rfl
      rw [Fin.le_def, Fin.le_def, Fin.le_def, htwo]
      omega
  rw [← htable]
  rfl

theorem reachVia_openedTo (n : ℕ) (hn : n + 2 < fdMax) :
    (system ℕ).ReachVia KeepsOff (openedTo ⟨n + 2, hn⟩) := by
  induction n with
  | zero =>
    have hstart : (system ℕ).ReachVia KeepsOff (initProcess none) := .init ⟨none, rfl⟩
    have hopen := ReachVia.openAt hstart (f := 2) (k := 0) (by decide) (by decide) (le_refl 2) ⟨rfl, rfl, by decide⟩
    have htable : (openedTo 2).fdTable = update (fun _ => none) 2 (some 2) := funext (by decide)
    rw [show openedTo ⟨0 + 2, hn⟩ = { openedTo 2 with fdTable := (openedTo 2).fdTable } from rfl, htable]
    exact hopen
  | succ n ih =>
    have hlt : n + 2 < fdMax := Nat.lt_of_succ_lt hn
    have htwo : 2 ≤ (⟨n + 2, hlt⟩ : Fd) := Fin.le_def.mpr (Nat.le_add_left 2 n)
    rw [openedTo_next htwo (Eq.refl ((⟨n + 1 + 2, hn⟩ : Fd) : ℕ))]
    have hfresh := @fresh_openedTo ⟨n + 2, hlt⟩ _ (Nat.lt_succ_self (n + 2))
    refine ReachVia.openAt (k := 1) (ih hlt) hfresh (by decide) (htwo.trans (Nat.le_succ (n + 2))) ⟨?_, ?_, ?_⟩
    · refine Fin.ext ((val_iterate ⟨n + 2, hlt⟩ 1).trans ?_)
      exact Nat.mod_eq_of_lt hn
    · have hbehind : ¬ (⟨n + 1 + 2, hn⟩ : Fd) ≤ ⟨n + 2, hlt⟩ := by simp
      simp [openedTo, hbehind]
    · intro j hj
      obtain rfl : j = 0 := by omega
      have hused : (openedTo ⟨n + 2, hlt⟩).fdTable ⟨n + 2, hlt⟩ = some (n + 2) := if_pos ⟨htwo, le_refl _⟩
      exact congrArg isNone hused

theorem reach_openedTo (n : ℕ) (hn : n + 2 < fdMax) : (system ℕ).Reach (openedTo ⟨n + 2, hn⟩) :=
  (reachVia_openedTo n hn).mono fun _ _ _ => trivial

theorem allocates_openedTo : (openedTo 4).UserFirst ∧ (openedTo 4).Allocates 9 := by
  have hopen := (allocates_iff.2 (openedTo 4) (reachVia_openedTo 2 (by decide)) 9).mpr ⟨5, by decide, rfl⟩
  exact ⟨(allocates_iff.1 (openedTo 4) (reach_openedTo 2 (by decide)) 9).mp hopen, hopen⟩

theorem sysOpen_wraps :
    (system ℕ).Reach (openedTo 127) ∧ ((openedTo 127).sysOpen fdMax (some 128)).map Prod.fst = some 0 ∧
      ¬ (openedTo 127).Allocates 128 := by
  refine ⟨reach_openedTo 125 (by decide), rfl, fun h => ?_⟩
  obtain ⟨k, fd, hfd, hmeets⟩ := (allocates_iff_userFirst _ _).mp h
  have hzero : Meets (fun fd => ((openedTo 127).fdTable fd).isNone) (· + 1) (openedTo 127).nextFd 1 0 :=
    ⟨rfl, rfl, by decide⟩
  rw [hmeets.unique hzero] at hfd
  exact absurd hfd (by decide)

theorem closesOnce_closeFd : ((openedTo 3).closeFd 3).ClosesOnce := by
  have hreach : (system ℕ).Reach ((openedTo 3).closeFd 3) :=
    System.ReachVia.step (l := .close 3) (reach_openedTo 1 (by decide)) trivial rfl
  refine (closesOnce_iff hreach).mpr fun fd f hf => ?_
  have hdesc : ∀ fd, (((openedTo 3).closeFd 3).fdTable fd).isSome → 2 ≤ fd ∧ fd < 3 := by decide
  exact hdesc fd (hf ▸ rfl)

theorem processExit_misses_last :
    (system ℕ).Reach (openedTo 2) ∧ (openedTo 2).processExit.closed = [] ∧ ¬ (openedTo 2).ClosesOnce := by
  refine ⟨reach_openedTo 0 (by decide), rfl, ?_⟩
  rintro ⟨calls, hcalls, -, hall⟩
  have hin : 2 ∈ calls := (hall 2).mpr (.inr ⟨2, rfl⟩)
  have hnil : calls = [] := (List.append_eq_nil_iff.mp hcalls.symm).1
  rw [hnil] at hin
  cases hin

end Descriptors
end Cs162.Userprog
