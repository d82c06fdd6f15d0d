import Cs162.Lib.SharedLock
import Cs162.Lib.System
import Cs162.Threads.Donation

namespace Cs162.Filesys.SharedMonitor
open Lib Threads Option

inductive Mode
  | shared
  | exclusive
  deriving DecidableEq

structure State (T : Type) where
  i : ℤ
  waiters : List (T × Mode)
  signalled : List (T × Mode)
  readers : List T
  writers : List T

def toInt (x : ℤ) : ℤ := x.bmod (2 ^ 32)

theorem toInt_eq {x : ℤ} (hlow : -2 ^ 31 ≤ x) (hhigh : x < 2 ^ 31) : toInt x = x :=
  Int.bmod_eq_of_le (by omega) (by omega)

variable {T : Type}

namespace State

def initShared : State T := ⟨0, [], [], [], []⟩

def condWait (s : State T) (w : T × Mode) : State T := { s with waiters := s.waiters ++ [w] }

def acquireShared (s : State T) (t : T) : State T :=
  if s.i < 0 then s.condWait (t, .shared) else { s with i := toInt (s.i + 1), readers := t :: s.readers }

def acquireExclusive (s : State T) (t : T) : State T :=
  if s.i ≠ 0 then s.condWait (t, .exclusive) else { s with i := -1, writers := t :: s.writers }

def acquire (s : State T) (t : T) : Mode → State T
  | .shared => s.acquireShared t
  | .exclusive => s.acquireExclusive t

variable [DecidableEq T]

def condSignal (priority : T → ℤ) (s : State T) : State T :=
  match listMax (fun w => priority w.1) s.waiters with
  | some w => { s with waiters := s.waiters.erase w, signalled := w :: s.signalled }
  | none => s

def condBroadcast (priority : T → ℤ) (s : State T) : State T := (condSignal priority)^[s.waiters.length] s

def decrement (s : State T) (t : T) : State T := { s with i := toInt (s.i - 1), readers := s.readers.erase t }

def releaseShared (s : State T) (t : T) (priority : T → ℤ) : State T :=
  if (s.decrement t).i = 0 then (s.decrement t).condSignal priority else s.decrement t

def releaseExclusive (s : State T) (t : T) (priority : T → ℤ) : State T :=
  { s with i := 0, writers := s.writers.erase t }.condBroadcast priority

end State

inductive Event (T : Type)
  | acquire (t : T) (mode : Mode)
  | resume (t : T) (mode : Mode)
  | releaseShared (t : T) (priority : T → ℤ)
  | releaseExclusive (t : T) (priority : T → ℤ)

def step [DecidableEq T] (s : State T) : Event T → Option (State T)
  | .acquire t mode =>
    if t ∈ s.waiters.map Prod.fst ∨ t ∈ s.signalled.map Prod.fst then none else some (s.acquire t mode)
  | .resume t mode =>
    if (t, mode) ∈ s.signalled then some ({ s with signalled := s.signalled.erase (t, mode) }.acquire t mode)
    else none
  | .releaseShared t priority => if t ∈ s.readers then some (s.releaseShared t priority) else none
  | .releaseExclusive t priority => if t ∈ s.writers then some (s.releaseExclusive t priority) else none

def system (T : Type) [DecidableEq T] : System (State T) (Event T) := .ofStep (· = .initShared) step

def NoOverflow (s : State T) : Event T → Prop
  | .acquire _ .shared | .resume _ .shared => s.i < 2 ^ 31 - 1
  | _ => True

namespace State
variable [DecidableEq T] (priority : T → ℤ) (s : State T)

theorem exists_condSignal_eq (h : s.waiters ≠ []) : ∃ w ∈ s.waiters,
    s.condSignal priority = { s with waiters := s.waiters.erase w, signalled := w :: s.signalled } := by
  rw [condSignal]
  split
  next w hw => exact ⟨w, listMax_mem hw, rfl⟩
  next hnone => exact absurd (listMax_eq_none.mp hnone) h

def SameHolders (s s' : State T) : Prop := s'.i = s.i ∧ s'.readers = s.readers ∧ s'.writers = s.writers

theorem sameHolders_condSignal : SameHolders s (s.condSignal priority) := by
  rw [condSignal]
  split <;> exact ⟨rfl, rfl, rfl⟩

theorem length_waiters_condSignal : (s.condSignal priority).waiters.length = s.waiters.length - 1 := by
  by_cases h : s.waiters = []
  · simp [condSignal, h, listMax]
  · obtain ⟨w, hw, heq⟩ := s.exists_condSignal_eq priority h
    rw [heq]
    exact List.length_erase_of_mem hw

theorem signals (n : ℕ) : SameHolders s ((condSignal priority)^[n] s) ∧
    ((condSignal priority)^[n] s).waiters.length = s.waiters.length - n := by
  induction n with
  | zero => exact ⟨⟨rfl, rfl, rfl⟩, rfl⟩
  | succ n ih =>
    obtain ⟨⟨hi, hr, hw⟩, hlength⟩ := ih
    obtain ⟨hi', hr', hw'⟩ := sameHolders_condSignal priority ((condSignal priority)^[n] s)
    rw [Function.iterate_succ_apply', length_waiters_condSignal, hlength]
    exact ⟨⟨hi'.trans hi, hr'.trans hr, hw'.trans hw⟩, by omega⟩

theorem sameHolders_condBroadcast : SameHolders s (s.condBroadcast priority) := (s.signals priority _).1

theorem waiters_condBroadcast : (s.condBroadcast priority).waiters = [] :=
  List.length_eq_zero_iff.mp ((s.signals priority _).2.trans (Nat.sub_self _))

end State

def Agrees (s : State T) : SharedLock T → Prop
  | .shared readers => s.i = readers.length ∧ s.i < 2 ^ 31 ∧ s.readers = readers ∧ s.writers = []
  | .exclusive t => s.i = -1 ∧ s.readers = [] ∧ s.writers = [t]

namespace Agrees
variable {s s' : State T} {l : SharedLock T}

theorem congr (h : Agrees s l) (hs : s.SameHolders s') : Agrees s' l := by
  obtain ⟨hi, hr, hw⟩ := hs
  cases l <;> simpa only [Agrees, hi, hr, hw] using h

theorem acquireShared (h : Agrees s l) (hlt : s.i < 2 ^ 31 - 1) (t : T) :
    Agrees (s.acquireShared t) ((l.acquireShared t).getD l) := by
  cases l with
  | shared readers =>
    obtain ⟨hi, -, rfl, hw⟩ := h
    have hstep : toInt (s.i + 1) = s.i + 1 := toInt_eq (by omega) (by omega)
    rw [State.acquireShared, if_neg (by omega), hstep]
    exact ⟨by simp [hi], by dsimp only; omega, rfl, hw⟩
  | exclusive u =>
    rw [State.acquireShared, if_pos (by rw [h.1]; decide)]
    exact h

theorem acquireExclusive (h : Agrees s l) (t : T) :
    Agrees (s.acquireExclusive t) ((l.acquireExclusive t).getD l) := by
  rcases l with (_ | ⟨r, readers⟩) | u
  · obtain ⟨hi, -, hr, hw⟩ := h
    have hzero : s.i = 0 := hi
    rw [State.acquireExclusive, if_neg (not_not.mpr hzero)]
    exact ⟨rfl, hr, by simp [hw]⟩
  · have hi := h.1
    rw [State.acquireExclusive, if_pos (by simp [hi]; omega)]
    exact h
  · rw [State.acquireExclusive, if_pos (by rw [h.1]; decide)]
    exact h

variable [DecidableEq T]

theorem releaseShared (h : Agrees s l) {t : T} (ht : t ∈ s.readers) (priority : T → ℤ) :
    Agrees (s.releaseShared t priority) (l.releaseShared t) := by
  cases l with
  | shared readers =>
    obtain ⟨hi, hlt, rfl, hw⟩ := h
    have hpos := List.length_pos_of_mem ht
    have hstep : toInt (s.i - 1) = s.i - 1 := toInt_eq (by omega) (by omega)
    have hdec : Agrees (s.decrement t) (.shared (s.readers.erase t)) := by
      refine ⟨?_, ?_, rfl, hw⟩
      · rw [State.decrement, hstep, List.length_erase_of_mem ht]
        dsimp only
        omega
      · rw [State.decrement, hstep]
        dsimp only
        omega
    rw [State.releaseShared]
    split_ifs
    · exact hdec.congr (State.sameHolders_condSignal ..)
    · exact hdec
  | exclusive u =>
    rw [h.2.1] at ht
    exact nomatch ht

theorem releaseExclusive (h : Agrees s l) {t : T} (ht : t ∈ s.writers) (priority : T → ℤ) :
    l = .exclusive t ∧ Agrees (s.releaseExclusive t priority) .free := by
  cases l with
  | shared readers =>
    rw [h.2.2.2] at ht
    exact nomatch ht
  | exclusive u =>
    obtain ⟨-, hr, hw⟩ := h
    obtain rfl : t = u := by simpa [hw] using ht
    have hfree : Agrees { s with i := 0, writers := s.writers.erase t } .free :=
      ⟨rfl, (by decide : (0 : ℤ) < 2 ^ 31), hr, by simp [hw]⟩
    exact ⟨rfl, hfree.congr (State.sameHolders_condBroadcast ..)⟩

end Agrees

def NoLostWakeup (s : State T) : Prop := s.i = 0 → s.waiters ≠ [] → s.signalled ≠ []

namespace NoLostWakeup
variable {s s' : State T}

theorem i_acquire_ne_zero (t : T) (mode : Mode) (h : mode = .shared → s.i < 2 ^ 31 - 1) :
    (s.acquire t mode).i ≠ 0 := by
  cases mode with
  | shared =>
    have hlt := h rfl
    rw [State.acquire, State.acquireShared]
    split_ifs with hneg
    · exact hneg.ne
    · rw [toInt_eq (by omega) (by omega)]
      dsimp only
      omega
  | exclusive =>
    rw [State.acquire, State.acquireExclusive]
    split_ifs with hzero
    · exact hzero
    · exact (by decide : (-1 : ℤ) ≠ 0)

variable [DecidableEq T]

theorem releaseShared (t : T) (priority : T → ℤ) : NoLostWakeup (s.releaseShared t priority) := by
  rw [State.releaseShared]
  split_ifs with hzero
  · intro _ hne
    by_cases hnil : (s.decrement t).waiters = []
    · have hlength := State.length_waiters_condSignal priority (s.decrement t)
      rw [hnil] at hlength
      exact absurd (List.length_eq_zero_iff.mp hlength) hne
    · obtain ⟨w, -, heq⟩ := State.exists_condSignal_eq priority _ hnil
      rw [heq]
      exact List.cons_ne_nil _ _
  · exact fun hi => absurd hi hzero

theorem step {e : Event T} (he : NoOverflow s e) (hs : step s e = some s') : NoLostWakeup s' := by
  cases e with
  | acquire t mode =>
    rw [SharedMonitor.step] at hs
    split_ifs at hs
    have hne := i_acquire_ne_zero (s := s) t mode (by rintro rfl; exact he)
    exact some.inj hs ▸ fun hi => absurd hi hne
  | resume t mode =>
    rw [SharedMonitor.step] at hs
    split_ifs at hs
    have hne := i_acquire_ne_zero (s := { s with signalled := s.signalled.erase (t, mode) }) t mode
      (by rintro rfl; exact he)
    exact some.inj hs ▸ fun hi => absurd hi hne
  | releaseShared t priority =>
    rw [SharedMonitor.step] at hs
    split_ifs at hs
    exact some.inj hs ▸ releaseShared t priority
  | releaseExclusive t priority =>
    rw [SharedMonitor.step] at hs
    split_ifs at hs
    exact some.inj hs ▸ fun _ hne => absurd (State.waiters_condBroadcast ..) hne

end NoLostWakeup

end Cs162.Filesys.SharedMonitor
