import Cs162.Lib.System
import Cs162.Threads.Donation

namespace Cs162.Threads.Semaphore
open Lib Option

structure Sema (T : Type) where
  initial : ℕ
  value : ℕ
  waiters : List T
  woken : List T
  ups : ℕ
  downs : ℕ

variable {T : Type}

namespace Sema

def semaInit (value : ℕ) : Sema T := ⟨value, value, [], [], 0, 0⟩

def test (s : Sema T) (t : T) : Sema T :=
  if s.value = 0 then { s with waiters := s.waiters ++ [t] }
  else { s with value := s.value - 1, downs := s.downs + 1 }

def tryDown (s : Sema T) : Sema T :=
  if 0 < s.value then { s with value := s.value - 1, downs := s.downs + 1 } else s

def increment (s : Sema T) : Sema T := { s with value := (s.value + 1) % 2 ^ 32, ups := s.ups + 1 }

def unblock [DecidableEq T] (s : Sema T) (priority : T → ℤ) : Sema T :=
  match listMax priority s.waiters with
  | some t => { s with waiters := s.waiters.erase t, woken := t :: s.woken }
  | none => s

def up [DecidableEq T] (s : Sema T) (priority : T → ℤ) : Sema T := (s.unblock priority).increment

end Sema

inductive Event (T : Type)
  | down (t : T)
  | resume (t : T)
  | tryDown
  | up (priority : T → ℤ)

def step [DecidableEq T] (s : Sema T) : Event T → Option (Sema T)
  | .down t => if t ∈ s.waiters ∨ t ∈ s.woken then none else some (s.test t)
  | .resume t => if t ∈ s.woken then some ({ s with woken := s.woken.erase t }.test t) else none
  | .tryDown => some s.tryDown
  | .up priority => some (s.up priority)

def system (T : Type) [DecidableEq T] : System (Sema T) (Event T) :=
  .ofStep (fun s => ∃ value < 2 ^ 32, s = .semaInit value) step

def NoOverflow (s : Sema T) : Event T → Prop
  | .up _ => s.value + 1 < 2 ^ 32
  | _ => True

def Balanced (s : Sema T) : Prop := s.value + s.downs = s.initial + s.ups

namespace Balanced
variable {s s' : Sema T}

theorem test (h : Balanced s) (t : T) : Balanced (s.test t) := by
  rw [Sema.test]
  split_ifs
  · exact h
  · simp only [Balanced] at h ⊢
    omega

theorem tryDown (h : Balanced s) : Balanced s.tryDown := by
  rw [Sema.tryDown]
  split_ifs
  · simp only [Balanced] at h ⊢
    omega
  · exact h

theorem increment (h : Balanced s) (hlt : s.value + 1 < 2 ^ 32) : Balanced s.increment := by
  simp only [Balanced, Sema.increment, Nat.mod_eq_of_lt hlt] at h ⊢
  omega

variable [DecidableEq T]

theorem up (h : Balanced s) (priority : T → ℤ) (hlt : s.value + 1 < 2 ^ 32) : Balanced (s.up priority) := by
  rw [Sema.up, Sema.unblock]
  split <;> exact increment h hlt

theorem step {e : Event T} (h : Balanced s) (he : NoOverflow s e) (hs : step s e = some s') : Balanced s' := by
  cases e with
  | down t =>
    rw [Semaphore.step] at hs
    split_ifs at hs
    exact some.inj hs ▸ h.test t
  | resume t =>
    rw [Semaphore.step] at hs
    split_ifs at hs
    have herase : Balanced { s with woken := s.woken.erase t } := h
    exact some.inj hs ▸ herase.test t
  | tryDown => exact some.inj hs ▸ h.tryDown
  | up priority => exact some.inj hs ▸ h.up priority he

end Balanced

def NoLostWakeup (s : Sema T) : Prop := s.waiters ≠ [] → s.value ≤ s.woken.length

namespace NoLostWakeup
variable {s s' : Sema T}

theorem test (h : s.waiters ≠ [] → s.value ≤ s.woken.length + 1) (t : T) : NoLostWakeup (s.test t) := by
  rw [Sema.test]
  split_ifs with hzero
  · intro _
    simp [hzero]
  · intro hne
    have := h hne
    dsimp only
    omega

theorem tryDown (h : NoLostWakeup s) : NoLostWakeup s.tryDown := by
  rw [Sema.tryDown]
  split_ifs
  · exact fun hne => Nat.le_trans (Nat.sub_le ..) (h hne)
  · exact h

variable [DecidableEq T]

theorem up (h : NoLostWakeup s) (priority : T → ℤ) : NoLostWakeup (s.up priority) := by
  rw [Sema.up, Sema.unblock]
  split
  next t ht =>
    intro hne
    have hmod := Nat.mod_le (s.value + 1) (2 ^ 32)
    have hwait : s.waiters ≠ [] := fun hnil => hne (by simp [Sema.increment, hnil])
    have := h hwait
    simp only [Sema.increment, List.length_cons]
    omega
  next hnone =>
    intro hne
    exact absurd (listMax_eq_none.mp hnone) hne

theorem step {e : Event T} (h : NoLostWakeup s) (hs : step s e = some s') : NoLostWakeup s' := by
  cases e with
  | down t =>
    rw [Semaphore.step] at hs
    split_ifs at hs
    exact some.inj hs ▸ test (fun hne => Nat.le_succ_of_le (h hne)) t
  | resume t =>
    rw [Semaphore.step] at hs
    split_ifs at hs with ht
    have hlength : s.woken.length ≤ (s.woken.erase t).length + 1 := by
      rw [List.length_erase_of_mem ht]
      omega
    have herase := test (s := { s with woken := s.woken.erase t }) (fun hne => Nat.le_trans (h hne) hlength) t
    exact some.inj hs ▸ herase
  | tryDown => exact some.inj hs ▸ h.tryDown
  | up priority => exact some.inj hs ▸ h.up priority

end NoLostWakeup

section Main
variable [DecidableEq T] {s : Sema T}

theorem noLostWakeup_of_reach (h : (system T).Reach s) : NoLostWakeup s := by
  refine System.ReachVia.invariant (I := NoLostWakeup) ?_ (fun _ _ _ hi _ hs => hi.step hs) h
  rintro s ⟨value, -, rfl⟩
  exact fun hne => absurd rfl hne

theorem balanced_and_noLostWakeup (h : (system T).ReachVia NoOverflow s) : Balanced s ∧ NoLostWakeup s := by
  refine ⟨System.ReachVia.invariant (I := Balanced) ?_ (fun _ _ _ hi he hs => hi.step he hs) h, ?_⟩
  · rintro s ⟨value, -, rfl⟩
    rfl
  · exact noLostWakeup_of_reach (h.mono fun _ _ _ => trivial)

end Main

theorem balanced_and_noLostWakeup_overtaken :
    ∃ s, (system ℕ).ReachVia NoOverflow s ∧ s.waiters = [0] ∧ s.ups = 1 ∧ s.downs = 1 ∧ Balanced s ∧
      NoLostWakeup s := by
  have hinit : (system ℕ).ReachVia NoOverflow (.semaInit 0) := .init ⟨0, by decide, rfl⟩
  have hdown : (system ℕ).ReachVia NoOverflow ⟨0, 0, [0], [], 0, 0⟩ := .step hinit (l := .down 0) trivial rfl
  have hup : (system ℕ).ReachVia NoOverflow ⟨0, 1, [], [0], 1, 0⟩ :=
    .step hdown (l := .up fun _ => 31) (by decide : 0 + 1 < 2 ^ 32) rfl
  have hover : (system ℕ).ReachVia NoOverflow ⟨0, 0, [], [0], 1, 1⟩ := .step hup (l := .down 1) trivial rfl
  have hreach : (system ℕ).ReachVia NoOverflow ⟨0, 0, [0], [], 1, 1⟩ := .step hover (l := .resume 0) trivial rfl
  exact ⟨_, hreach, rfl, rfl, rfl, balanced_and_noLostWakeup hreach⟩

theorem up_overflows : ∃ s, (system ℕ).Reach s ∧ s.initial = 2 ^ 32 - 1 ∧ s.ups = 1 ∧ s.downs = 0 ∧ s.value = 0 :=
  ⟨_, .step (.init ⟨2 ^ 32 - 1, by decide, rfl⟩) (l := .up fun _ => 31) trivial rfl, rfl, rfl, rfl, rfl⟩

end Cs162.Threads.Semaphore
