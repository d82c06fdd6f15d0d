import Mathlib.Tactic.Common

namespace Cs162.Lib

inductive SharedLock (τ : Type*) where
  | shared (readers : List τ)
  | exclusive (writer : τ)
  deriving DecidableEq

namespace SharedLock
variable {τ : Type*}

def free : SharedLock τ := .shared []

def acquireShared (t : τ) : SharedLock τ → Option (SharedLock τ)
  | .shared readers => some (.shared (t :: readers))
  | .exclusive _ => none

def acquireExclusive (t : τ) : SharedLock τ → Option (SharedLock τ)
  | .shared [] => some (.exclusive t)
  | _ => none

def releaseShared [DecidableEq τ] (t : τ) : SharedLock τ → SharedLock τ
  | .shared readers => .shared (readers.erase t)
  | .exclusive u => .exclusive u

variable {l l' : SharedLock τ} {t u : τ}

theorem acquireExclusive_eq_some : l.acquireExclusive t = some l' ↔ l = free ∧ l' = .exclusive t := by
  rcases l with (_ | ⟨r, readers⟩) | w <;> simp [acquireExclusive, free, eq_comm]

theorem exclusive_acquireShared (h : l.acquireShared t = some l') :
    l ≠ .exclusive u ∧ l' ≠ .exclusive u := by
  cases l with
  | shared readers =>
    cases h
    exact ⟨nofun, nofun⟩
  | exclusive w => cases h

@[simp]
theorem releaseShared_eq_exclusive [DecidableEq τ] :
    l.releaseShared t = .exclusive u ↔ l = .exclusive u := by
  cases l <;> simp [releaseShared]

end SharedLock

end Cs162.Lib
