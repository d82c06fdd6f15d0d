import Mathlib.Algebra.Group.Int.Defs

namespace Cs162.Lib

inductive CType where
  | int32
  | uint32
  | int64
  deriving DecidableEq

namespace CType

def lo : CType → ℤ
  | int32 => -2 ^ 31
  | uint32 => 0
  | int64 => -2 ^ 63

def hi : CType → ℤ
  | int32 => 2 ^ 31 - 1
  | uint32 => 2 ^ 32 - 1
  | int64 => 2 ^ 63 - 1

def hold (τ : CType) (x : ℤ) : Option ℤ := if τ.lo ≤ x ∧ x ≤ τ.hi then some x else none

def add (τ : CType) (x y : ℤ) : Option ℤ := τ.hold (x + y)

def sub (τ : CType) (x y : ℤ) : Option ℤ := τ.hold (x - y)

def mul (τ : CType) (x y : ℤ) : Option ℤ := τ.hold (x * y)

def div (τ : CType) (x y : ℤ) : Option ℤ := if y = 0 then none else τ.hold (x.tdiv y)

variable {τ : CType} {x y : ℤ}

theorem hold_eq (h : τ.lo ≤ x ∧ x ≤ τ.hi) : τ.hold x = some x := if_pos h

theorem add_eq (h : τ.lo ≤ x + y ∧ x + y ≤ τ.hi) : τ.add x y = some (x + y) := hold_eq h

theorem sub_eq (h : τ.lo ≤ x - y ∧ x - y ≤ τ.hi) : τ.sub x y = some (x - y) := hold_eq h

theorem mul_eq (h : τ.lo ≤ x * y ∧ x * y ≤ τ.hi) : τ.mul x y = some (x * y) := hold_eq h

theorem div_eq (hy : y ≠ 0) (h : τ.lo ≤ x.tdiv y ∧ x.tdiv y ≤ τ.hi) : τ.div x y = some (x.tdiv y) := by
  rw [div, if_neg hy, hold_eq h]

variable {β : Type} (f : ℤ → Option β)

theorem add_bind (h : τ.lo ≤ x + y ∧ x + y ≤ τ.hi) : (τ.add x y >>= f) = f (x + y) := by
  rw [add_eq h]
  rfl

theorem sub_bind (h : τ.lo ≤ x - y ∧ x - y ≤ τ.hi) : (τ.sub x y >>= f) = f (x - y) := by
  rw [sub_eq h]
  rfl

theorem mul_bind (h : τ.lo ≤ x * y ∧ x * y ≤ τ.hi) : (τ.mul x y >>= f) = f (x * y) := by
  rw [mul_eq h]
  rfl

theorem div_bind (hy : y ≠ 0) (h : τ.lo ≤ x.tdiv y ∧ x.tdiv y ≤ τ.hi) : (τ.div x y >>= f) = f (x.tdiv y) := by
  rw [div_eq hy h]
  rfl

end CType
end Cs162.Lib
