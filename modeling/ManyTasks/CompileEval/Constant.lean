import Mathlib.Algebra.Order.Group.Nat
import Mathlib.Algebra.Order.Ring.Int
import Mathlib.Tactic.NormNum
import ManyTasks.Lib.Except

/-!
# Constant expressions

What is computed at compile time must not leave the range of `int` and must not divide by zero: an
expression that does is not constant, and the program is not compiled.  Run at run time it has no
defined result.
-/

set_option autoImplicit false

namespace ManyTasks
namespace CompileEval

/-- Why there is no value. -/
inductive Fault where
  | overflow
  | divisionByZero
  /-- Two specializations match, and none of them is more special. -/
  | ambiguous
  /-- Templates are nested too deeply. -/
  | depth
deriving DecidableEq, Repr

/-- The range of `int`. -/
def InInt (x : ℤ) : Prop := -2 ^ 31 ≤ x ∧ x < 2 ^ 31

instance (x : ℤ) : Decidable (InInt x) := inferInstanceAs (Decidable (_ ∧ _))

/-- The result of an operation whose mathematical result is `x`. -/
def int (x : ℤ) : Except Fault ℤ :=
  if InInt x then .ok x else .error .overflow

/-- `x / y`, rounded toward zero. -/
def div (x y : ℤ) : Except Fault ℤ :=
  if y = 0 then .error .divisionByZero else int (x.tdiv y)

variable {x y : ℤ}

theorem int_eq (h : InInt x) : int x = .ok x := if_pos h

theorem int_eq_error (h : ¬InInt x) : int x = .error .overflow := if_neg h

theorem inInt_of_int_eq_ok (h : int x = .ok y) : InInt y := by
  rw [int] at h
  split at h
  · rename_i hint
    rwa [← Except.ok.inj h]
  · cases h

/-- Numbers that are not negative have no special case. -/
theorem div_eq (hx : 0 ≤ x) (hy : 0 < y) (h : x < 2 ^ 31) : div x y = .ok (x / y) := by
  have hnonneg : 0 ≤ x / y := Int.ediv_nonneg hx hy.le
  have hle : x / y ≤ x := Int.ediv_le_self y hx
  rw [div, if_neg hy.ne', Int.tdiv_eq_ediv_of_nonneg hx]
  exact int_eq ⟨by omega, by omega⟩

end CompileEval
end ManyTasks
