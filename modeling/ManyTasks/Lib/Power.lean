import Mathlib.Algebra.Group.Basic
import Mathlib.Algebra.Group.Hom.Defs

/-!
# Square and multiply

`powLoop res m n` is the loop that multiplies `res` by `m` once for each set bit of `n`, squaring
`m` in between, low bit first.  It is written as a `do … while`, which runs its body once even for
`n = 0`.  Only a multiplication is needed to run it; in a monoid the answer is `res * m ^ n`
(`powLoop_eq`), and a multiplicative map commutes with the loop (`map_powLoop`), which is how a
type whose multiplication is not known to be associative borrows the answer from one where it is.
-/

set_option autoImplicit false

universe u v

namespace ManyTasks
namespace Lib

variable {M : Type u} {N : Type v}

/-- One turn of the loop: `res` takes the factor `m` when the low bit of `pow` is set. -/
def powStep [Mul M] (res m : M) (pow : ℕ) : M := if pow % 2 = 1 then res * m else res

/-- Multiply `res` by the `pow`-th power of `m`. -/
def powLoop [Mul M] (res m : M) (pow : ℕ) : M :=
  if pow / 2 = 0 then powStep res m pow else powLoop (powStep res m pow) (m * m) (pow / 2)
termination_by pow
decreasing_by omega

theorem powStep_mul [Monoid M] (res m : M) (pow : ℕ) :
    powStep res m pow * m ^ (2 * (pow / 2)) = res * m ^ pow := by
  rw [powStep]
  split
  · rename_i hodd
    rw [mul_assoc, ← pow_succ', show 2 * (pow / 2) + 1 = pow by omega]
  · rename_i hodd
    rw [show 2 * (pow / 2) = pow by omega]

theorem map_powStep [Mul M] [Mul N] (f : M →ₙ* N) (res m : M) (pow : ℕ) :
    f (powStep res m pow) = powStep (f res) (f m) pow := by
  rw [powStep, powStep, apply_ite f, map_mul]

theorem powLoop_eq [Monoid M] (res m : M) (pow : ℕ) : powLoop res m pow = res * m ^ pow := by
  fun_induction powLoop res m pow with
  | case1 res m pow h => rw [← powStep_mul, h, Nat.mul_zero, pow_zero, mul_one]
  | case2 res m pow h ih => rw [ih, ← pow_two, ← pow_mul, powStep_mul]

theorem map_powLoop [Mul M] [Mul N] (f : M →ₙ* N) (res m : M) (pow : ℕ) :
    f (powLoop res m pow) = powLoop (f res) (f m) pow := by
  fun_induction powLoop res m pow with
  | case1 res m pow h => rw [powLoop, if_pos h, map_powStep]
  | case2 res m pow h ih => rw [ih, powLoop.eq_def (f res), if_neg h, map_mul, map_powStep]

end Lib
end ManyTasks
