import Mathlib.Algebra.Order.Ring.Int
import Mathlib.Data.Int.Basic

/-!
# Signed integers of a machine

An operation on a signed type gives the number it should as long as this is a value of the type.
What comes of an operation that leaves the range (`InRange`) is up to the machine.  Most wrap
(`wrap`), but a language need not promise it; `checked` leaves it open.
-/

set_option autoImplicit false

namespace ManyTasks
namespace Lib

/-- It is a value of the signed type of `w` bits. -/
def InRange (w : ℕ) (x : ℤ) : Prop := -2 ^ (w - 1) ≤ x ∧ x < 2 ^ (w - 1)

instance (w : ℕ) (x : ℤ) : Decidable (InRange w x) :=
  inferInstanceAs (Decidable (_ ∧ _))

/-- What is left of it in `w` bits. -/
def wrap (w : ℕ) (x : ℤ) : ℤ := x.bmod (2 ^ w)

/-- What an operation comes to that should come to `x`. -/
def checked (w : ℕ) (overflow : ℤ → ℤ) (x : ℤ) : ℤ := if InRange w x then x else overflow x

variable {w : ℕ} {x : ℤ}

theorem wrap_of_inRange (hw : 0 < w) (h : InRange w x) : wrap w x = x := by
  obtain ⟨w, rfl⟩ := Nat.exists_eq_add_one_of_ne_zero hw.ne'
  obtain ⟨hlow, hhigh⟩ := h
  rw [Nat.add_sub_cancel] at hlow hhigh
  have hpow : ((2 ^ (w + 1) : ℕ) : ℤ) = 2 * 2 ^ w := by
    rw [Nat.pow_succ']
    simp
  refine Int.bmod_eq_of_le ?_ ?_ <;> rw [hpow] <;> omega

theorem checked_of_inRange {overflow : ℤ → ℤ} (h : InRange w x) : checked w overflow x = x :=
  if_pos h

theorem checked_of_not_inRange {overflow : ℤ → ℤ} (h : ¬InRange w x) :
    checked w overflow x = overflow x :=
  if_neg h

end Lib
end ManyTasks
