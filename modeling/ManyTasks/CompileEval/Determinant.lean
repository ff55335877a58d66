import Mathlib.Algebra.Order.Group.Nat
import Mathlib.Data.Int.ConditionallyCompleteOrder
import Mathlib.Data.ZMod.Basic
import Mathlib.LinearAlgebra.Matrix.Determinant.Basic

/-!
# The determinant at compile time

`Determinant` expands along the first column.  The matrix without a row and without the first column
is put together from two packs of rows, the ones above and the ones below.  Every minor is converted
to `int`, and the sum is one of `int64_t`.

The arithmetic of `int64_t` is modulo `2 ^ 64`, and the conversion to `int` is modulo `2 ^ 32`, so
modulo `2 ^ 32` nothing is lost on the way up (`determinant_modEq`).
-/

set_option autoImplicit false

namespace ManyTasks
namespace CompileEval

/-! ## The model -/

/-- `std::array<std::array<int, N>, N>` -/
abbrev IntMatrix (N : ℕ) : Type := Vector (Vector Int32 N) N

/-- All elements but the first. -/
def slice {T : Type} {n : ℕ} (a : Vector T (n + 1)) : Vector T n :=
  .ofFn fun I ↦ a[I.val + 1]

/-- The matrix without row `K` and without the first column.  The indices of the two packs are those
of the rows above `K`, and of the rows below it counted from `K + 1`. -/
def submatrix {n : ℕ} (K : Fin (n + 1)) (a : IntMatrix (n + 1)) : IntMatrix n :=
  ((Vector.ofFn fun I1 : Fin K.val ↦ slice a[I1.val]) ++
    (Vector.ofFn fun I2 : Fin (n + 1 - K.val - 1) ↦ slice a[I2.val + K.val + 1])).cast (by omega)

/-- `Apply`: the minors, as `int64_t`. -/
def apply {n : ℕ} (minor : IntMatrix n → Int32) (a : IntMatrix (n + 1)) : Vector Int64 (n + 1) :=
  .ofFn fun I ↦ (minor (submatrix I a)).toInt64

/-- One pass of the loop over `i`; the state is `res` and `m`. -/
def expansionStep {N : ℕ} (column minors : Vector Int64 N) (state : Int64 × Int64) (i : Fin N) :
    Int64 × Int64 :=
  (state.1 + state.2 * column.get i * minors.get i, state.2 * -1)

/-- The loop. -/
def expansion {N : ℕ} (column minors : Vector Int64 N) : Int64 :=
  (Fin.foldl N (expansionStep column minors) (0, 1)).1

/-- `Determinant<N>` for `N = n + 1`.  There is a specialization for a matrix with one element. -/
def determinant : {n : ℕ} → IntMatrix (n + 1) → Int32
  | 0, a => a[0][0]
  | _ + 1, a => (expansion (a.map fun row ↦ row[0].toInt64) (apply determinant a)).toInt32

/-- The matrix of integers. -/
def IntMatrix.toMatrix {N : ℕ} (a : IntMatrix N) : Matrix (Fin N) (Fin N) ℤ :=
  .of fun i j ↦ ((a.get i).get j).toInt

/-! ## Rows and columns -/

section

variable {n : ℕ}

theorem toMatrix_apply (a : IntMatrix n) (i j : Fin n) :
    a.toMatrix i j = ((a.get i).get j).toInt := rfl

theorem get_ofFn {T : Type} (f : Fin n → T) (i : Fin n) : (Vector.ofFn f).get i = f i :=
  Vector.getElem_ofFn i.isLt

theorem get_submatrix (K : Fin (n + 1)) (a : IntMatrix (n + 1)) (i : Fin n) :
    (submatrix K a).get i = slice (a.get (K.succAbove i)) := by
  change (submatrix K a)[i] = slice a[K.succAbove i]
  simp only [submatrix, Fin.getElem_fin, Vector.getElem_cast, Vector.getElem_append,
    Vector.getElem_ofFn]
  by_cases hi : i.val < K.val
  · have hrow : (K.succAbove i).val = i.val := by
      rw [Fin.succAbove_of_castSucc_lt K i hi, Fin.val_castSucc]
    simp only [hi, hrow, dite_true]
  · have hrow : (K.succAbove i).val = i.val + 1 := by
      rw [Fin.succAbove_of_le_castSucc K i (not_lt.mp hi), Fin.val_succ]
    have hbelow : i.val - K.val + K.val + 1 = i.val + 1 := by omega
    simp only [hi, hrow, hbelow, dite_false]

/-- The two packs are the rows that are left. -/
theorem toMatrix_submatrix (K : Fin (n + 1)) (a : IntMatrix (n + 1)) :
    (submatrix K a).toMatrix = a.toMatrix.submatrix K.succAbove Fin.succ := by
  ext i j
  rw [Matrix.submatrix_apply, toMatrix_apply, toMatrix_apply, get_submatrix, slice, get_ofFn]
  rfl

end

/-! ## Modulo a power of two -/

theorem bmod_cast (x : ℤ) : ((x.bmod (2 ^ 64) : ℤ) : ZMod (2 ^ 32)) = x := by
  rw [ZMod.intCast_eq_intCast_iff]
  have h : x.bmod (2 ^ 64) ≡ x [ZMOD (2 ^ 64 : ℕ)] := Int.bmod_emod
  exact h.of_dvd (by decide)

theorem cast_add (x y : Int64) :
    (((x + y).toInt : ℤ) : ZMod (2 ^ 32)) = x.toInt + y.toInt := by
  rw [Int64.toInt_add, bmod_cast, Int.cast_add]

theorem cast_mul (x y : Int64) :
    (((x * y).toInt : ℤ) : ZMod (2 ^ 32)) = x.toInt * y.toInt := by
  rw [Int64.toInt_mul, bmod_cast, Int.cast_mul]

theorem cast_toInt32 (x : Int64) : ((x.toInt32.toInt : ℤ) : ZMod (2 ^ 32)) = x.toInt := by
  rw [Int64.toInt_toInt32, ZMod.intCast_eq_intCast_iff]
  exact Int.bmod_emod

/-- The loop adds up the products with alternating signs. -/
theorem cast_foldl {N : ℕ} (column minors : Fin N → Int64) (state : Int64 × Int64) :
    (((Fin.foldl N (fun state i ↦ (state.1 + state.2 * column i * minors i, state.2 * -1))
      state).1.toInt : ℤ) :
        ZMod (2 ^ 32)) =
      state.1.toInt + state.2.toInt *
        ∑ i : Fin N, (-1) ^ (i : ℕ) * ((column i).toInt : ZMod (2 ^ 32)) * (minors i).toInt := by
  induction N generalizing state with
  | zero => simp
  | succ N ih =>
    have hsign : ((((-1 : Int64).toInt : ℤ)) : ZMod (2 ^ 32)) = -1 := by
      rw [show (-1 : Int64).toInt = -1 by decide, Int.cast_neg, Int.cast_one]
    rw [Fin.foldl_succ, ih (fun i ↦ column i.succ) fun i ↦ minors i.succ, Fin.sum_univ_succ]
    simp only [cast_add, cast_mul, hsign, Fin.val_zero, Fin.val_succ, pow_zero, one_mul, pow_succ]
    rw [mul_add, add_assoc, mul_assoc, Finset.mul_sum, Finset.mul_sum]
    congr 2
    refine Finset.sum_congr rfl fun i _ ↦ ?_
    ring

theorem cast_expansion {N : ℕ} (column minors : Vector Int64 N) :
    (((expansion column minors).toInt : ℤ) : ZMod (2 ^ 32)) =
      ∑ i : Fin N, (-1) ^ (i : ℕ) * (((column.get i).toInt : ℤ) : ZMod (2 ^ 32)) *
        (minors.get i).toInt := by
  have h := cast_foldl column.get minors.get (0, 1)
  rwa [show (0 : Int64).toInt = 0 by decide, show (1 : Int64).toInt = 1 by decide, Int.cast_zero,
    zero_add, Int.cast_one, one_mul] at h

/-! ## The determinant -/

/-- Modulo `2 ^ 32` the function computes the determinant. -/
theorem cast_determinant {n : ℕ} (a : IntMatrix (n + 1)) :
    (((determinant a).toInt : ℤ) : ZMod (2 ^ 32)) = (a.toMatrix.det : ℤ) := by
  induction n with
  | zero =>
    rw [Matrix.det_fin_one]
    rfl
  | succ n ih =>
    rw [determinant, cast_toInt32, cast_expansion, Matrix.det_succ_column_zero, Int.cast_sum]
    refine Finset.sum_congr rfl fun i _ ↦ ?_
    have hminor : (((((apply determinant a).get i).toInt : ℤ)) : ZMod (2 ^ 32)) =
        ((a.toMatrix.submatrix i.succAbove Fin.succ).det : ℤ) := by
      rw [← toMatrix_submatrix, ← ih, apply, get_ofFn, Int32.toInt_toInt64]
    have hentry : ((a.map fun row : Vector Int32 (n + 2) ↦ row[0].toInt64).get i).toInt =
        a.toMatrix i 0 := by
      rw [toMatrix_apply, ← Int32.toInt_toInt64]
      exact congrArg Int64.toInt (Vector.getElem_map _ i.isLt)
    rw [hminor, hentry, Int.cast_mul, Int.cast_mul, Int.cast_pow, Int.cast_neg, Int.cast_one]

/-- **`Determinant` returns the `int` that is congruent to the determinant.**  It is the determinant
if that is an `int`. -/
theorem determinant_modEq {n : ℕ} (a : IntMatrix (n + 1)) :
    (determinant a).toInt ≡ a.toMatrix.det [ZMOD 2 ^ 32] ∧
      (a.toMatrix.det ∈ Set.Ico (-2 ^ 31) (2 ^ 31) ↔ (determinant a).toInt = a.toMatrix.det) := by
  have hmod : (determinant a).toInt ≡ a.toMatrix.det [ZMOD 2 ^ 32] := by
    have h := cast_determinant a
    rwa [ZMod.intCast_eq_intCast_iff] at h
  refine ⟨hmod, fun hmem ↦ ?_, fun h ↦ ?_⟩
  · obtain ⟨hlow, hhigh⟩ := hmem
    have hle := (determinant a).le_toInt
    have hlt := (determinant a).toInt_lt
    rw [Int.ModEq] at hmod
    omega
  · rw [← h]
    exact ⟨(determinant a).le_toInt, (determinant a).toInt_lt⟩

example : determinant #v[#v[1, 2], #v[3, 4]] = -2 := by decide +kernel

end CompileEval
end ManyTasks
