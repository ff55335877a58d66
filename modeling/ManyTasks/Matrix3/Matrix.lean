import ManyTasks.Lib.Power
import Mathlib.Data.Matrix.Mul
import Mathlib.Data.UInt
import Mathlib.Algebra.BigOperators.Fin

/-!
# Matrices of `uint64_t`

`DenseMatrix r c` is the class `Matrix` with its two sizes in the type: `r` rows of `c` words, all
arithmetic modulo `2 ^ 64`.  The source checks no size, so a product of matrices that do not match
would read outside a row; with the sizes in the type that product cannot be written.

`toMatrix` reads such a table as a Mathlib matrix over the ring `UInt64`.  Each operation the
interpreter uses has one lemma here saying what it becomes there, and `pow` is the last of them:
the square-and-multiply loop of `Matrix::Pow` is the power of the matrix, for every exponent.
-/

set_option autoImplicit false

open scoped UInt64.CommRing

namespace ManyTasks
namespace Matrix3

/-- `Matrix`: `matrix_` with `rows_num_ = r` and `cols_num_ = c`. -/
structure DenseMatrix (r c : Nat) where
  /-- The rows. -/
  matrix_ : Vector (Vector UInt64 c) r
deriving DecidableEq

namespace DenseMatrix

variable {r k c n : Nat}

/-- `operator()`: the entry in row `i`, column `j`. -/
def entry (m : DenseMatrix r c) (i : Fin r) (j : Fin c) : UInt64 := m.matrix_[i][j]

/-- The matrix with the given entries. -/
def ofEntries (f : Fin r → Fin c → UInt64) : DenseMatrix r c :=
  ⟨Vector.ofFn fun i ↦ Vector.ofFn fun j ↦ f i j⟩

@[simp] theorem entry_ofEntries (f : Fin r → Fin c → UInt64) (i : Fin r) (j : Fin c) :
    (ofEntries f).entry i j = f i j := by
  simp [entry, ofEntries]

/-- `operator*`: `sum` runs over the inner index in order. -/
def mul (lhs : DenseMatrix r k) (rhs : DenseMatrix k c) : DenseMatrix r c :=
  ofEntries fun i j ↦
    (List.finRange k).foldl (fun sum z ↦ sum + lhs.entry i z * rhs.entry z j) 0

instance : Mul (DenseMatrix n n) := ⟨mul⟩

/-- `Identity`. -/
def identity (n : Nat) : DenseMatrix n n := ofEntries fun i j ↦ if i = j then 1 else 0

/-- `Matrix::Pow`. -/
def pow (m : DenseMatrix n n) (pow : UInt64) : DenseMatrix n n :=
  Lib.powLoop (identity n) m pow.toNat

/-- Overwriting column `j`, the loop `transform(i, j) = f(i)`. -/
def setColumn (m : DenseMatrix r c) (j : Fin c) (f : Fin r → UInt64) : DenseMatrix r c :=
  ofEntries fun i l ↦ if l = j then f i else m.entry i l

/-- Overwriting one entry. -/
def setEntry (m : DenseMatrix r c) (i : Fin r) (j : Fin c) (x : UInt64) : DenseMatrix r c :=
  ofEntries fun a b ↦ if a = i ∧ b = j then x else m.entry a b

@[simp] theorem entry_setColumn (m : DenseMatrix r c) (j : Fin c) (f : Fin r → UInt64)
    (i : Fin r) (l : Fin c) :
    (m.setColumn j f).entry i l = if l = j then f i else m.entry i l := by
  simp [setColumn]

@[simp] theorem entry_setEntry (m : DenseMatrix r c) (i : Fin r) (j : Fin c) (x : UInt64)
    (a : Fin r) (b : Fin c) :
    (m.setEntry i j x).entry a b = if a = i ∧ b = j then x else m.entry a b := by
  simp [setEntry]

@[simp] theorem entry_identity (i j : Fin n) :
    (identity n).entry i j = if i = j then 1 else 0 := by
  simp [identity]

/-! ## Reading a table as a matrix -/

/-- The Mathlib matrix with the same entries. -/
def toMatrix (m : DenseMatrix r c) : Matrix (Fin r) (Fin c) UInt64 := Matrix.of m.entry

@[simp] theorem toMatrix_apply (m : DenseMatrix r c) (i : Fin r) (j : Fin c) :
    m.toMatrix i j = m.entry i j := rfl

/-- The accumulating loop over the inner index is a finite sum. -/
theorem foldl_add_eq_sum (f : Fin k → UInt64) :
    (List.finRange k).foldl (fun sum z ↦ sum + f z) 0 = ∑ z, f z := by
  rw [Fin.sum_univ_def, List.sum_eq_foldl, List.foldl_map]

theorem toMatrix_mul (lhs : DenseMatrix r k) (rhs : DenseMatrix k c) :
    (lhs.mul rhs).toMatrix = lhs.toMatrix * rhs.toMatrix := by
  ext i j
  rw [toMatrix_apply, mul, entry_ofEntries, foldl_add_eq_sum, Matrix.mul_apply]
  rfl

theorem toMatrix_mul' (lhs rhs : DenseMatrix n n) :
    (lhs * rhs).toMatrix = lhs.toMatrix * rhs.toMatrix :=
  toMatrix_mul lhs rhs

theorem toMatrix_identity (n : Nat) : (identity n).toMatrix = 1 := by
  ext i j
  rw [toMatrix_apply, entry_identity, Matrix.one_apply]

/-- Reading a table as a matrix respects products. -/
def toMatrixHom (n : Nat) : DenseMatrix n n →ₙ* Matrix (Fin n) (Fin n) UInt64 where
  toFun := toMatrix
  map_mul' := toMatrix_mul

/-- **`Matrix::Pow` computes the power.** -/
theorem toMatrix_pow (m : DenseMatrix n n) (pow : UInt64) :
    (m.pow pow).toMatrix = m.toMatrix ^ pow.toNat := by
  have h := Lib.map_powLoop (toMatrixHom n) (identity n) m pow.toNat
  rw [Lib.powLoop_eq] at h
  change (m.pow pow).toMatrix = (identity n).toMatrix * m.toMatrix ^ pow.toNat at h
  rw [h, toMatrix_identity, one_mul]

end DenseMatrix

end Matrix3
end ManyTasks
