import Mathlib.Algebra.BigOperators.Group.Finset.Basic
import Mathlib.Algebra.BigOperators.Ring.Finset
import Mathlib.Algebra.Ring.Defs
import Mathlib.Data.List.GetD

/-!
# Products of matrices that are not computed at once

`operator*` multiplies nothing.  It glues its operands together, and the product `A * B * C` is the
tree `Glue<Glue<A, B>, C>` until it is converted to a `Matrix`.  Then the operands are collected
(`dfs`), their sizes are checked, and for every interval of them it is determined where to cut it in
two, so that the scalar multiplications are as few as possible (`computeOptMultNum`).  This is a
recursion with a memory: the table `op_nums` has 0 for what has not been computed.

The numbers of multiplications are `size_t` and may wrap.  What is outside of a matrix or of the
table is undefined, and so is a recursion that does not end; where it is not seen at once that
neither happens, the model says so (`Error.undefined`).

Beside the product, `multiplicateMatrices` returns how many scalar multiplications it has made.
-/

set_option autoImplicit false

namespace ManyTasks
namespace Matrix2

variable {T : Type}

/-- `Matrix`: a table with rows of the same length. -/
@[ext]
structure DenseMatrix (T : Type) where
  matrix_ : List (List T)
  rows_num_ : ℕ
  cols_num_ : ℕ
  length_matrix_ : matrix_.length = rows_num_
  length_row : ∀ row ∈ matrix_, row.length = cols_num_
deriving DecidableEq

namespace DenseMatrix

/-- The matrix with the given entries. -/
def ofEntries (rows_num cols_num : ℕ) (f : ℕ → ℕ → T) : DenseMatrix T where
  matrix_ := (List.range rows_num).map fun i ↦ (List.range cols_num).map (f i)
  rows_num_ := rows_num
  cols_num_ := cols_num
  length_matrix_ := by simp
  length_row row hrow := by
    obtain ⟨i, -, rfl⟩ := List.mem_map.mp hrow
    simp

/-- `Matrix()`. -/
instance : Inhabited (DenseMatrix T) := ⟨⟨[], 0, 0, rfl, nofun⟩⟩

/-- `Matrix(rows_num, cols_num)`. -/
def zeros [Zero T] (rows_num cols_num : ℕ) : DenseMatrix T :=
  ofEntries rows_num cols_num fun _ _ ↦ 0

/-- `operator()`. -/
def entry [Zero T] (m : DenseMatrix T) (i j : ℕ) : T := (m.matrix_.getD i []).getD j 0

end DenseMatrix

/-- `Glue`: what `operator*` returns, for two matrices and for a product and a matrix. -/
inductive Glue (T : Type) where
  | pair (left right : DenseMatrix T)
  | product (left : Glue T) (right : DenseMatrix T)

/-- The product of two matrices and some more. -/
def Glue.chain (first second : DenseMatrix T) (rest : List (DenseMatrix T)) : Glue T :=
  rest.foldl Glue.product (.pair first second)

/-- `DFS`. -/
def dfs : Glue T → List (DenseMatrix T) → List (DenseMatrix T)
  | .pair left right, res => res ++ [left] ++ [right]
  | .product left right, res => dfs left res ++ [right]

structure OptMult where
  left_part_end : ℕ
  opt_op_num : ℕ
deriving DecidableEq, Repr

/-- `op_nums`. -/
abbrev OpNums := ℕ → ℕ → OptMult

def OpNums.empty : OpNums := fun _ _ ↦ ⟨0, 0⟩

def OpNums.set (op_nums : OpNums) (begin_ end_ : ℕ) (opt : OptMult) : OpNums :=
  Function.update op_nums begin_ (Function.update (op_nums begin_) end_ opt)

/-- A `size_t`. -/
def size_t (n : ℕ) : ℕ := n % 2 ^ 64

/-- `overall_ops`. -/
def overallOps (matrices : List (DenseMatrix T))
    (begin_ i end_ left_part_op_num right_part_op_num : ℕ) :
    ℕ :=
  let product :=
    size_t ((matrices.getD begin_ default).rows_num_ * (matrices.getD i default).cols_num_)
  let overall_ops := size_t (product * (matrices.getD end_ default).cols_num_)
  size_t (overall_ops + size_t (left_part_op_num + right_part_op_num))

/-- `opt_ops` after one more place for the cut. -/
def consider (opt_ops : Option OptMult) (i overall_ops : ℕ) : Option OptMult :=
  match opt_ops with
  | none => some ⟨i, overall_ops⟩
  | some opt => if overall_ops < opt.opt_op_num then some ⟨i, overall_ops⟩ else some opt

mutual

/-- `ComputeOptMultNum`. -/
def computeOptMultNum (matrices : List (DenseMatrix T)) (begin_ end_ : ℕ) (op_nums : OpNums) :
    OpNums :=
  match computeLoop matrices begin_ end_ begin_ none op_nums with
  | (some opt_ops, op_nums) => op_nums.set begin_ end_ opt_ops
  -- this would read an empty `optional`; it is not called for an interval of one matrix
  | (none, op_nums) => op_nums
termination_by (end_ - begin_, end_ - begin_ + 1)

/-- The loop of `ComputeOptMultNum`, from `i` on. -/
def computeLoop (matrices : List (DenseMatrix T)) (begin_ end_ i : ℕ) (opt_ops : Option OptMult)
    (op_nums : OpNums) : Option OptMult × OpNums :=
  if _h : begin_ ≤ i ∧ i < end_ then
    let op_nums :=
      if i ≠ begin_ ∧ (op_nums begin_ i).opt_op_num = 0 then computeOptMultNum matrices begin_ i
        op_nums
      else op_nums
    let left_part_op_num := (op_nums begin_ i).opt_op_num
    let op_nums :=
      if i + 1 ≠ end_ ∧ (op_nums (i + 1) end_).opt_op_num = 0 then
        computeOptMultNum matrices (i + 1) end_ op_nums
      else op_nums
    let right_part_op_num := (op_nums (i + 1) end_).opt_op_num
    let overall_ops := overallOps matrices begin_ i end_ left_part_op_num right_part_op_num
    computeLoop matrices begin_ end_ (i + 1) (consider opt_ops i overall_ops) op_nums
  else (opt_ops, op_nums)
termination_by (end_ - begin_, end_ - i)

end

section

variable [Semiring T]

/-- The inner loop of `Dot`: an entry, and the number of multiplications made for it. -/
def dotEntry (lhs rhs : DenseMatrix T) (i j : ℕ) : T × ℕ :=
  (List.range lhs.cols_num_).foldl
    (fun (sum, muls) z ↦ (sum + lhs.entry i z * rhs.entry z j, muls + 1)) (0, 0)

/-- `Dot`, unless it reads outside of `rhs`. -/
def dot (lhs rhs : DenseMatrix T) : Option (DenseMatrix T × ℕ) :=
  if lhs.cols_num_ ≤ rhs.rows_num_ then
    some (.ofEntries lhs.rows_num_ rhs.cols_num_ fun i j ↦ (dotEntry lhs rhs i j).1,
      ((List.range lhs.rows_num_).map fun i ↦
        ((List.range rhs.cols_num_).map fun j ↦ (dotEntry lhs rhs i j).2).sum).sum)
  else none

/-- `MultiplicateMatrices`.  If the cut is not in the interval it does not come back. -/
def multiplicateMatrices (matrices : List (DenseMatrix T)) (op_nums : OpNums) (begin_ end_ : ℕ) :
    Option (DenseMatrix T × ℕ) :=
  let left_part_end := (op_nums begin_ end_).left_part_end
  if _h : begin_ ≤ left_part_end ∧ left_part_end < end_ then
    let left :=
      if left_part_end ≠ begin_ then multiplicateMatrices matrices op_nums begin_ left_part_end
      else some (matrices.getD begin_ default, 0)
    let right :=
      if left_part_end + 1 ≠ end_ then multiplicateMatrices matrices op_nums (left_part_end + 1)
        end_
      else some (matrices.getD end_ default, 0)
    left.bind fun (left, left_muls) ↦ right.bind fun (right, right_muls) ↦
      (dot left right).map fun (product, muls) ↦ (product, left_muls + right_muls + muls)
  else none
termination_by end_ - begin_

inductive Error where
  | runtime_error (what : String)
  | undefined
deriving DecidableEq, Repr

/-- The loop that compares the sizes of neighbours. -/
def wrongSizes (operands : List (DenseMatrix T)) : Bool :=
  (List.range' 1 (operands.length - 1)).any fun i ↦
    (operands.getD (i - 1) default).cols_num_ != (operands.getD i default).rows_num_

/-- `Matrix(const Glue&)`. -/
def ofGlue (tree : Glue T) : Except Error (DenseMatrix T) :=
  let operands := dfs tree []
  if wrongSizes operands then .error (.runtime_error "Wrong sizes")
  else
    let op_nums := computeOptMultNum operands 0 (operands.length - 1) .empty
    match multiplicateMatrices operands op_nums 0 (operands.length - 1) with
    | some (product, _) => .ok product
    | none => .error .undefined

end

end Matrix2
end ManyTasks
