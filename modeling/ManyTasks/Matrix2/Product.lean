import ManyTasks.Lib.Paren
import ManyTasks.Matrix2.Matrix
import Mathlib.Algebra.BigOperators.Group.Finset.Sigma
import Mathlib.Data.List.Chain
import Mathlib.Algebra.BigOperators.Fin
import Mathlib.Data.Matrix.Mul

/-!
# The product does not depend on where it is cut

`dot` is the product of matrices (`dot_eq`), and this product is associative.  So the value of every
parenthesization is the product from left to right, and all that has to be known about `op_nums` is
that each of its cuts is in the interval.

What `computeOptMultNum` leaves in the table is what would be computed without one (`plan`), for the
interval and every interval in it (`computeOptMultNum_spec`).  An entry that is not 0 has been left
by an earlier call, so that this is true of its interval already (`Memory`).  An entry that is 0 is
computed again, if need be many times, and is the same each time.
-/

set_option autoImplicit false

namespace ManyTasks
namespace Matrix2

open Lib (Paren)

variable {T : Type}

/-! ## The product -/

namespace DenseMatrix

section Entries

variable [Zero T]

theorem entry_eq_getElem (m : DenseMatrix T) {i j : ℕ} (hi : i < m.matrix_.length)
    (hj : j < m.matrix_[i].length) : m.entry i j = m.matrix_[i][j] := by
  rw [entry, List.getD_eq_getElem _ _ hi, List.getD_eq_getElem _ _ hj]

theorem entry_of_rows_le (m : DenseMatrix T) {i : ℕ} (j : ℕ) (hi : m.rows_num_ ≤ i) :
    m.entry i j = 0 := by
  rw [entry, List.getD_eq_default _ _ (m.length_matrix_.trans_le hi)]
  rfl

theorem entry_of_cols_le (m : DenseMatrix T) (i : ℕ) {j : ℕ} (hj : m.cols_num_ ≤ j) :
    m.entry i j = 0 := by
  by_cases hi : i < m.matrix_.length
  · have hrow : m.matrix_[i].length = m.cols_num_ := m.length_row _ (List.getElem_mem hi)
    rw [entry, List.getD_eq_getElem _ _ hi, List.getD_eq_default _ _ (hrow.trans_le hj)]
  · exact m.entry_of_rows_le j (m.length_matrix_.symm.trans_le (not_lt.mp hi))

theorem ext_entry {m m' : DenseMatrix T} (hrows : m.rows_num_ = m'.rows_num_)
    (hcols : m.cols_num_ = m'.cols_num_) (h : ∀ i j, m.entry i j = m'.entry i j) : m = m' := by
  have hlength : m.matrix_.length = m'.matrix_.length := by
    rw [m.length_matrix_, m'.length_matrix_, hrows]
  refine DenseMatrix.ext (List.ext_getElem hlength fun i hi hi' ↦ ?_) hrows hcols
  have hrow : m.matrix_[i].length = m'.matrix_[i].length := by
    rw [m.length_row _ (List.getElem_mem hi), m'.length_row _ (List.getElem_mem hi'), hcols]
  refine List.ext_getElem hrow fun j hj hj' ↦ ?_
  rw [← m.entry_eq_getElem hi hj, ← m'.entry_eq_getElem hi' hj', h]

theorem entry_ofEntries (r c : ℕ) (f : ℕ → ℕ → T) (i j : ℕ) :
    (ofEntries r c f).entry i j = if i < r ∧ j < c then f i j else 0 := by
  by_cases hi : i < r
  · by_cases hj : j < c
    · simp [entry, ofEntries, hi, hj]
    · rw [entry_of_cols_le _ i (not_lt.mp hj), if_neg fun h ↦ hj h.2]
  · rw [entry_of_rows_le _ j (not_lt.mp hi), if_neg fun h ↦ hi h.1]

end Entries

variable [Semiring T]

/-- The product of matrices. -/
instance : Mul (DenseMatrix T) where
  mul a b := ofEntries a.rows_num_ b.cols_num_ fun i j ↦
    ∑ z ∈ Finset.range a.cols_num_, a.entry i z * b.entry z j

theorem mul_def (a b : DenseMatrix T) : a * b = ofEntries a.rows_num_ b.cols_num_ fun i j ↦
    ∑ z ∈ Finset.range a.cols_num_, a.entry i z * b.entry z j := rfl

@[simp] theorem rows_mul (a b : DenseMatrix T) : (a * b).rows_num_ = a.rows_num_ := rfl

@[simp] theorem cols_mul (a b : DenseMatrix T) : (a * b).cols_num_ = b.cols_num_ := rfl

/-- Outside of the matrix the sum is 0 anyway. -/
theorem entry_mul (a b : DenseMatrix T) (i j : ℕ) :
    (a * b).entry i j = ∑ z ∈ Finset.range a.cols_num_, a.entry i z * b.entry z j := by
  rw [mul_def, entry_ofEntries]
  split
  · rfl
  · rename_i h
    rw [Finset.sum_eq_zero fun z _ ↦ ?_]
    by_cases hi : i < a.rows_num_
    · rw [b.entry_of_cols_le z (not_lt.mp fun hj ↦ h ⟨hi, hj⟩), mul_zero]
    · rw [a.entry_of_rows_le z (not_lt.mp hi), zero_mul]

instance : Semigroup (DenseMatrix T) where
  mul_assoc a b c := by
    refine ext_entry rfl rfl fun i j ↦ ?_
    calc ((a * b) * c).entry i j
        = ∑ z ∈ Finset.range b.cols_num_, ∑ y ∈ Finset.range a.cols_num_,
            a.entry i y * (b.entry y z * c.entry z j) := by
          rw [entry_mul, cols_mul]
          exact Finset.sum_congr rfl fun z _ ↦ by simp only [entry_mul, Finset.sum_mul, mul_assoc]
      _ = ∑ y ∈ Finset.range a.cols_num_, ∑ z ∈ Finset.range b.cols_num_,
            a.entry i y * (b.entry y z * c.entry z j) := Finset.sum_comm
      _ = (a * (b * c)).entry i j := by
          rw [entry_mul]
          exact Finset.sum_congr rfl fun y _ ↦ by rw [entry_mul, Finset.mul_sum]

theorem rows_eval (f : ℕ → DenseMatrix T) {b e : ℕ} (p : Paren b e) :
    (p.eval f).rows_num_ = (f b).rows_num_ := by
  induction p with
  | one i => rfl
  | mul l r hl hr => exact hl

theorem cols_eval (f : ℕ → DenseMatrix T) {b e : ℕ} (p : Paren b e) :
    (p.eval f).cols_num_ = (f e).cols_num_ := by
  induction p with
  | one i => rfl
  | mul l r hl hr => exact hr

end DenseMatrix

section Dot

variable [Semiring T]

theorem dotEntry_eq (lhs rhs : DenseMatrix T) (i j : ℕ) :
    dotEntry lhs rhs i j =
      (∑ z ∈ Finset.range lhs.cols_num_, lhs.entry i z * rhs.entry z j, lhs.cols_num_) := by
  rw [dotEntry]
  induction lhs.cols_num_ with
  | zero => rfl
  | succ n ih => rw [List.range_succ, List.foldl_append, ih, Finset.sum_range_succ]; rfl

/-- **`Dot` multiplies**, and takes so many scalar multiplications. -/
theorem dot_eq {lhs rhs : DenseMatrix T} (h : lhs.cols_num_ ≤ rhs.rows_num_) :
    dot lhs rhs = some (lhs * rhs, lhs.rows_num_ * lhs.cols_num_ * rhs.cols_num_) := by
  rw [dot, if_pos h]
  simp only [dotEntry_eq, List.map_const', List.sum_replicate, List.length_range, nsmul_eq_mul,
    Nat.cast_id]
  rw [DenseMatrix.mul_def, mul_comm rhs.cols_num_, mul_assoc]

end Dot

/-! ## The table -/

section Table

variable {matrices : List (DenseMatrix T)} {op_nums op_nums' : OpNums} {b e i : ℕ}

/-- The first of the cheapest cuts is chosen. -/
theorem exists_foldl_consider_some (f : ℕ → ℕ) (is : List ℕ) (opt : OptMult) :
    ∃ r, is.foldl (fun opt_ops i ↦ consider opt_ops i (f i)) (some opt) = some r ∧
      (r = opt ∨ ∃ i ∈ is, r = ⟨i, f i⟩) ∧ r.opt_op_num ≤ opt.opt_op_num
        ∧ ∀ i ∈ is, r.opt_op_num ≤ f i := by
  induction is generalizing opt with
  | nil => exact ⟨opt, rfl, .inl rfl, Nat.le_refl _, nofun⟩
  | cons i is ih =>
    rw [List.foldl_cons, consider]
    by_cases hlt : f i < opt.opt_op_num
    · obtain ⟨r, hr, hfrom, hle, hall⟩ := ih ⟨i, f i⟩
      refine ⟨r, by simpa [hlt] using hr, .inr ?_, hle.trans hlt.le,
        List.forall_mem_cons.mpr ⟨hle, hall⟩⟩
      rcases hfrom with rfl | ⟨j, hj, rfl⟩
      · exact ⟨i, List.mem_cons_self, rfl⟩
      · exact ⟨j, List.mem_cons_of_mem i hj, rfl⟩
    · obtain ⟨r, hr, hfrom, hle, hall⟩ := ih opt
      refine ⟨r, by simpa [hlt] using hr, hfrom.imp_right fun ⟨j, hj, hj'⟩ ↦ ?_, hle,
        List.forall_mem_cons.mpr ⟨hle.trans (not_lt.mp hlt), hall⟩⟩
      exact ⟨j, List.mem_cons_of_mem i hj, hj'⟩

theorem exists_foldl_consider (f : ℕ → ℕ) {is : List ℕ} (his : is ≠ []) :
    ∃ i ∈ is, is.foldl (fun opt_ops i ↦ consider opt_ops i (f i)) none = some ⟨i, f i⟩ ∧
      ∀ j ∈ is, f i ≤ f j := by
  cases is with
  | nil => exact absurd rfl his
  | cons i is =>
    obtain ⟨r, hr, hfrom, hle, hall⟩ := exists_foldl_consider_some f is ⟨i, f i⟩
    rw [List.foldl_cons, consider, hr]
    rcases hfrom with rfl | ⟨j, hj, rfl⟩
    · exact ⟨i, List.mem_cons_self, rfl, List.forall_mem_cons.mpr ⟨Nat.le_refl _, hall⟩⟩
    · exact ⟨j, List.mem_cons_of_mem i hj, rfl, List.forall_mem_cons.mpr ⟨hle, hall⟩⟩

/-- What `ComputeOptMultNum` computes, without a table. -/
def plan (matrices : List (DenseMatrix T)) (b e : ℕ) : OptMult :=
  ((List.range' b (e - b)).attach.foldl (fun opt_ops i ↦ consider opt_ops i.1
    (overallOps matrices b i.1 e (plan matrices b i.1).opt_op_num
      (plan matrices (i.1 + 1) e).opt_op_num))
    none).getD ⟨0, 0⟩
termination_by e - b
decreasing_by
  all_goals
    have hi := List.mem_range'_1.mp i.2
    omega

/-- The scalar multiplications, if the interval is cut after `i`. -/
def planOps (matrices : List (DenseMatrix T)) (b e i : ℕ) : ℕ :=
  overallOps matrices b i e (plan matrices b i).opt_op_num (plan matrices (i + 1) e).opt_op_num

theorem plan_eq (matrices : List (DenseMatrix T)) (b e : ℕ) :
    plan matrices b e = ((List.range' b (e - b)).foldl
      (fun opt_ops i ↦ consider opt_ops i (planOps matrices b e i)) none).getD ⟨0, 0⟩ := by
  rw [plan]
  exact congrArg (Option.getD · _)
    (List.foldl_attach (f := fun opt_ops i ↦ consider opt_ops i (planOps matrices b e i)))

@[simp] theorem plan_self (matrices : List (DenseMatrix T)) (i : ℕ) :
    plan matrices i i = ⟨0, 0⟩ := by
  rw [plan_eq, Nat.sub_self]
  rfl

theorem range'_ne_nil (h : b < e) : List.range' b (e - b) ≠ [] := by
  rw [Ne, List.range'_eq_nil_iff]
  omega

theorem exists_plan_eq (matrices : List (DenseMatrix T)) (h : b < e) :
    ∃ i, b ≤ i ∧ i < e ∧ plan matrices b e = ⟨i, planOps matrices b e i⟩ ∧
      ∀ j, b ≤ j → j < e → planOps matrices b e i ≤ planOps matrices b e j := by
  obtain ⟨i, hi, heq, hall⟩ := exists_foldl_consider (planOps matrices b e) (range'_ne_nil h)
  have hmem (j : ℕ) : j ∈ List.range' b (e - b) ↔ b ≤ j ∧ j < e := by
    rw [List.mem_range'_1]
    omega
  refine ⟨i, ((hmem i).mp hi).1, ((hmem i).mp hi).2, ?_, fun j hb he ↦
    hall j ((hmem j).mpr ⟨hb, he⟩)⟩
  rw [plan_eq, heq]
  rfl

/-- The table is right for all intervals in this one. -/
def Known (matrices : List (DenseMatrix T)) (op_nums : OpNums) (b e : ℕ) : Prop :=
  ∀ b' e', b ≤ b' → b' < e' → e' ≤ e → op_nums b' e' = plan matrices b' e'

/-- What is not 0 has been computed, with everything in it. -/
structure Memory (matrices : List (DenseMatrix T)) (op_nums : OpNums) : Prop where
  single : ∀ i, op_nums i i = plan matrices i i
  known : ∀ b e, (op_nums b e).opt_op_num ≠ 0 → Known matrices op_nums b e

/-- What is right stays right. -/
def Keeps (matrices : List (DenseMatrix T)) (op_nums op_nums' : OpNums) : Prop :=
  ∀ b e, op_nums b e = plan matrices b e → op_nums' b e = plan matrices b e

/-- The table has been completed for the interval. -/
structure Completed (matrices : List (DenseMatrix T)) (b e : ℕ) (op_nums op_nums' : OpNums) :
    Prop where
  memory : Memory matrices op_nums'
  keeps : Keeps matrices op_nums op_nums'
  known : Known matrices op_nums' b e

theorem memory_empty (matrices : List (DenseMatrix T)) : Memory matrices .empty :=
  ⟨fun i ↦ (plan_self matrices i).symm, fun _ _ h ↦ absurd rfl h⟩

theorem Known.keeps (h : Known matrices op_nums b e) (hkeeps : Keeps matrices op_nums op_nums') :
    Known matrices op_nums' b e :=
  fun b' e' hb hlt he ↦ hkeeps b' e' (h b' e' hb hlt he)

theorem Keeps.trans {op_nums'' : OpNums} (h : Keeps matrices op_nums op_nums')
    (h' : Keeps matrices op_nums' op_nums'') : Keeps matrices op_nums op_nums'' :=
  fun b e hbe ↦ h' b e (h b e hbe)

/-- The entry of an interval, also of one matrix. -/
theorem Completed.eq (h : Completed matrices b e op_nums op_nums') (hle : b ≤ e) :
    op_nums' b e = plan matrices b e := by
  rcases hle.eq_or_lt with rfl | hlt
  · exact h.memory.single b
  · exact h.known b e (Nat.le_refl b) hlt (Nat.le_refl e)

/-- A part of the interval is completed before its number is used. -/
theorem completed_part {c : Prop} [Decidable c] (hc : b < e → c) (hmemory : Memory matrices op_nums)
    (hcompute : c → (op_nums b e).opt_op_num = 0 →
      Completed matrices b e op_nums (computeOptMultNum matrices b e op_nums)) :
    Completed matrices b e op_nums
      (if c ∧ (op_nums b e).opt_op_num = 0 then computeOptMultNum matrices b e op_nums
        else op_nums) := by
  split
  · rename_i h
    exact hcompute h.1 h.2
  · rename_i h
    refine ⟨hmemory, fun _ _ h ↦ h, fun b' e' hb hlt he ↦ ?_⟩
    have hbe : b < e := hb.trans_lt (hlt.trans_le he)
    exact hmemory.known b e (fun hzero ↦ h ⟨hc hbe, hzero⟩) b' e' hb hlt he

/-- Completing one interval and then another. -/
theorem Completed.trans {b' e' : ℕ} {op_nums'' : OpNums}
    (h : Completed matrices b e op_nums op_nums')
    (h' : Completed matrices b' e' op_nums' op_nums'') :
    Memory matrices op_nums'' ∧ Keeps matrices op_nums op_nums'' ∧ Known matrices op_nums'' b e ∧
      Known matrices op_nums'' b' e' :=
  ⟨h'.memory, h.keeps.trans h'.keeps, h.known.keeps h'.keeps, h'.known⟩

/-- Both parts of every cut before `i` are known. -/
def PartsKnown (matrices : List (DenseMatrix T)) (op_nums : OpNums) (b e i : ℕ) : Prop :=
  ∀ j, b ≤ j → j < i → Known matrices op_nums b j ∧ Known matrices op_nums (j + 1) e

/-- Shorter intervals are completed. -/
def CompletesBelow (matrices : List (DenseMatrix T)) (n : ℕ) : Prop :=
  ∀ b e, e - b < n → b < e → ∀ op_nums, Memory matrices op_nums →
    Completed matrices b e op_nums (computeOptMultNum matrices b e op_nums)

/-- The loop goes through the places for the cut, and completes both parts of each. -/
theorem computeLoop_spec (ih : CompletesBelow matrices (e - b)) (opt_ops : Option OptMult)
    (hb : b ≤ i)
    (hmemory : Memory matrices op_nums) (hparts : PartsKnown matrices op_nums b e i) :
    ∃ op_nums', computeLoop matrices b e i opt_ops op_nums =
        ((List.range' i (e - i)).foldl (fun opt_ops j ↦ consider opt_ops j (planOps matrices b e j))
          opt_ops,
          op_nums') ∧
      Memory matrices op_nums' ∧ Keeps matrices op_nums op_nums'
        ∧ PartsKnown matrices op_nums' b e e := by
  induction hn : e - i generalizing i opt_ops op_nums with
  | zero =>
    have hei : e ≤ i := Nat.le_of_sub_eq_zero hn
    refine ⟨op_nums, ?_, hmemory, fun _ _ h ↦ h, fun j hj hje ↦ hparts j hj (hje.trans_le hei)⟩
    rw [computeLoop, dif_neg (by omega)]
    rfl
  | succ n ihn =>
    have hie : i < e := by omega
    have hleft : Completed matrices b i op_nums (if i ≠ b ∧ (op_nums b i).opt_op_num = 0 then
        computeOptMultNum matrices b i op_nums else op_nums) :=
      completed_part Nat.ne_of_gt hmemory fun hne _ ↦ ih b i (by omega) (by omega) op_nums hmemory
    rw [computeLoop, dif_pos ⟨hb, hie⟩, List.range'_succ, List.foldl_cons]
    generalize (if i ≠ b ∧ (op_nums b i).opt_op_num = 0 then computeOptMultNum matrices b i op_nums
      else op_nums) = op_nums₁ at hleft ⊢
    have hright : Completed matrices (i + 1) e op_nums₁
        (if i + 1 ≠ e ∧ (op_nums₁ (i + 1) e).opt_op_num = 0 then
          computeOptMultNum matrices (i + 1) e op_nums₁ else op_nums₁) :=
      completed_part Nat.ne_of_lt hleft.memory fun hne _ ↦
        ih (i + 1) e (by omega) (by omega) op_nums₁ hleft.memory
    dsimp only
    generalize (if i + 1 ≠ e ∧ (op_nums₁ (i + 1) e).opt_op_num = 0 then
      computeOptMultNum matrices (i + 1) e op_nums₁ else op_nums₁) = op_nums₂ at hright ⊢
    obtain ⟨hmemory₂, hkeeps₂, hknown, hknown'⟩ := hleft.trans hright
    have hparts₂ : PartsKnown matrices op_nums₂ b e (i + 1) := fun j hj hji ↦ by
      rcases Nat.lt_succ_iff_lt_or_eq.mp hji with hlt | rfl
      · exact ⟨(hparts j hj hlt).1.keeps hkeeps₂, (hparts j hj hlt).2.keeps hkeeps₂⟩
      · exact ⟨hknown, hknown'⟩
    rw [hleft.eq hb, hright.eq hie]
    obtain ⟨op_nums', heq, hmemory', hkeeps', hparts'⟩ :=
      ihn (consider opt_ops i (planOps matrices b e i)) (by omega) hmemory₂ hparts₂ (by omega)
    exact ⟨op_nums', heq, hmemory', hkeeps₂.trans hkeeps', hparts'⟩

theorem OpNums.set_self (op_nums : OpNums) (b e : ℕ) (opt : OptMult) :
    op_nums.set b e opt b e = opt := by
  simp [OpNums.set]

theorem OpNums.set_of_ne (op_nums : OpNums) {b e b' e' : ℕ} (opt : OptMult)
    (h : ¬(b' = b ∧ e' = e)) :
    op_nums.set b e opt b' e' = op_nums b' e' := by
  rw [OpNums.set]
  by_cases hb : b' = b
  · subst hb
    rw [Function.update_self, Function.update_of_ne fun he ↦ h ⟨rfl, he⟩]
  · rw [Function.update_of_ne hb]

/-- The number of the interval itself is entered. -/
theorem completed_set (hlt : b < e) (hmemory : Memory matrices op_nums)
    (hparts : PartsKnown matrices op_nums b e e) :
    Completed matrices b e op_nums (op_nums.set b e (plan matrices b e)) := by
  have hkeeps : Keeps matrices op_nums (op_nums.set b e (plan matrices b e)) := fun b' e' h ↦ by
    by_cases hbe : b' = b ∧ e' = e
    · rw [hbe.1, hbe.2, OpNums.set_self]
    · rw [OpNums.set_of_ne op_nums _ hbe, h]
  have hknown : Known matrices (op_nums.set b e (plan matrices b e)) b e :=
    fun b' e' hb hlt' he ↦ by
    by_cases hbe : b' = b ∧ e' = e
    · rw [hbe.1, hbe.2, OpNums.set_self]
    · -- a smaller interval lacks the first matrix or the last
      refine hkeeps b' e' ?_
      by_cases hb' : b' = b
      · exact (hparts (e - 1) (by omega) (by omega)).1 b' e' hb hlt' (by omega)
      · exact (hparts b (Nat.le_refl b) hlt).2 b' e' (by omega) hlt' he
  refine ⟨⟨fun i ↦ hkeeps i i (hmemory.single i), fun b' e' hne ↦ ?_⟩, hkeeps, hknown⟩
  by_cases hbe : b' = b ∧ e' = e
  · rw [hbe.1, hbe.2]
    exact hknown
  · rw [OpNums.set_of_ne op_nums _ hbe] at hne
    exact (hmemory.known b' e' hne).keeps hkeeps

/-- **`ComputeOptMultNum` completes the table for its interval**, whatever it has been left from
earlier calls. -/
theorem computeOptMultNum_spec (hlt : b < e) (hmemory : Memory matrices op_nums) :
    Completed matrices b e op_nums (computeOptMultNum matrices b e op_nums) := by
  induction hn : e - b using Nat.strong_induction_on generalizing b e op_nums with
  | _ n ih =>
    subst hn
    obtain ⟨op_nums', heq, hmemory', hkeeps, hparts⟩ := computeLoop_spec (i := b) (e := e)
      (fun b' e' hlt' hbe op_nums hmemory ↦ ih (e' - b') hlt' hbe hmemory rfl) none
        (Nat.le_refl b) hmemory
      fun j hj hji ↦ absurd hji (not_lt.mpr hj)
    obtain ⟨i, -, hplan, -⟩ := exists_foldl_consider (planOps matrices b e) (range'_ne_nil hlt)
    rw [computeOptMultNum, heq, hplan]
    have hset := completed_set hlt hmemory' hparts
    rw [plan_eq, hplan] at hset
    exact ⟨hset.memory, hkeeps.trans hset.keeps, hset.known⟩

end Table

/-! ## The multiplication -/

/-- The parentheses are where the table says. -/
def Follows (op_nums : OpNums) : {b e : ℕ} → Paren b e → Prop
  | _, _, .one _ => True
  | b, e, .mul (i := i) l r =>
    (op_nums b e).left_part_end = i ∧ Follows op_nums l ∧ Follows op_nums r

/-- The scalar multiplications that multiply `b .. i` by `i + 1 .. e`. -/
def weight (matrices : List (DenseMatrix T)) (b i e : ℕ) : ℕ :=
  (matrices.getD b default).rows_num_ * (matrices.getD i default).cols_num_ *
    (matrices.getD e default).cols_num_

/-- Neighbours can be multiplied. -/
def Matching (matrices : List (DenseMatrix T)) : Prop :=
  ∀ i, i + 1 < matrices.length →
    (matrices.getD i default).cols_num_ = (matrices.getD (i + 1) default).rows_num_

section Multiplication

variable [Semiring T] {matrices : List (DenseMatrix T)} {op_nums : OpNums} {b e : ℕ}

/-- What `MultiplicateMatrices` returns for an interval that is not cut, or else for the
interval. -/
def Multiplied (matrices : List (DenseMatrix T)) (op_nums : OpNums) (b e : ℕ) : Prop :=
  ∃ p : Paren b e, Follows op_nums p ∧
    (if b ≠ e then multiplicateMatrices matrices op_nums b e else some (matrices.getD b default, 0))
    =
      some (p.eval (matrices.getD · default), p.cost (weight matrices))

/-- **`MultiplicateMatrices` multiplies as the table says**, and makes as many scalar
multiplications as this costs. -/
theorem multiplied (hmatch : Matching matrices) (hknown : Known matrices op_nums b e) (hle : b ≤ e)
    (he : e < matrices.length) : Multiplied matrices op_nums b e := by
  induction hn : e - b using Nat.strong_induction_on generalizing b e with
  | _ n ih =>
    subst hn
    rcases hle.eq_or_lt with rfl | hlt
    · exact ⟨.one b, trivial, if_neg (not_not.mpr rfl)⟩
    obtain ⟨i, hbi, hie, hplan, -⟩ := exists_plan_eq matrices hlt
    have hcut : (op_nums b e).left_part_end = i := by
      rw [hknown b e (Nat.le_refl b) hlt (Nat.le_refl e), hplan]
    obtain ⟨l, hl, hleft⟩ := ih (i - b) (by omega) (b := b) (e := i)
      (fun b' e' hb hlt he ↦ hknown b' e' hb hlt (he.trans hie.le)) hbi (hie.trans he) rfl
    obtain ⟨r, hr, hright⟩ := ih (e - (i + 1)) (by omega) (b := i + 1) (e := e)
      (fun b' e' hb hlt he ↦ hknown b' e' (by omega) hlt he) hie he rfl
    refine ⟨.mul l r, ⟨hcut, hl, hr⟩, ?_⟩
    have hright' : (if i + 1 ≠ e then multiplicateMatrices matrices op_nums (i + 1) e
        else some (matrices.getD e default, 0)) =
        some (r.eval (matrices.getD · default), r.cost (weight matrices)) := by
      rw [← hright]
      split
      · rfl
      · rename_i h
        rw [not_not.mp h]
    have hcols : (l.eval (matrices.getD · default)).cols_num_ ≤
        (r.eval (matrices.getD · default)).rows_num_ := by
      rw [DenseMatrix.cols_eval, DenseMatrix.rows_eval]
      exact (hmatch i (by omega)).le
    rw [if_pos hlt.ne, multiplicateMatrices, hcut, dif_pos ⟨hbi, hie⟩]
    simp only [ne_comm (a := i) (b := b), hleft, hright', Option.bind_some, dot_eq hcols,
      Option.map_some]
    rw [DenseMatrix.rows_eval, DenseMatrix.cols_eval, DenseMatrix.cols_eval, Paren.cost,
      Nat.add_comm (weight _ _ _ _)]
    rfl

end Multiplication

/-! ## The conversion -/

section Conversion

variable {matrices : List (DenseMatrix T)}

theorem dfs_foldl (tree : Glue T) (rest : List (DenseMatrix T)) :
    dfs (rest.foldl Glue.product tree) [] = dfs tree [] ++ rest := by
  induction rest generalizing tree with
  | nil => simp
  | cons m rest ih => rw [List.foldl_cons, ih, dfs, List.append_assoc]; rfl

theorem dfs_chain (first second : DenseMatrix T) (rest : List (DenseMatrix T)) :
    dfs (Glue.chain first second rest) [] = first :: second :: rest := dfs_foldl _ rest

theorem wrongSizes_eq_false_iff : wrongSizes matrices = false ↔ Matching matrices := by
  rw [wrongSizes, List.any_eq_false]
  constructor
  · intro h i hi
    simpa using h (i + 1) (List.mem_range'_1.mpr (by omega))
  · intro h i hi
    obtain ⟨hpos, hlt⟩ := List.mem_range'_1.mp hi
    obtain ⟨j, rfl⟩ := Nat.exists_eq_add_of_le' hpos
    simpa using h j (by omega)

theorem matching_iff_isChain :
    Matching matrices ↔ matrices.IsChain fun a b ↦ a.cols_num_ = b.rows_num_ := by
  rw [List.isChain_iff_getElem]
  refine forall_congr' fun i ↦ forall_congr' fun hi ↦ ?_
  rw [List.getD_eq_getElem _ _ (Nat.lt_of_succ_lt hi), List.getD_eq_getElem _ _ hi]

variable [Semiring T]

/-- The product of all matrices of the list from left to right. -/
theorem leftProduct_eq_foldl (first : DenseMatrix T) (rest : List (DenseMatrix T)) :
    Paren.leftProduct (fun i ↦ (first :: rest).getD i default) 0 rest.length = rest.foldl
      (· * ·) first := by
  have hmap : (List.range' (0 + 1) (rest.length - 0)).map (fun i ↦ (first :: rest).getD i default)
    = rest := by
    refine List.ext_getElem (by simp) fun i hi hi' ↦ ?_
    rw [List.getElem_map, List.getElem_range', Nat.one_mul, Nat.zero_add, Nat.add_comm]
    exact List.getD_eq_getElem _ _ (Nat.succ_lt_succ hi')
  rw [Paren.leftProduct]
  conv_rhs => rw [← hmap, List.foldl_map]
  rfl

theorem ofGlue_of_wrongSizes {tree : Glue T} {operands : List (DenseMatrix T)}
    (hdfs : dfs tree [] = operands) (hsizes : wrongSizes operands = true) :
    ofGlue tree = .error (.runtime_error "Wrong sizes") := by
  simp only [ofGlue, hdfs, hsizes, if_true]

theorem ofGlue_of_multiplied {tree : Glue T} {operands : List (DenseMatrix T)}
    {product : DenseMatrix T} {op : ℕ} (hdfs : dfs tree [] = operands)
    (hsizes : wrongSizes operands = false)
    (hproduct : multiplicateMatrices operands
      (computeOptMultNum operands 0 (operands.length - 1) .empty) 0 (operands.length - 1) =
        some (product, op)) :
    ofGlue tree = .ok product := by
  simp only [ofGlue, hdfs, hsizes, hproduct, Bool.false_eq_true, if_false]

/-- **The conversion multiplies**, whatever the order is, and it throws if two neighbours cannot be
multiplied. -/
theorem ofGlue_chain (first second : DenseMatrix T) (rest : List (DenseMatrix T)) :
    (ofGlue (.chain first second rest) = .error (.runtime_error "Wrong sizes") ↔
        ¬(first :: second :: rest).IsChain fun a b ↦ a.cols_num_ = b.rows_num_) ∧
      ((first :: second :: rest).IsChain (fun a b ↦ a.cols_num_ = b.rows_num_) →
        ∃ product, ofGlue (.chain first second rest) = .ok product ∧
          product.rows_num_ = first.rows_num_ ∧
          product.cols_num_ = ((second :: rest).getLast (List.cons_ne_nil second rest)).cols_num_ ∧
          product = rest.foldl (· * ·) (first * second)) := by
  set matrices := first :: second :: rest with hmatrices
  have hmain (hmatch : Matching matrices) :
      ofGlue (.chain first second rest) = .ok (rest.foldl (· * ·) (first * second)) ∧
        ∃ p : Paren 0 (second :: rest).length,
          p.eval (fun i ↦ matrices.getD i default) = rest.foldl (· * ·) (first * second) := by
    have hcompleted := computeOptMultNum_spec (b := 0) (e := (second :: rest).length)
      (Nat.succ_pos _)
      (memory_empty matrices)
    obtain ⟨p, -, hp⟩ := multiplied hmatch hcompleted.known (Nat.zero_le _) (Nat.lt_succ_self _)
    have heval := (p.eval_eq fun i ↦ matrices.getD i default).trans
      (leftProduct_eq_foldl first (second :: rest))
    have hne : 0 ≠ (second :: rest).length := (Nat.succ_ne_zero rest.length).symm
    rw [if_pos hne] at hp
    refine ⟨?_, p, heval⟩
    rw [ofGlue_of_multiplied (dfs_chain first second rest) (wrongSizes_eq_false_iff.mpr hmatch) hp]
    exact congrArg Except.ok heval
  rw [← matching_iff_isChain]
  refine ⟨⟨fun h hmatch ↦ ?_, fun h ↦ ?_⟩, fun hmatch ↦ ?_⟩
  · cases h.symm.trans (hmain hmatch).1
  · refine ofGlue_of_wrongSizes (dfs_chain first second rest) ?_
    exact Bool.of_not_eq_false fun hfalse ↦ h (wrongSizes_eq_false_iff.mp hfalse)
  · obtain ⟨hok, p, hp⟩ := hmain hmatch
    refine ⟨_, hok, ?_, ?_, rfl⟩
    · rw [← hp, DenseMatrix.rows_eval]
      rfl
    · rw [← hp, DenseMatrix.cols_eval, List.getLast_eq_getElem]
      rw [List.getD_eq_getElem _ _ (Nat.lt_succ_self _)]
      rfl

end Conversion

end Matrix2
end ManyTasks
