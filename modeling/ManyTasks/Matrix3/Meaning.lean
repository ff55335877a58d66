import ManyTasks.Matrix3.Direct

/-!
# The interpreter preserves the meaning of programs

`run` multiplies matrices where `runDirect` executes statements.  The two are tied together by the
row vector `stateVec vars env`, the values of the variables followed by a `1`:

* the coefficients `evaluate` returns, paired with that vector, give the value of the expression
  (`dot_evaluate`);
* multiplying the vector by the matrix of an assignment is the vector after the assignment
  (`vecMul_assignTransform`);
* multiplying it by the matrix of a program is the vector after the program
  (`calculateFrom_exec`), the power of a loop body's matrix being its iteration.

`run_eq_runDirect` puts them together: whenever `run` returns, it returns the map that the
statement-by-statement run returns.
-/

set_option autoImplicit false

open scoped UInt64.CommRing

namespace ManyTasks
namespace Matrix3

open Matrix

variable {vars : List Name}

/-! ## Values as a row vector -/

/-- The row vector of a state: the values of the variables, then `1`. -/
def stateVec (vars : List Name) (env : Env) : Fin (vars.length + 1) → UInt64 :=
  Fin.snoc (fun i ↦ env (vars.get i)) 1

@[simp] theorem stateVec_castSucc (env : Env) (i : Fin vars.length) :
    stateVec vars env i.castSucc = env (vars.get i) := by
  simp [stateVec]

@[simp] theorem stateVec_last (env : Env) : stateVec vars env (Fin.last _) = 1 := by
  simp [stateVec]

theorem words_zero : words (Vector.replicate _ 0 : Coeffs vars) = 0 := by
  funext i
  simp only [words, Fin.getElem_fin, Vector.getElem_replicate]
  rfl

theorem words_number (number : UInt64) :
    words (Vector.ofFn fun i ↦ if i = Fin.last _ then number.toInt64 else 0 : Coeffs vars) =
      Pi.single (Fin.last _) number := by
  funext i
  by_cases hi : i = Fin.last _
  · simp only [words, Fin.getElem_fin, Vector.getElem_ofFn, Fin.eta, if_pos hi]
    rw [hi, Pi.single_eq_same]
    rfl
  · simp only [words, Fin.getElem_fin, Vector.getElem_ofFn, Fin.eta, if_neg hi,
      Pi.single_eq_of_ne hi]
    rfl

theorem words_var (j : Fin vars.length) :
    words (Vector.ofFn fun i ↦ if i = j.castSucc then 1 else 0 : Coeffs vars) =
      Pi.single j.castSucc 1 := by
  funext i
  by_cases hi : i = j.castSucc
  · simp only [words, Fin.getElem_fin, Vector.getElem_ofFn, Fin.eta, if_pos hi]
    rw [hi, Pi.single_eq_same]
    rfl
  · simp only [words, Fin.getElem_fin, Vector.getElem_ofFn, Fin.eta, if_neg hi,
      Pi.single_eq_of_ne hi]
    rfl

theorem words_map_mul (coeffs : Coeffs vars) (x : Int64) :
    words (coeffs.map (· * x) : Coeffs vars) = x.toUInt64 • words coeffs := by
  funext i
  simp only [words, Fin.getElem_fin, Vector.getElem_map, Int64.toUInt64_mul, Pi.smul_apply,
    smul_eq_mul]
  exact mul_comm _ _

theorem words_add (coeffs other : Coeffs vars) :
    words (Vector.zipWith (· + ·) coeffs other : Coeffs vars) = words coeffs + words other := by
  funext i
  simp [words]

theorem words_sub (coeffs other : Coeffs vars) :
    words (Vector.zipWith (· - ·) coeffs other : Coeffs vars) = words coeffs - words other := by
  funext i
  simp [words]

/-- Coefficients that vanish on every variable are a constant. -/
theorem words_eq_single {coeffs : Coeffs vars} (h : ∀ i : Fin vars.length,
    words coeffs i.castSucc = 0) :
    words coeffs = Pi.single (Fin.last _) (words coeffs (Fin.last _)) := by
  funext i
  induction i using Fin.lastCases with
  | last => rw [Pi.single_eq_same]
  | cast i => rw [h, Pi.single_eq_of_ne (Fin.castSucc_lt_last i).ne]

theorem words_of_not_hasVar {coeffs : Coeffs vars} (h : hasVar coeffs = false) :
    words coeffs = Pi.single (Fin.last _) (words coeffs (Fin.last _)) := by
  refine words_eq_single fun i ↦ ?_
  have hi : coeffs[i.castSucc] = 0 := by simpa using List.any_eq_false.1 h i (by simp)
  rw [words, hi]
  rfl

/-! ## Expressions -/

/-- The product of a constant and an affine form, in the order `Mul::Evaluate` multiplies. -/
theorem dot_const_mul (env : Env) {coeffs : Coeffs vars} (other : Coeffs vars)
    (h : hasVar coeffs = false) :
    stateVec vars env ⬝ᵥ words (other.map (· * coeffs[Fin.last _]) : Coeffs vars) =
      (stateVec vars env ⬝ᵥ words coeffs) * (stateVec vars env ⬝ᵥ words other) := by
  rw [words_map_mul, dotProduct_smul, words_of_not_hasVar h, dotProduct_single, stateVec_last,
    one_mul, smul_eq_mul]
  rfl

/-- **Evaluating is sound**: the coefficients of a parse tree give its value. -/
theorem dot_evaluate {e : Expression} {coeffs : Coeffs vars} (h : evaluate vars e = .ok coeffs)
    (env : Env) : stateVec vars env ⬝ᵥ words coeffs = value env e := by
  induction e generalizing coeffs with
  | empty =>
    cases h
    rw [words_zero, dotProduct_zero, value]
  | number k =>
    cases h
    rw [words_number, dotProduct_single, stateVec_last, one_mul, value]
  | var name =>
    obtain ⟨j, hj, h⟩ := Lib.bind_eq_ok.1 h
    cases h
    rw [words_var, dotProduct_single, stateVec_castSucc, mul_one, varAt_get hj, value]
  | neg e ih =>
    obtain ⟨c, hc, h⟩ := Lib.bind_eq_ok.1 h
    cases h
    rw [words_map_mul, dotProduct_smul, ih hc, value, smul_eq_mul]
    exact neg_one_mul _
  | paren e ih => exact ih h
  | mul l r ihl ihr =>
    obtain ⟨c, hc, h⟩ := Lib.bind_eq_ok.1 h
    obtain ⟨o, ho, h⟩ := Lib.bind_eq_ok.1 h
    rw [value, ← ihl hc, ← ihr ho]
    by_cases hv : hasVar c = true
    · simp only [hv, if_true] at h
      by_cases hw : hasVar o = true
      · simp [hw] at h
      · simp only [hw, if_false, Bool.false_eq_true] at h
        cases h
        rw [dot_const_mul env c (by simpa using hw), mul_comm]
    · simp only [hv, if_false, Bool.false_eq_true] at h
      cases h
      exact dot_const_mul env o (by simpa using hv)
  | add l r ihl ihr =>
    obtain ⟨c, hc, h⟩ := Lib.bind_eq_ok.1 h
    obtain ⟨o, ho, h⟩ := Lib.bind_eq_ok.1 h
    cases h
    rw [words_add, dotProduct_add, ihl hc, ihr ho, value]
  | sub l r ihl ihr =>
    obtain ⟨c, hc, h⟩ := Lib.bind_eq_ok.1 h
    obtain ⟨o, ho, h⟩ := Lib.bind_eq_ok.1 h
    cases h
    rw [words_sub, dotProduct_sub, ihl hc, ihr ho, value]

/-! ## Assignments -/

/-- The identity matrix with column `j` replaced. -/
def HasColumn (transform : DenseMatrix (vars.length + 1) (vars.length + 1))
    (j : Fin vars.length) (col : Fin (vars.length + 1) → UInt64) : Prop :=
  ∀ i l, transform.entry i l = if l = j.castSucc then col i else if i = l then 1 else 0

section HasColumn

variable {transform : DenseMatrix (vars.length + 1) (vars.length + 1)} {j : Fin vars.length}
  {col : Fin (vars.length + 1) → UInt64}

theorem hasColumn_identity :
    HasColumn (DenseMatrix.identity (vars.length + 1)) j (Pi.single j.castSucc 1) := by
  intro i l
  rw [DenseMatrix.entry_identity, Pi.single_apply]
  split_ifs <;> simp_all

theorem HasColumn.entry_self (h : HasColumn transform j col) (i : Fin (vars.length + 1)) :
    transform.entry i j.castSucc = col i := by
  rw [h, if_pos rfl]

theorem HasColumn.setColumn (h : HasColumn transform j col)
    (f : Fin (vars.length + 1) → UInt64) :
    HasColumn (transform.setColumn j.castSucc f) j f := by
  intro i l
  rw [DenseMatrix.entry_setColumn, h]
  split_ifs <;> rfl

theorem HasColumn.setEntry (h : HasColumn transform j col) (a : Fin (vars.length + 1))
    (x : UInt64) :
    HasColumn (transform.setEntry a j.castSucc x) j (Function.update col a x) := by
  intro i l
  rw [DenseMatrix.entry_setEntry, h, Function.update_apply]
  split_ifs <;> simp_all

end HasColumn

/-- Assigning a value to variable `j` changes entry `j` of the state vector, and no other: the
names are pairwise different. -/
theorem stateVec_update (hnd : vars.Nodup) (env : Env) (j : Fin vars.length) (x : UInt64) :
    stateVec vars (Function.update env (vars.get j) x) =
      Function.update (stateVec vars env) j.castSucc x := by
  funext i
  induction i using Fin.lastCases with
  | last => rw [stateVec_last, Function.update_of_ne (Fin.castSucc_lt_last j).ne', stateVec_last]
  | cast i =>
    rw [stateVec_castSucc]
    by_cases hij : i = j
    · rw [hij, Function.update_self, Function.update_self]
    · have hname : vars.get i ≠ vars.get j := fun h ↦ hij (List.nodup_iff_injective_get.1 hnd h)
      have hindex : i.castSucc ≠ j.castSucc := fun h ↦ hij (Fin.castSucc_injective _ h)
      rw [Function.update_of_ne hname, Function.update_of_ne hindex, stateVec_castSucc]

theorem vecMul_of_hasColumn (hnd : vars.Nodup)
    {transform : DenseMatrix (vars.length + 1) (vars.length + 1)} {j : Fin vars.length}
    {col : Fin (vars.length + 1) → UInt64} (h : HasColumn transform j col) (env : Env) :
    stateVec vars env ᵥ* transform.toMatrix =
      stateVec vars (Function.update env (vars.get j) (stateVec vars env ⬝ᵥ col)) := by
  rw [stateVec_update hnd]
  funext l
  by_cases hl : l = j.castSucc
  · have hcol : (fun i ↦ transform.toMatrix i l) = col := by
      funext i
      rw [DenseMatrix.toMatrix_apply, h, if_pos hl]
    rw [vecMul, hcol, hl, Function.update_self]
  · have hcol : (fun i ↦ transform.toMatrix i l) = Pi.single l 1 := by
      funext i
      rw [DenseMatrix.toMatrix_apply, h, if_neg hl, Pi.single_apply]
    rw [vecMul, hcol, dotProduct_single, mul_one, Function.update_of_ne hl]

/-- Replacing one entry of a column changes the product by the change of that entry. -/
theorem dot_update (env : Env) (col : Fin (vars.length + 1) → UInt64)
    (a : Fin (vars.length + 1)) (x : UInt64) :
    stateVec vars env ⬝ᵥ Function.update col a x =
      stateVec vars env ⬝ᵥ col + stateVec vars env a * (x - col a) := by
  have hcol : Function.update col a x = col + Pi.single a (x - col a) := by
    funext i
    by_cases hi : i = a
    · subst hi
      rw [Function.update_self, Pi.add_apply, Pi.single_eq_same]
      ring
    · rw [Function.update_of_ne hi, Pi.add_apply, Pi.single_eq_of_ne hi, add_zero]
  rw [hcol, dotProduct_add, dotProduct_single]

/-- **The matrix of an assignment assigns.** -/
theorem vecMul_assignTransform (hnd : vars.Nodup) {j : Fin vars.length} {op : AssignOp}
    {expr_vec : Coeffs vars} {transform : DenseMatrix (vars.length + 1) (vars.length + 1)}
    (h : assignTransform j op expr_vec = .ok transform) (env : Env) :
    stateVec vars env ᵥ* transform.toMatrix =
      stateVec vars (Function.update env (vars.get j)
        (op.apply (env (vars.get j)) (stateVec vars env ⬝ᵥ words expr_vec))) := by
  have hset := (hasColumn_identity (j := j)).setColumn (words expr_vec)
  cases op with
  | set =>
    cases h
    exact vecMul_of_hasColumn hnd hset env
  | plus =>
    cases h
    rw [vecMul_of_hasColumn hnd (hset.setEntry _ _), dot_update, hset.entry_self,
      stateVec_castSucc, AssignOp.apply]
    congr 2
    ring
  | minus =>
    cases h
    have hneg := hset.setColumn (-words expr_vec)
    have hcol : (fun i ↦ -((DenseMatrix.identity (vars.length + 1)).setColumn j.castSucc
        (words expr_vec)).entry i j.castSucc) = -words expr_vec :=
      funext fun i ↦ by rw [hset.entry_self, Pi.neg_apply]
    rw [hcol, vecMul_of_hasColumn hnd (hneg.setEntry _ _), dot_update, hneg.entry_self,
      stateVec_castSucc, AssignOp.apply, dotProduct_neg]
    congr 2
    ring
  | times =>
    rw [assignTransform] at h
    split at h
    · cases h
    · rename_i hzero
      cases h
      have hconst : words expr_vec = Pi.single (Fin.last _) (words expr_vec (Fin.last _)) :=
        words_eq_single fun i ↦ by
          have hi := List.any_eq_false.1 (Bool.eq_false_iff.2 hzero) i (List.mem_finRange i)
          simpa [hset.entry_self] using hi
      have hdot : stateVec vars env ⬝ᵥ words expr_vec = words expr_vec (Fin.last _) := by
        rw [hconst, dotProduct_single, stateVec_last, one_mul, ← hconst]
      have hj : words expr_vec j.castSucc = 0 := by
        rw [hconst, Pi.single_eq_of_ne (Fin.castSucc_lt_last j).ne]
      rw [vecMul_of_hasColumn hnd ((hset.setEntry _ _).setEntry _ _), dot_update, dot_update,
        hset.entry_self, Function.update_of_ne (Fin.castSucc_lt_last j).ne', stateVec_castSucc,
        stateVec_last, AssignOp.apply, hdot, hj]
      congr 2
      ring

/-- An assignment line that the interpreter accepts is one that `parseAssign` accepts, and its
matrix has the effect of the assignment. -/
theorem assignment_exec (hnd : vars.Nodup) {var_name : Name} {line : Line}
    {transform : DenseMatrix (vars.length + 1) (vars.length + 1)}
    (h : assignment vars var_name line = .ok transform) :
    ∃ op expr, parseAssign vars var_name line = .ok (op, expr) ∧
      ∀ env, stateVec vars env ᵥ* transform.toMatrix =
        stateVec vars
          (Function.update env var_name (op.apply (env var_name) (value env expr))) := by
  obtain ⟨⟨j, op, expr, rest⟩, hread, h⟩ := Lib.bind_eq_ok.1 h
  obtain ⟨expr_vec, heval, h⟩ := Lib.bind_eq_ok.1 h
  obtain ⟨token, htoken, h⟩ := Lib.bind_eq_ok.1 h
  have hname : vars.get j = var_name := by
    obtain ⟨j', hj', hread'⟩ := Lib.bind_eq_ok.1 hread
    obtain ⟨line', -, hread'⟩ := Lib.bind_eq_ok.1 hread'
    obtain ⟨⟨op', line''⟩, -, hread'⟩ := Lib.bind_eq_ok.1 hread'
    obtain ⟨⟨expr', rest'⟩, -, hread'⟩ := Lib.bind_eq_ok.1 hread'
    cases hread'
    exact varAt_get hj'
  by_cases hnl : token = .kNewLine
  · subst hnl
    refine ⟨op, expr, ?_, fun env ↦ ?_⟩
    · simp [parseAssign, hread, htoken]
    · rw [vecMul_assignTransform hnd h env, dot_evaluate heval, hname]
  · simp [hnl] at h

/-! ## Programs -/

/-- Multiplying by a power repeats the step. -/
theorem vecMul_pow {transform : DenseMatrix (vars.length + 1) (vars.length + 1)} {f : Env → Env}
    (h : ∀ env, stateVec vars env ᵥ* transform.toMatrix = stateVec vars (f env)) (n : ℕ)
    (env : Env) : stateVec vars env ᵥ* transform.toMatrix ^ n = stateVec vars (f^[n] env) := by
  induction n generalizing env with
  | zero => rw [pow_zero, vecMul_one, Function.iterate_zero_apply]
  | succ n ih => rw [pow_succ', ← vecMul_vecMul, h, ih, Function.iterate_succ_apply]

/-- **The matrix of a program executes it.**  The product `res` collected before these lines
stands for whatever was executed before them, which led from the vector `v` to the state `env`. -/
theorem calculateFrom_exec (hnd : vars.Nodup) {depth : Nat}
    {res transform : DenseMatrix (vars.length + 1) (vars.length + 1)} {lines : List Line}
    (h : calculateFrom vars depth res lines = .ok transform) :
    ∃ program, parseFrom vars depth lines = .ok program ∧
      ∀ v env, v ᵥ* res.toMatrix = stateVec vars env →
        v ᵥ* transform.toMatrix = stateVec vars (exec program env) := by
  fun_induction calculateFrom vars depth res lines generalizing transform with
  | case1 depth res =>
    cases h
    exact ⟨.done, by rw [parseFrom], fun v env hv ↦ hv⟩
  | case2 | case3 | case5 | case6 | case7 | case8 | case11 => cases h
  | case4 depth res first rest name line hfirst t ht ih =>
    obtain ⟨op, expr, hparse, hexec⟩ := assignment_exec hnd ht
    obtain ⟨program, hprogram, hrest⟩ := ih h
    refine ⟨.assign name op expr program, ?_, fun v env hv ↦ ?_⟩
    · rw [parseFrom]
      simp [hfirst, hparse, hprogram]
    · refine hrest v _ ?_
      rw [DenseMatrix.toMatrix_mul', ← vecMul_vecMul, hv, hexec]
  | case9 depth res first lines line hfirst iter_count hiter sub rest hbody hne body hb ihb ih =>
    obtain ⟨inner, hinner, hloop⟩ := ihb hb
    obtain ⟨program, hprogram, hrest⟩ := ih h
    -- one pass through the body, from the identity the body's product starts with
    have hpass : ∀ env, stateVec vars env ᵥ* body.toMatrix = stateVec vars (exec inner env) :=
      fun env ↦ hloop _ env (by rw [DenseMatrix.toMatrix_identity, vecMul_one])
    refine ⟨.loop iter_count inner program, ?_, fun v env hv ↦ ?_⟩
    · rw [parseFrom]
      simp only [hfirst, hiter]
      split
      · rename_i e he
        rw [hbody] at he
        cases he
      · rename_i sub' rest' he
        rw [hbody] at he
        cases he
        simp [hne, hinner, hprogram]
    · refine hrest v _ ?_
      rw [DenseMatrix.toMatrix_mul', DenseMatrix.toMatrix_pow, ← vecMul_vecMul, hv,
        vecMul_pow hpass]
  | case10 depth res first lines line hfirst ih =>
    obtain ⟨program, hprogram, hrest⟩ := ih h
    refine ⟨program, ?_, hrest⟩
    rw [parseFrom]
    simp [hfirst, hprogram]

/-! ## Runs -/

theorem initVec_row (env : Env) (h : ∀ name, env name = 0) (j : Fin (vars.length + 1)) :
    (initVec vars.length).entry 0 j = stateVec vars env j := by
  induction j using Fin.lastCases with
  | last => simp [initVec]
  | cast j =>
    rw [stateVec_castSucc, h, initVec, DenseMatrix.entry_setEntry,
      if_neg fun hj ↦ (Fin.castSucc_lt_last j).ne hj.2, DenseMatrix.entry_ofEntries]

/-- **Meaning preservation.**  Whatever `Run` returns is what executing the program statement by
statement leaves in the variables. -/
theorem run_eq_runDirect (text : List UInt8) (result : Name → Option UInt64)
    (h : run text = .ok result) : runDirect text = .ok result := by
  obtain ⟨transform, htransform, h⟩ := Lib.bind_eq_ok.1 h
  obtain ⟨program, hprogram, hexec⟩ :=
    calculateFrom_exec (gatherVars_nodup (tokenize text)) htransform
  cases h
  simp only [runDirect, hprogram, Lib.ok_bind, Lib.pure_eq_ok]
  congr 1
  funext name
  have hstep := hexec (stateVec _ fun _ ↦ 0) (fun _ ↦ 0)
    (by rw [DenseMatrix.toMatrix_identity, vecMul_one])
  by_cases hname : name ∈ gatherVars (tokenize text)
  · obtain ⟨j, hj⟩ := varAt_of_mem hname
    have hvar := congrFun hstep j.castSucc
    rw [stateVec_castSucc, varAt_get hj] at hvar
    have hentry : ((initVec _).mul transform).entry 0 j.castSucc =
        exec program (fun _ ↦ 0) name := by
      rw [← hvar, ← DenseMatrix.toMatrix_apply, DenseMatrix.toMatrix_mul, Matrix.mul_apply]
      refine Finset.sum_congr rfl fun i _ ↦ ?_
      rw [DenseMatrix.toMatrix_apply, initVec_row (fun _ ↦ 0) fun _ ↦ rfl]
    rw [if_pos hname, varMap, hj]
    simp only [hentry]
  · rw [if_neg hname, varMap, varAt, dif_neg hname]

/-- The text of `for 3` with the body `a += 2`. -/
def loopText : List UInt8 :=
  [102, 111, 114, 32, 51, 10, 32, 32, 32, 32, 97, 32, 43, 61, 32, 50, 10]

/-- `Run` returns on that text, and both runs leave `6` in `a`. -/
theorem run_eq_runDirect_loopText : ∃ result, run loopText = .ok result ∧
    runDirect loopText = .ok result ∧ result [97] = some 6 := by
  have hvalue : (run loopText).toOption.bind (· [97]) = some 6 := by decide +kernel
  cases h : run loopText with
  | error e => simp [h, Except.toOption] at hvalue
  | ok result =>
    exact ⟨result, rfl, run_eq_runDirect _ _ h, by simpa [h, Except.toOption] using hvalue⟩

end Matrix3
end ManyTasks
