import ManyTasks.Matrix3.Grammar

/-!
# Assignments that are accepted

Where an expression can be read, two things can still be wrong with an assignment: a product both
of whose factors have a coefficient that is not zero, and a coefficient that is not zero behind
`*=`.  `assignment_ok_iff` says so.  Both are about coefficients and not about variables; an
expression has no coefficients exactly if its value does not depend on the variables
(`hasVar_eq_false_iff`).
-/

set_option autoImplicit false

open scoped UInt64.CommRing

namespace ManyTasks
namespace Matrix3

open Matrix

/-- No product has variables in both of its factors. -/
def Expression.separated : Expression → Bool
  | .empty | .number _ | .var _ => true
  | .neg e | .paren e => e.separated
  | .add l r | .sub l r => l.separated && r.separated
  | .mul l r => l.separated && r.separated && (l.names.isEmpty || r.names.isEmpty)

section

variable {vars : List Name} {e : Expression} {coeffs : Coeffs vars}

/-! ## Coefficients -/

theorem hasVar_eq_false :
    hasVar coeffs = false ↔ ∀ i : Fin vars.length, words coeffs i.castSucc = 0 := by
  rw [hasVar, List.any_eq_false]
  constructor
  · intro h i
    have hi : coeffs[i.castSucc] = 0 := by simpa using h i (List.mem_finRange i)
    rw [words, hi]
    rfl
  · intro h i _
    have hi : coeffs[i.castSucc] = 0 := congrArg Int64.ofUInt64 (h i)
    simpa using hi

/-- A product is what one factor is, multiplied by the other one. -/
theorem evaluate_mul {l r : Expression} {other : Coeffs vars}
    (hl : evaluate vars l = .ok coeffs) (hr : evaluate vars r = .ok other) :
    evaluate vars (.mul l r)
      = if hasVar coeffs = true then
          if hasVar other = true then .error (.matrixException "Non constant product")
          else .ok (coeffs.map (· * other[Fin.last _]))
        else .ok (other.map (· * coeffs[Fin.last _])) := by
  rw [evaluate, hl, hr, Lib.ok_bind, Lib.ok_bind]
  by_cases hcoeffs : hasVar coeffs = true
  · by_cases hother : hasVar other = true
    · simp [hcoeffs, hother]
    · simp [hcoeffs, hother]
  · simp [hcoeffs]

theorem evaluate_throws (hknown : ∀ name ∈ e.names, name ∈ vars) : Throws (evaluate vars e) := by
  have hboth {l r : Expression} (hknown : ∀ name ∈ l.names ++ r.names, name ∈ vars) :=
    List.forall_mem_append.1 hknown
  induction e with
  | empty | number => exact throws_ok _
  | var name =>
    obtain ⟨j, hj⟩ := varAt_of_mem (hknown name (List.mem_singleton_self name))
    rw [evaluate, hj]
    exact throws_ok _
  | neg e ih => exact (ih hknown).bind fun coeffs _ ↦ throws_ok _
  | paren e ih => exact ih hknown
  | add l r ihl ihr | sub l r ihl ihr =>
    obtain ⟨hl, hr⟩ := hboth hknown
    exact (ihl hl).bind fun coeffs _ ↦ (ihr hr).bind fun other _ ↦ throws_ok _
  | mul l r ihl ihr =>
    obtain ⟨hl, hr⟩ := hboth hknown
    cases hcoeffs : evaluate vars l with
    | error e =>
      obtain ⟨msg, rfl⟩ := ihl hl e hcoeffs
      rw [evaluate, hcoeffs]
      exact throws_error msg
    | ok coeffs =>
      cases hother : evaluate vars r with
      | error e =>
        obtain ⟨msg, rfl⟩ := ihr hr e hother
        rw [evaluate, hcoeffs, hother]
        exact throws_error msg
      | ok other =>
        rw [evaluate_mul hcoeffs hother]
        split_ifs
        · exact throws_error _
        · exact throws_ok _
        · exact throws_ok _

theorem hasVar_map (h : hasVar coeffs = false) (x : Int64) :
    hasVar (coeffs.map (· * x) : Coeffs vars) = false := by
  rw [hasVar_eq_false] at h ⊢
  intro i
  rw [words_map_mul, Pi.smul_apply, h, smul_zero]

theorem hasVar_add {other : Coeffs vars} (h : hasVar coeffs = false)
    (hother : hasVar other = false) :
    hasVar (Vector.zipWith (· + ·) coeffs other : Coeffs vars) = false := by
  rw [hasVar_eq_false] at h hother ⊢
  intro i
  rw [words_add, Pi.add_apply, h, hother, add_zero]

theorem hasVar_sub {other : Coeffs vars} (h : hasVar coeffs = false)
    (hother : hasVar other = false) :
    hasVar (Vector.zipWith (· - ·) coeffs other : Coeffs vars) = false := by
  rw [hasVar_eq_false] at h hother ⊢
  intro i
  rw [words_sub, Pi.sub_apply, h, hother, sub_zero]

/-- Expressions without such a product have coefficients, those without variables only one. -/
theorem evaluate_of_separated (hknown : ∀ name ∈ e.names, name ∈ vars)
    (h : e.separated = true) :
    ∃ coeffs, evaluate vars e = .ok coeffs ∧ (e.names = [] → hasVar coeffs = false) := by
  have hboth {l r : Expression} (hknown : ∀ name ∈ l.names ++ r.names, name ∈ vars) :=
    List.forall_mem_append.1 hknown
  induction e with
  | empty =>
    refine ⟨_, rfl, fun _ ↦ hasVar_eq_false.2 fun i ↦ ?_⟩
    rw [words_zero, Pi.zero_apply]
  | number number =>
    refine ⟨_, rfl, fun _ ↦ hasVar_eq_false.2 fun i ↦ ?_⟩
    rw [words_number, Pi.single_eq_of_ne (Fin.castSucc_lt_last i).ne]
  | var name =>
    obtain ⟨j, hj⟩ := varAt_of_mem (hknown name (List.mem_singleton_self name))
    rw [evaluate, hj]
    exact ⟨_, rfl, nofun⟩
  | neg e ih =>
    obtain ⟨coeffs, hcoeffs, hconst⟩ := ih hknown h
    rw [evaluate, hcoeffs]
    exact ⟨_, rfl, fun hnames ↦ hasVar_map (hconst hnames) (-1)⟩
  | paren e ih => exact ih hknown h
  | add l r ihl ihr =>
    obtain ⟨hl, hr⟩ := hboth hknown
    obtain ⟨hsepl, hsepr⟩ := Bool.and_eq_true_iff.1 h
    obtain ⟨coeffs, hcoeffs, hconstl⟩ := ihl hl hsepl
    obtain ⟨other, hother, hconstr⟩ := ihr hr hsepr
    rw [evaluate, hcoeffs, hother]
    refine ⟨_, rfl, fun hnames ↦ ?_⟩
    obtain ⟨hl, hr⟩ := List.append_eq_nil_iff.1 hnames
    exact hasVar_add (hconstl hl) (hconstr hr)
  | sub l r ihl ihr =>
    obtain ⟨hl, hr⟩ := hboth hknown
    obtain ⟨hsepl, hsepr⟩ := Bool.and_eq_true_iff.1 h
    obtain ⟨coeffs, hcoeffs, hconstl⟩ := ihl hl hsepl
    obtain ⟨other, hother, hconstr⟩ := ihr hr hsepr
    rw [evaluate, hcoeffs, hother]
    refine ⟨_, rfl, fun hnames ↦ ?_⟩
    obtain ⟨hl, hr⟩ := List.append_eq_nil_iff.1 hnames
    exact hasVar_sub (hconstl hl) (hconstr hr)
  | mul l r ihl ihr =>
    obtain ⟨hl, hr⟩ := hboth hknown
    obtain ⟨hsep, hone⟩ := Bool.and_eq_true_iff.1 h
    obtain ⟨hsepl, hsepr⟩ := Bool.and_eq_true_iff.1 hsep
    obtain ⟨coeffs, hcoeffs, hconstl⟩ := ihl hl hsepl
    obtain ⟨other, hother, hconstr⟩ := ihr hr hsepr
    rw [evaluate_mul hcoeffs hother]
    by_cases hvar : hasVar coeffs = true
    · have hnames : l.names ≠ [] := fun hnil ↦ Bool.false_ne_true ((hconstl hnil).symm.trans hvar)
      have hright : hasVar other = false := by
        obtain hnil | hnil := Bool.or_eq_true_iff.1 hone
        · exact absurd (List.isEmpty_iff.1 hnil) hnames
        · exact hconstr (List.isEmpty_iff.1 hnil)
      rw [if_pos hvar, if_neg (Bool.eq_false_iff.1 hright)]
      exact ⟨_, rfl, fun hnil ↦ absurd (List.append_eq_nil_iff.1 hnil).1 hnames⟩
    · rw [if_neg hvar]
      exact ⟨_, rfl, fun hnil ↦ hasVar_map (hconstr (List.append_eq_nil_iff.1 hnil).2) _⟩

/-- **No coefficients, no dependence.** -/
theorem hasVar_eq_false_iff (hnd : vars.Nodup) (h : evaluate vars e = .ok coeffs) :
    hasVar coeffs = false ↔ ∀ env env', value env e = value env' e := by
  constructor
  · intro hvar env env'
    rw [← dot_evaluate h env, ← dot_evaluate h env', words_of_not_hasVar hvar, dotProduct_single,
      dotProduct_single, stateVec_last, stateVec_last]
  · intro hconst
    refine hasVar_eq_false.2 fun i ↦ ?_
    -- a variable is changed from `0` to `1`
    have hdiff := hconst (Function.update (fun _ ↦ 0) (vars.get i) 1) fun _ ↦ 0
    have hstate : stateVec vars (Function.update (fun _ ↦ 0) (vars.get i) 1)
        = stateVec vars (fun _ ↦ 0) + Pi.single i.castSucc 1 := by
      rw [stateVec_update hnd]
      funext j
      by_cases hj : j = i.castSucc
      · rw [hj, Function.update_self, Pi.add_apply, Pi.single_eq_same, stateVec_castSucc, zero_add]
      · rw [Function.update_of_ne hj, Pi.add_apply, Pi.single_eq_of_ne hj, add_zero]
    rw [← dot_evaluate h, ← dot_evaluate h, hstate, add_dotProduct, single_dotProduct, one_mul]
      at hdiff
    exact left_eq_add.1 hdiff.symm

/-! ## Assignments -/

/-- Only a factor has to be a number. -/
theorem assignTransform_cases (j : Fin vars.length) (op : AssignOp) (coeffs : Coeffs vars) :
    (∃ transform, assignTransform j op coeffs = .ok transform)
        ∧ (op = .times → hasVar coeffs = false)
      ∨ Throws (assignTransform j op coeffs) ∧
        (∀ transform, assignTransform j op coeffs ≠ .ok transform)
        ∧ op = .times ∧ hasVar coeffs = true := by
  cases op with
  | set | plus | minus => exact Or.inl ⟨⟨_, rfl⟩, (by simp)⟩
  | times =>
    have hcolumn := (hasColumn_identity (j := j)).setColumn (words coeffs)
    have hany : ((List.finRange vars.length).any fun i ↦
        ((DenseMatrix.identity (vars.length + 1)).setColumn j.castSucc (words coeffs)).entry
          i.castSucc j.castSucc != 0) = hasVar coeffs := by
      rw [Bool.eq_iff_iff, List.any_eq_true, ← not_iff_not, Bool.not_eq_true, hasVar_eq_false]
      simp [hcolumn.entry_self]
    rw [assignTransform]
    dsimp only
    rw [hany]
    cases hvar : hasVar coeffs with
    | false => exact Or.inl ⟨⟨_, rfl⟩, fun _ ↦ rfl⟩
    | true => exact Or.inr ⟨throws_error _, (by simp), rfl, rfl⟩

variable {var_name : Name} {lexemes : List Lexeme}

/-- What is assigned is on the line. -/
theorem mem_of_splitAssign {expr : List Lexeme} {op : AssignOp}
    (h : splitAssign lexemes = some (op, expr)) : ∀ lexeme ∈ expr, lexeme ∈ lexemes := by
  unfold splitAssign at h
  split at h
  · cases h
    exact fun lexeme hmem ↦ List.mem_cons_of_mem _ hmem
  · obtain ⟨op', -, h⟩ := Option.map_eq_some_iff.1 h
    cases h
    exact fun lexeme hmem ↦ List.mem_cons_of_mem _ (List.mem_cons_of_mem _ hmem)
  · cases h

theorem known_of_splitAssign {expr : List Lexeme} {op : AssignOp}
    (h : splitAssign lexemes = some (op, expr))
    (hknown : ∀ name ∈ names (lineOf lexemes), name ∈ vars) :
    ∀ name ∈ names (lineOf expr), name ∈ vars := by
  intro name hname
  obtain ⟨hfor, hmem⟩ := mem_names_lineOf.1 hname
  exact hknown name (mem_names_lineOf.2 ⟨hfor, mem_of_splitAssign h _ hmem⟩)

/-- What `CalculateTransformMatrix` does with an assignment, in the order in which it does it. -/
theorem assignment_eq (hvar : var_name ∈ vars) (lexemes : List Lexeme) : ∃ j : Fin vars.length,
    assignment vars var_name (.kVar var_name :: lineOf lexemes)
      = (readAssignOp (lineOf lexemes) >>= fun x ↦ sumCtor vars x.2 >>= fun y ↦
          evaluate vars y.1 >>= fun expr_vec ↦ do
            if (← y.2.get) ≠ .kNewLine then throw (.matrixException "Wrong expression")
            assignTransform j x.1 expr_vec) := by
  obtain ⟨j, hj⟩ := varAt_of_mem hvar
  refine ⟨j, ?_⟩
  rw [assignment, readAssign, hj, Lib.ok_bind, Line.next_cons, Lib.ok_bind]
  simp only [bind_assoc]
  rfl

/-- **An assignment throws nothing but `MatrixException`.** -/
theorem assignment_throws (hvar : var_name ∈ vars)
    (hknown : ∀ name ∈ names (lineOf lexemes), name ∈ vars) :
    Throws (assignment vars var_name (.kVar var_name :: lineOf lexemes)) := by
  obtain ⟨j, hj⟩ := assignment_eq hvar lexemes
  rw [hj]
  cases hsplit : splitAssign lexemes with
  | none =>
    obtain ⟨msg, hmsg⟩ := readAssignOp_error hsplit
    rw [hmsg]
    exact throws_error msg
  | some res =>
    obtain ⟨op, expr⟩ := res
    have hexpr := known_of_splitAssign hsplit hknown
    rw [readAssignOp_lineOf hsplit, Lib.ok_bind]
    have hthen {e : Expression} {token : Token} {rest : Line}
        (hsum : sumCtor vars (lineOf expr) = .ok (e, token :: rest))
        (hread : names (lineOf expr) = e.names ++ names (token :: rest)) :
        Throws (sumCtor vars (lineOf expr) >>= fun y ↦ evaluate vars y.1 >>= fun expr_vec ↦ do
          if (← y.2.get) ≠ .kNewLine then throw (.matrixException "Wrong expression")
          assignTransform j op expr_vec) := by
      rw [hsum, Lib.ok_bind]
      refine (evaluate_throws fun name hname ↦ hexpr name ?_).bind fun coeffs _ ↦ ?_
      · exact hread ▸ List.mem_append_left _ hname
      · rw [Line.get_cons, Lib.ok_bind]
        split
        · exact throws_error _
        · obtain ⟨⟨transform, htransform⟩, -⟩ | ⟨hthrows, -⟩ := assignTransform_cases j op coeffs
          · exact htransform ▸ throws_ok transform
          · exact hthrows
    obtain ⟨-, e, rest, hsum, hread⟩ | ⟨-, ⟨msg, hsum⟩ | ⟨e, token, rest, hsum, -, hread⟩⟩ :=
      sumCtor_cases (mem_lineOf expr) hexpr
    · exact hthen hsum hread
    · rw [hsum]
      exact throws_error msg
    · exact hthen hsum hread

/-- **The assignments that are accepted.** -/
theorem assignment_ok_iff (hvar : var_name ∈ vars) :
    (∃ transform, assignment vars var_name (.kVar var_name :: lineOf lexemes) = .ok transform)
      ↔ ∃ op expr e coeffs, splitAssign lexemes = some (op, expr) ∧ parseExpr vars expr = .ok e
        ∧ evaluate vars e = .ok coeffs ∧ (op = .times → hasVar coeffs = false) := by
  obtain ⟨j, hj⟩ := assignment_eq hvar lexemes
  rw [hj]
  constructor
  · rintro ⟨transform, h⟩
    obtain ⟨⟨op, line⟩, hop, h⟩ := Lib.bind_eq_ok.1 h
    obtain ⟨⟨e, rest⟩, hsum, h⟩ := Lib.bind_eq_ok.1 h
    obtain ⟨coeffs, hcoeffs, h⟩ := Lib.bind_eq_ok.1 h
    cases hsplit : splitAssign lexemes with
    | none =>
      obtain ⟨msg, hmsg⟩ := readAssignOp_error hsplit
      rw [hmsg] at hop
      cases hop
    | some res =>
      obtain ⟨op', expr⟩ := res
      rw [readAssignOp_lineOf hsplit] at hop
      cases hop
      cases rest with
      | nil => cases h
      | cons token rest =>
        rw [Line.get_cons, Lib.ok_bind] at h
        split at h
        · cases h
        · rename_i hnl
          refine ⟨op, expr, e, coeffs, rfl, ?_, hcoeffs, fun htimes ↦ ?_⟩
          · rw [parseExpr_eq hsum, if_pos (not_not.1 hnl)]
          · obtain ⟨-, hconst⟩ | ⟨-, hnot, -⟩ := assignTransform_cases j op coeffs
            · exact hconst htimes
            · exact absurd h (hnot transform)
  · rintro ⟨op, expr, e, coeffs, hsplit, hparse, hcoeffs, hconst⟩
    obtain ⟨rest, hsum⟩ := parseExpr_ok hparse
    rw [readAssignOp_lineOf hsplit, Lib.ok_bind, hsum, Lib.ok_bind, hcoeffs, Lib.ok_bind,
      Line.get_cons, Lib.ok_bind, if_neg (not_not.2 rfl)]
    obtain ⟨htransform, -⟩ | ⟨-, -, htimes, hvar⟩ := assignTransform_cases j op coeffs
    · exact htransform
    · rw [hconst htimes] at hvar
      cases hvar

end

end Matrix3
end ManyTasks
