import ManyTasks.Matrix3.Expression
import ManyTasks.Matrix3.Matrix

/-!
# The interpreter

`CalculateTransformMatrix` never executes a statement.  It walks over the lines of a program and
multiplies up one matrix for the whole of it: each assignment is an affine map of the variables,
so it becomes the identity matrix with one column replaced, and a loop becomes the matrix of its
body raised to the iteration count.  `run` then applies the matrix of the program to the row
vector `(0, …, 0, 1)`.

The lines of a loop body are taken out of the program by their indentation (`takeBody`) and given
to a new `Interpreter` one level deeper.  Both the body and what is left after it are shorter than
the lines the loop started with, which is why the recursion ends.
-/

set_option autoImplicit false

namespace ManyTasks
namespace Matrix3

/-! ## Variables -/

/-- One turn of the inner loop of `GatherVars`. -/
def addVar (vars : List Name) : Token → List Name
  | .kVar var_name => if var_name ∈ vars then vars else vars ++ [var_name]
  | _ => vars

/-- `GatherVars`: the names in the order they first occur, so that a name's position is the index
the source gives it. -/
def gatherVars (program : List (List Token)) : List Name :=
  program.foldl (fun vars line ↦ line.foldl addVar vars) []

theorem addVar_nodup {vars : List Name} (h : vars.Nodup) (token : Token) :
    (addVar vars token).Nodup := by
  cases token with
  | kVar name =>
    rw [addVar]
    split
    · exact h
    · rename_i hn
      exact h.append (List.nodup_singleton _) (by simpa using hn)
  | _ => exact h

/-- Different variables get different indices. -/
theorem gatherVars_nodup (program : List (List Token)) : (gatherVars program).Nodup := by
  have hline : ∀ (line : List Token) (vars : List Name), vars.Nodup →
      (line.foldl addVar vars).Nodup := by
    intro line
    induction line with
    | nil => exact fun vars h ↦ h
    | cons token line ih => exact fun vars h ↦ ih _ (addVar_nodup h token)
  have hprog : ∀ (lines : List (List Token)) (vars : List Name), vars.Nodup →
      (lines.foldl (fun vars line ↦ line.foldl addVar vars) vars).Nodup := by
    intro lines
    induction lines with
    | nil => exact fun vars h ↦ h
    | cons line lines ih => exact fun vars h ↦ ih _ (hline line vars h)
  exact hprog program [] List.nodup_nil

/-! ## Assignments -/

/-- The four assignments: `op` is `0`, `'+'`, `'-'` or `'*'` in the source. -/
inductive AssignOp where
  | set
  | plus
  | minus
  | times
deriving DecidableEq, Repr

/-- The operator after the variable of an assignment, up to and including the `=`. -/
def readAssignOp (line : Line) : Except Error (AssignOp × Line) := do
  let (op, line) ← match ← line.get with
    | .kSymbol symbol =>
      if symbol = '+'.toUInt8 then pure (.plus, ← line.next)
      else if symbol = '-'.toUInt8 then pure (.minus, ← line.next)
      else if symbol = '*'.toUInt8 then pure (.times, ← line.next)
      else throw (.matrixException "Wrong equation")
    | _ => pure (.set, line)
  if (← line.get) ≠ .kEqv then throw (.matrixException "Miss equation")
  return (op, ← line.next)

/-- The matrix of an assignment to variable `j` of an expression with the given coefficients. -/
def assignTransform {vars : List Name} (j : Fin vars.length) (op : AssignOp)
    (expr_vec : Coeffs vars) :
    Except Error (DenseMatrix (vars.length + 1) (vars.length + 1)) :=
  let var_index := j.castSucc
  let transform := (DenseMatrix.identity (vars.length + 1)).setColumn var_index
    (words expr_vec)
  match op with
  | .set => .ok transform
  | .plus =>
    .ok (transform.setEntry var_index var_index (transform.entry var_index var_index + 1))
  | .minus =>
    let transform := transform.setColumn var_index fun i ↦ -transform.entry i var_index
    .ok (transform.setEntry var_index var_index (transform.entry var_index var_index + 1))
  | .times =>
    if (List.finRange vars.length).any fun i ↦ transform.entry i.castSucc var_index != 0 then
      .error (.matrixException "Non consntant expression for *=")
    else
      let transform := transform.setEntry var_index var_index
        (transform.entry (Fin.last _) var_index)
      .ok (transform.setEntry (Fin.last _) var_index 0)

/-- An assignment line from its variable on: the variable, the operator and the expression. -/
def readAssign (vars : List Name) (var_name : Name) (line : Line) :
    Except Error (Fin vars.length × AssignOp × Expression × Line) := do
  let var_index ← varAt vars var_name
  let line ← line.next
  let (op, line) ← readAssignOp line
  let (expr, line) ← sumCtor vars line
  return (var_index, op, expr, line)

/-- The assignment branch of `CalculateTransformMatrix`. -/
def assignment (vars : List Name) (var_name : Name) (line : Line) :
    Except Error (DenseMatrix (vars.length + 1) (vars.length + 1)) := do
  let (var_index, op, expr, line) ← readAssign vars var_name line
  let expr_vec ← evaluate vars expr
  if (← line.get) ≠ .kNewLine then throw (.matrixException "Wrong expression")
  assignTransform var_index op expr_vec

/-! ## Loops -/

/-- The rest of a `for` line: its iteration count. -/
def readFor (line : Line) : Except Error UInt64 := do
  let line ← line.next
  match ← line.get with
  | .kNumber iter_count =>
    let line ← line.next
    if (← line.get) ≠ .kNewLine then throw (.matrixException "Wrong for loop format")
    return iter_count
  | _ => throw (.matrixException "Wrong for loop format")

/-- The `while` loop that moves the lines indented deeper than `depth` into `subprogram`: the body
of a loop, and the lines after it. -/
def takeBody (depth : Nat) : List Line → Except Error (List Line × List Line)
  | [] => .ok ([], [])
  | line :: program => do
    let (tab_count, _) ← countTabs line
    if tab_count ≤ depth then return ([], line :: program)
    let (subprogram, rest) ← takeBody depth program
    return (line :: subprogram, rest)

theorem takeBody_length {depth : Nat} {program subprogram rest : List Line}
    (h : takeBody depth program = .ok (subprogram, rest)) :
    subprogram.length + rest.length = program.length := by
  induction program generalizing subprogram with
  | nil => cases h; rfl
  | cons line program ih =>
    rw [takeBody, Lib.bind_eq_ok] at h
    obtain ⟨⟨tab_count, _⟩, -, h⟩ := h
    simp only at h
    split at h
    · cases h; simp
    · obtain ⟨⟨sub, rest'⟩, hsub, h⟩ := Lib.bind_eq_ok.1 h
      cases h
      have hlen := ih hsub
      simp only [List.length_cons] at hlen ⊢
      omega

/-! ## Programs -/

/-- What the line at the cursor of `CalculateTransformMatrix` starts with, its indentation having
been checked. -/
def firstToken (depth : Nat) (line : Line) : Except Error (Token × Line) := do
  let (tab_count, line) ← countTabs line
  if tab_count ≠ depth then throw (.matrixException "Wrong tab count")
  return (← line.get, line)

/-- The loop of `Interpreter::CalculateTransformMatrix` at `depth_ = depth`, `res` being the
product so far. -/
def calculateFrom (vars : List Name) (depth : Nat)
    (res : DenseMatrix (vars.length + 1) (vars.length + 1)) :
    List Line → Except Error (DenseMatrix (vars.length + 1) (vars.length + 1))
  | [] => .ok res
  | first :: program =>
    match firstToken depth first with
    | .error e => .error e
    | .ok (.kVar var_name, line) =>
      match assignment vars var_name line with
      | .error e => .error e
      | .ok transform => calculateFrom vars depth (res * transform) program
    | .ok (.kFor, line) =>
      match readFor line with
      | .error e => .error e
      | .ok iter_count =>
        match _h : takeBody depth program with
        | .error e => .error e
        | .ok (subprogram, rest) =>
          if subprogram = [] then .error (.matrixException "Empty for loop body")
          else
            match calculateFrom vars (depth + 1) (.identity _) subprogram with
            | .error e => .error e
            | .ok body => calculateFrom vars depth (res * body.pow iter_count) rest
    | .ok (.kNewLine, _) => calculateFrom vars depth res program
    | .ok _ => .error (.matrixException "Wrong expression format")
termination_by program => program.length
decreasing_by
  all_goals simp only [List.length_cons]
  all_goals try have := takeBody_length ‹_›
  all_goals omega

/-- `Interpreter::CalculateTransformMatrix`. -/
def calculateTransformMatrix (vars : List Name) (depth : Nat) (program : List Line) :
    Except Error (DenseMatrix (vars.length + 1) (vars.length + 1)) :=
  calculateFrom vars depth (.identity _) program

/-- `init_vec`. -/
def initVec (n : Nat) : DenseMatrix 1 (n + 1) :=
  DenseMatrix.setEntry (.ofEntries fun _ _ ↦ 0) 0 (Fin.last n) 1

/-- The map `name ↦ f i` for the name `name` of index `i`. -/
def varMap (vars : List Name) (f : Fin vars.length → UInt64) (name : Name) : Option UInt64 :=
  match varAt vars name with
  | .ok j => some (f j)
  | .error _ => none

/-- `Run`: the final value of every variable of the program. -/
def run (program : List UInt8) : Except Error (Name → Option UInt64) := do
  let lines := tokenize program
  let vars := gatherVars lines
  let transform ← calculateTransformMatrix vars 0 lines
  let res := (initVec vars.length).mul transform
  return varMap vars fun j ↦ res.entry 0 j.castSucc

end Matrix3
end ManyTasks
