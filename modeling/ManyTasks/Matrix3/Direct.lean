import ManyTasks.Matrix3.Interpreter
import Mathlib.Logic.Function.Iterate

/-!
# What a program means

This is the language as its description has it, with no matrix in sight.  A program is a sequence
of assignments and loops; it acts on the values of its variables, all of them words modulo
`2 ^ 64` and all of them `0` to begin with; an assignment evaluates its expression on the current
values, and the body of `for N` is executed `N` times over.

`parseFrom` builds the program from the lines of tokens.  It reads them through the same functions
as the interpreter, so the two agree on what is a line, an expression and a loop body, and they
differ only in what they do with it.
-/

set_option autoImplicit false

namespace ManyTasks
namespace Matrix3

/-- The values of the variables. -/
abbrev Env := Name → UInt64

/-- The value of a parse tree on the current values of the variables.  An operand that is missing
counts as `0`. -/
def value (env : Env) : Expression → UInt64
  | .empty => 0
  | .number number => number
  | .var var_name => env var_name
  | .neg constant_ => -value env constant_
  | .paren sum_ => value env sum_
  | .mul mul_ constant_ => value env mul_ * value env constant_
  | .add sum_ mul_ => value env sum_ + value env mul_
  | .sub sum_ mul_ => value env sum_ - value env mul_

/-- The value an assignment leaves, from the old value of its variable and that of its
expression. -/
def AssignOp.apply : AssignOp → UInt64 → UInt64 → UInt64
  | .set, _, x => x
  | .plus, old, x => old + x
  | .minus, old, x => old - x
  | .times, old, x => old * x

/-- A program: its first statement and the rest. -/
inductive Program where
  | done
  | assign (var_name : Name) (op : AssignOp) (expr : Expression) (rest : Program)
  | loop (iter_count : UInt64) (body rest : Program)
deriving DecidableEq, Repr

/-- Executing a program statement by statement. -/
def exec : Program → Env → Env
  | .done, env => env
  | .assign var_name op expr rest, env =>
    exec rest (Function.update env var_name (op.apply (env var_name) (value env expr)))
  | .loop iter_count body rest, env => exec rest ((exec body)^[iter_count.toNat] env)

/-- An assignment line from its variable on, which has to end with its expression. -/
def parseAssign (vars : List Name) (var_name : Name) (line : Line) :
    Except Error (AssignOp × Expression) := do
  let (_, op, expr, line) ← readAssign vars var_name line
  if (← line.get) ≠ .kNewLine then throw (.matrixException "Wrong expression")
  return (op, expr)

/-- The program written in lines of tokens at loop depth `depth`. -/
def parseFrom (vars : List Name) (depth : Nat) : List Line → Except Error Program
  | [] => .ok .done
  | first :: program =>
    match firstToken depth first with
    | .error e => .error e
    | .ok (.kVar var_name, line) =>
      match parseAssign vars var_name line with
      | .error e => .error e
      | .ok (op, expr) => do return .assign var_name op expr (← parseFrom vars depth program)
    | .ok (.kFor, line) =>
      match readFor line with
      | .error e => .error e
      | .ok iter_count =>
        match _h : takeBody depth program with
        | .error e => .error e
        | .ok (subprogram, rest) =>
          if subprogram = [] then .error (.matrixException "Empty for loop body")
          else
            match parseFrom vars (depth + 1) subprogram with
            | .error e => .error e
            | .ok body => do return .loop iter_count body (← parseFrom vars depth rest)
    | .ok (.kNewLine, _) => parseFrom vars depth program
    | .ok _ => .error (.matrixException "Wrong expression format")
termination_by program => program.length
decreasing_by
  all_goals simp only [List.length_cons]
  all_goals try have := takeBody_length ‹_›
  all_goals omega

/-- Running a program text statement by statement: the final value of every variable in it. -/
def runDirect (text : List UInt8) : Except Error (Name → Option UInt64) := do
  let lines := tokenize text
  let program ← parseFrom (gatherVars lines) 0 lines
  return fun name ↦
    if name ∈ gatherVars lines then some (exec program (fun _ ↦ 0) name) else none

end Matrix3
end ManyTasks
