import ManyTasks.Lib.Decimal
import ManyTasks.Matrix3.BlankLines
import ManyTasks.Matrix3.Trees

/-!
# How often a loop is executed

The number behind `for` is written in decimal and may be as long as one likes.  `Written` is a
program with these numerals in it, and `Written.execWith` executes it, the number of times a
numeral stands for being a parameter.

`Run` executes a loop as often as its numeral says modulo `2 ^ 64` (`run_eq_outcome`).
-/

set_option autoImplicit false

open scoped UInt64.CommRing

namespace ManyTasks
namespace Matrix3

/-! ## Programs as they are written -/

/-- A program: its first statement and the rest. -/
inductive Written where
  | done
  | assign (var_name : Name) (op : AssignOp) (expr : Expression) (rest : Written)
  | loop (digits : List UInt8) (body rest : Written)

/-- Executing a program; the body of a loop `count N` times, if the loop is `for N`. -/
def Written.execWith (count : ℕ → ℕ) : Written → Env → Env
  | .done, env => env
  | .assign var_name op expr rest, env =>
    rest.execWith count
      (Function.update env var_name (op.apply (env var_name) (value env expr)))
  | .loop digits body rest, env =>
    rest.execWith count ((body.execWith count)^[count (Lib.numeral 0 digits)] env)

/-- A line of a program. -/
inductive Statement where
  | assign (var_name : Name) (op : AssignOp) (expr : Expression)
  | loop (digits : List UInt8)
deriving DecidableEq, Repr

/-- What is on a line; nothing, if it is blank. -/
def statement (vars : List Name) : List Lexeme → Option Statement
  | .word var_name :: lexemes =>
    if var_name = forWord then
      match lexemes with
      | [.number digits] => some (.loop digits)
      | _ => none
    else
      match splitAssign lexemes with
      | some (op, expr) => (parseExpr vars expr).toOption.map (.assign var_name op)
      | none => none
  | _ => none

/-- The program on these lines.  The body of a loop are the lines that follow it and are indented
deeper. -/
def written (vars : List Name) : List SourceLine → Written
  | [] => .done
  | first :: program =>
    match statement vars first.lexemes with
    | some (.assign var_name op expr) => .assign var_name op expr (written vars program)
    | some (.loop digits) =>
      .loop digits (written vars (program.takeWhile (first.indent / 4 < ·.indent / 4)))
        (written vars (program.dropWhile (first.indent / 4 < ·.indent / 4)))
    | none => written vars program
termination_by program => program.length
decreasing_by
  all_goals simp only [List.length_cons]
  · omega
  · have := (List.takeWhile_sublist (first.indent / 4 < ·.indent / 4) (l := program)).length_le
    omega
  · have := (List.dropWhile_sublist (first.indent / 4 < ·.indent / 4) (l := program)).length_le
    omega
  · omega

/-- What executing the program in the text leaves in its variables. -/
def outcome (count : ℕ → ℕ) (text : List UInt8) (name : Name) : Option UInt64 :=
  if name ∈ gatherVars (tokenize text) then
    some ((written (gatherVars (tokenize text)) (tokenLines text)).execWith count (fun _ ↦ 0) name)
  else none

/-! ## Numerals -/

/-- The lexemes that are numbers have digits only. -/
def Lexeme.Decimal : Lexeme → Prop
  | .number digits => ∀ digit ∈ digits, isDigit digit = true
  | _ => True

theorem decimal_lexemes (raw : List UInt8) : ∀ lexeme ∈ lexemes raw, lexeme.Decimal := by
  fun_induction lexemes raw with
  | case1 => exact List.forall_mem_nil _
  | case2 rest ih => exact ih
  | case3 symbol hblank hop op rest hcompound ih => exact List.forall_mem_cons.2 ⟨trivial, ih⟩
  | case4 symbol hblank hop rest hcompound ih => exact List.forall_mem_cons.2 ⟨trivial, ih⟩
  | case5 rest hblank hop ih => exact List.forall_mem_cons.2 ⟨trivial, ih⟩
  | case6 symbol rest hblank hop heqv hdigit ih =>
    refine List.forall_mem_cons.2 ⟨List.forall_mem_cons.2 ⟨hdigit, fun digit hmem ↦ ?_⟩, ih⟩
    exact List.mem_takeWhile_imp hmem
  | case7 symbol rest hblank hop heqv hdigit hletter ih =>
    exact List.forall_mem_cons.2 ⟨trivial, ih⟩
  | case8 symbol rest hblank hop heqv hdigit hletter ih =>
    exact List.forall_mem_cons.2 ⟨trivial, ih⟩

theorem readNumber_numeral (acc : ℕ) {digits : List UInt8}
    (h : ∀ digit ∈ digits, isDigit digit = true) :
    (readNumber (UInt64.ofNat acc) digits).1 = UInt64.ofNat (Lib.numeral acc digits) := by
  induction digits generalizing acc with
  | nil => rfl
  | cons digit digits ih =>
    obtain ⟨hdigit, hdigits⟩ := List.forall_mem_cons.1 h
    have hle := (Lib.isDigit_iff.1 hdigit).1
    have hstep : UInt64.ofNat acc * 10 + digit.toUInt64 - '0'.toUInt8.toUInt64
        = UInt64.ofNat (acc * 10 + Lib.digitVal digit) := by
      have hvalue : digit.toUInt64 = UInt64.ofNat (Lib.digitVal digit) + 48 := by
        have hsum : digit.toNat = Lib.digitVal digit + 48 := (Nat.sub_add_cancel hle).symm
        rw [← UInt64.ofNat_uInt8ToNat, hsum, UInt64.ofNat_add]
        rfl
      have hzero : '0'.toUInt8.toUInt64 = 48 := rfl
      have hten : UInt64.ofNat 10 = 10 := rfl
      rw [hvalue, hzero, UInt64.ofNat_add, UInt64.ofNat_mul, hten]
      ring
    rw [readNumber, if_pos hdigit, hstep, ih _ hdigits]
    rfl

/-- **A numeral is read modulo `2 ^ 64`.** -/
theorem toNat_readNumber {digits : List UInt8} (h : ∀ digit ∈ digits, isDigit digit = true) :
    (readNumber 0 digits).1.toNat = Lib.numeral 0 digits % 2 ^ 64 := by
  have hread := readNumber_numeral 0 h
  rw [show (0 : UInt64) = UInt64.ofNat 0 from rfl, hread, UInt64.toNat_ofNat']

/-! ## What is executed -/

section

variable {vars : List Name} {source : SourceLine} {lexemes : List Lexeme} {text : List UInt8}

/-- A line that is read as an assignment. -/
theorem parseAssign_eq {var_name : Name} {op : AssignOp} {expr : List Lexeme} {e : Expression}
    (hvar : var_name ∈ vars) (hsplit : splitAssign lexemes = some (op, expr))
    (hparse : parseExpr vars expr = .ok e) :
    parseAssign vars var_name (.kVar var_name :: lineOf lexemes) = .ok (op, e) := by
  obtain ⟨j, hj⟩ := varAt_of_mem hvar
  obtain ⟨rest, hsum⟩ := parseExpr_ok hparse
  rw [parseAssign, readAssign, hj, Lib.ok_bind, Line.next_cons, Lib.ok_bind,
    readAssignOp_lineOf hsplit, Lib.ok_bind]
  dsimp only
  rw [hsum]
  rfl

theorem statement_loop (vars : List Name) (digits : List UInt8) :
    statement vars [.word forWord, .number digits] = some (.loop digits) := by
  rw [statement, if_pos rfl]

theorem statement_assign {var_name : Name} {op : AssignOp} {expr : List Lexeme} {e : Expression}
    (hname : var_name ≠ forWord) (hsplit : splitAssign lexemes = some (op, expr))
    (hparse : parseExpr vars expr = .ok e) :
    statement vars (.word var_name :: lexemes) = some (.assign var_name op e) := by
  refine (if_neg hname).trans ?_
  rw [hsplit]
  dsimp only
  rw [hparse]
  rfl

/-- What a line that is accepted is. -/
theorem statement_cases (hknown : ∀ name ∈ names (lineOf source.lexemes), name ∈ vars)
    (htaken : Taken vars source.line) :
    (∃ var_name op e line, statement vars source.lexemes = some (.assign var_name op e)
        ∧ content source.line = .kVar var_name :: line
        ∧ parseAssign vars var_name (.kVar var_name :: line) = .ok (op, e))
      ∨ (∃ digits line, statement vars source.lexemes = some (.loop digits)
        ∧ .number digits ∈ source.lexemes ∧ content source.line = .kFor :: line
        ∧ readFor (.kFor :: line) = .ok (readNumber 0 digits).1)
      ∨ statement vars source.lexemes = none ∧ content source.line = [.kNewLine] := by
  rw [Taken] at htaken
  rw [content_line] at htaken ⊢
  generalize source.lexemes = lexemes at hknown htaken
  cases lexemes with
  | nil => exact Or.inr (Or.inr ⟨rfl, rfl⟩)
  | cons lexeme lexemes =>
    cases lexeme with
    | number | symbol | bad => exact htaken.elim
    | assign op =>
      cases op with
      | _ => exact htaken.elim
    | word var_name =>
      rw [lineOf_cons, Lexeme.tokens, List.singleton_append] at htaken ⊢
      obtain ⟨hname, htoken⟩ | ⟨hname, htoken⟩ := wordToken_cases var_name
      · rw [htoken] at htaken ⊢
        obtain ⟨digits, rfl, hfor⟩ | ⟨-, msg, hfor⟩ := readFor_cases lexemes
        · rw [hname]
          exact Or.inr (Or.inl ⟨digits, _, statement_loop vars digits,
            List.mem_cons_of_mem _ (List.mem_singleton_self _), rfl, hfor⟩)
        · obtain ⟨iter_count, hcount⟩ := htaken
          rw [hfor] at hcount
          cases hcount
      · obtain ⟨hvar, -⟩ := names_of_word hname hknown
        rw [htoken] at htaken ⊢
        obtain ⟨op, expr, e, coeffs, hsplit, hparse, -, -⟩ := (assignment_ok_iff hvar).1 htaken
        exact Or.inl ⟨var_name, op, e, _, statement_assign hname hsplit hparse, rfl,
          parseAssign_eq hvar hsplit hparse⟩

/-- **The program is executed**, its loops as often as their numerals say modulo `2 ^ 64`. -/
theorem parseFrom_written {depth : ℕ} {sources : List SourceLine}
    (hknown : ∀ source ∈ sources, ∀ name ∈ names (lineOf source.lexemes), name ∈ vars)
    (hdecimal : ∀ source ∈ sources, ∀ lexeme ∈ source.lexemes, lexeme.Decimal)
    (haccepted : Accepted vars depth (sources.map SourceLine.line)) :
    ∃ program, parseFrom vars depth (sources.map SourceLine.line) = .ok program
      ∧ exec program = (written vars sources).execWith (· % 2 ^ 64) := by
  induction hn : sources.length using Nat.strong_induction_on generalizing sources depth with
  | _ n ih =>
    subst hn
    cases sources with
    | nil =>
      refine ⟨.done, by rw [List.map_nil, parseFrom], ?_⟩
      rw [written]
      rfl
    | cons first sources =>
      rw [List.map_cons] at haccepted ⊢
      obtain ⟨hfirst, hknown⟩ := List.forall_mem_cons.1 hknown
      obtain ⟨hdigits, hdecimal⟩ := List.forall_mem_cons.1 hdecimal
      have hdepth := haccepted.head.1
      have htaken := haccepted.1 _ List.mem_cons_self
      obtain ⟨var_name, op, e, line, hstatement, hcontent, hparse⟩
        | ⟨digits, line, hstatement, hmem, hcontent, hread⟩ | ⟨hstatement, hcontent⟩ :=
        statement_cases hfirst htaken
      · have hrest := ((accepted_cons hdepth (isLoop_eq hcontent)).1 haccepted).2
        obtain ⟨program, hprogram, hexec⟩ :=
          ih sources.length (Nat.lt_succ_self _) hknown hdecimal hrest rfl
        refine ⟨.assign var_name op e program, ?_, ?_⟩
        · rw [parseFrom_var hdepth hcontent, hparse, hprogram]
          rfl
        · rw [written, hstatement]
          funext env
          exact congrFun hexec _
      · have hindent : first.indent / 4 = depth := (tabs_line first).symm.trans hdepth
        have htabs : (fun line ↦ decide (depth < tabs line)) ∘ SourceLine.line
            = fun source : SourceLine ↦ decide (depth < source.indent / 4) := by
          funext source
          rw [Function.comp_apply, tabs_line]
        obtain ⟨-, hne, hbody, hafter⟩ :=
          (accepted_loop hdepth (isLoop_eq hcontent)).1 haccepted
        have hlines : ∀ line ∈ sources.map SourceLine.line, content line ≠ [] := by
          intro line hline
          obtain ⟨source, -, rfl⟩ := List.mem_map.1 hline
          obtain ⟨token, rest, hhead, -⟩ := lineOf_head source.lexemes
          rw [content_line, hhead]
          exact List.cons_ne_nil _ _
        rw [List.takeWhile_map, htabs] at hbody
        rw [List.dropWhile_map, htabs] at hafter
        obtain ⟨body, hparse, hexec⟩ := ih _
          (Nat.lt_succ_of_le (List.takeWhile_sublist _).length_le)
          (fun source hmem ↦ hknown source ((List.takeWhile_sublist _).subset hmem))
          (fun source hmem ↦ hdecimal source ((List.takeWhile_sublist _).subset hmem)) hbody rfl
        obtain ⟨program, hparse', hexec'⟩ := ih _
          (Nat.lt_succ_of_le (List.dropWhile_sublist _).length_le)
          (fun source hmem ↦ hknown source ((List.dropWhile_sublist _).subset hmem))
          (fun source hmem ↦ hdecimal source ((List.dropWhile_sublist _).subset hmem)) hafter rfl
        refine ⟨.loop (readNumber 0 digits).1 body program, ?_, ?_⟩
        · rw [parseFrom_for hdepth hcontent hlines hne, List.takeWhile_map, List.dropWhile_map,
            htabs, hread]
          dsimp only
          rw [hparse, hparse']
          rfl
        · rw [written, hstatement, hindent]
          funext env
          rw [exec, hexec, hexec', toNat_readNumber (hdigits _ hmem)]
          rfl
      · have hrest := ((accepted_cons hdepth (isLoop_eq hcontent)).1 haccepted).2
        obtain ⟨program, hprogram, hexec⟩ :=
          ih sources.length (Nat.lt_succ_self _) hknown hdecimal hrest rfl
        refine ⟨program, ?_, ?_⟩
        · rw [parseFrom_newLine hdepth hcontent, hprogram]
        · rw [written, hstatement]
          exact hexec

/-- **What `Run` returns.** -/
theorem run_eq_outcome {result : Name → Option UInt64} (h : run text = .ok result) :
    result = outcome (· % 2 ^ 64) text := by
  have hdecimal : ∀ source ∈ tokenLines text, ∀ lexeme ∈ source.lexemes, lexeme.Decimal := by
    intro source hsource
    obtain ⟨raw, -, rfl⟩ := List.mem_map.1 (List.mem_filter.1 hsource).1
    exact decimal_lexemes raw
  have haccepted := accepted_zero.2 ((run_ok_iff text).1 ⟨result, h⟩)
  obtain ⟨program, hprogram, hresult⟩ := Lib.bind_eq_ok.1 (run_eq_runDirect text result h)
  cases hresult
  have htokens := tokenize_eq_map text
  have hknown : ∀ source ∈ tokenLines text, ∀ name ∈ names (lineOf source.lexemes),
      name ∈ gatherVars (tokenize text) := fun source hsource ↦ known_of_mem hsource
  funext name
  rw [outcome]
  generalize gatherVars (tokenize text) = vars at hknown haccepted hprogram
  rw [htokens] at haccepted hprogram
  obtain ⟨program', hprogram', hexec⟩ := parseFrom_written hknown hdecimal haccepted
  rw [hprogram] at hprogram'
  cases hprogram'
  rw [hexec]

end

end Matrix3
end ManyTasks
