import ManyTasks.Matrix3.Assignment

/-!
# The language and what is accepted

`IsProgram` is the language as its description has it: lines that are not blank, each indented by
four blanks for every loop it is in, each an assignment or a loop with a body.

`Run` accepts more.  It rounds an indentation down, it does not miss an operand, a sign may stand
apart from its `=`, a factor may contain variables as long as its value does not depend on them,
and a line of blanks takes part in the nesting.  `answers_iff` says that this is all: apart from
these lines, `Run` returns on the programs of the language and throws on everything else.
-/

set_option autoImplicit false

namespace ManyTasks
namespace Matrix3

/-! ## The language -/

/-- An arithmetic expression. -/
def IsExpr (lexemes : List Lexeme) : Prop := Lib.Arith (lexemes.map Lexeme.piece)

/-- An assignment. -/
inductive IsAssignment : List Lexeme → Prop
  | expr {var_name : Name} {op : AssignOp} {expr : List Lexeme} (hname : var_name ≠ forWord)
      (hop : op ≠ .times) (hexpr : IsExpr expr) :
    IsAssignment (.word var_name :: .assign op :: expr)
  | times {var_name : Name} {expr : List Lexeme} (hname : var_name ≠ forWord)
      (hexpr : IsExpr expr) (hconst : ∀ name, .word name ∉ expr) :
    IsAssignment (.word var_name :: .assign .times :: expr)

/-- The first line of a loop. -/
def IsFor (lexemes : List Lexeme) : Prop := ∃ digits, lexemes = [.word forWord, .number digits]

/-- The lines of a program, or of the body of a loop. -/
inductive IsProgram : ℕ → List SourceLine → Prop
  | done (depth : ℕ) : IsProgram depth []
  | assign {depth : ℕ} {line : SourceLine} {program : List SourceLine}
      (hindent : line.indent = 4 * depth) (hline : IsAssignment line.lexemes)
      (hprogram : IsProgram depth program) : IsProgram depth (line :: program)
  | loop {depth : ℕ} {line : SourceLine} {body program : List SourceLine}
      (hindent : line.indent = 4 * depth) (hline : IsFor line.lexemes) (hne : body ≠ [])
      (hbody : IsProgram (depth + 1) body) (hprogram : IsProgram depth program) :
    IsProgram depth (line :: (body ++ program))

/-- The lines that are not blank. -/
def statementLines (text : List UInt8) : List SourceLine :=
  (sourceLines text).filter (·.lexemes ≠ [])

/-- The text is a program. -/
def InLanguage (text : List UInt8) : Prop := IsProgram 0 (statementLines text)

/-! ## One line and the next -/

/-- Is it the first line of a loop? -/
def SourceLine.isLoop (line : SourceLine) : Bool := line.lexemes.head? == some (.word forWord)

def SourceLine.shape (line : SourceLine) : ℕ × Bool := (line.indent / 4, line.isLoop)

/-- The line could be in a program. -/
def WellFormed (line : SourceLine) : Prop :=
  4 ∣ line.indent ∧ (IsAssignment line.lexemes ∨ IsFor line.lexemes)

section

variable {depth : ℕ} {line : SourceLine} {lines : List SourceLine}

theorem isLoop_of_assignment (h : IsAssignment line.lexemes) : line.isLoop = false := by
  rw [SourceLine.isLoop]
  generalize line.lexemes = lexemes at h
  cases h with
  | expr hname | times hname =>
    exact beq_eq_false_iff_ne.2 fun heq ↦ hname (Lexeme.word.inj (Option.some.inj heq))

theorem isLoop_of_for (h : IsFor line.lexemes) : line.isLoop = true := by
  obtain ⟨digits, hline⟩ := h
  rw [SourceLine.isLoop, hline]
  exact beq_self_eq_true _

theorem shape_of_indent (hindent : line.indent = 4 * depth) :
    line.shape = (depth, line.isLoop) := by
  rw [SourceLine.shape, hindent, Nat.mul_div_cancel_left depth (by decide : 0 < 4)]

/-- The lines of a program are nested. -/
theorem IsProgram.nested (h : IsProgram depth lines) :
    (∀ line ∈ lines, WellFormed line ∧ depth ≤ line.indent / 4)
      ∧ Nested (.upTo depth) (lines.map SourceLine.shape) := by
  induction h with
  | done depth => exact ⟨List.forall_mem_nil _, trivial⟩
  | assign hindent hline hprogram ih =>
    obtain ⟨hlines, hnested⟩ := ih
    refine ⟨List.forall_mem_cons.2 ⟨⟨⟨⟨_, hindent⟩, Or.inl hline⟩, ?_⟩, hlines⟩, ?_⟩
    · omega
    · rw [List.map_cons, shape_of_indent hindent, isLoop_of_assignment hline]
      exact ⟨Nat.le_refl _, hnested⟩
  | @loop depth line body program hindent hline hne hbody hprogram ihbody ih =>
    obtain ⟨hin, hbody⟩ := ihbody
    obtain ⟨hout, hnested⟩ := ih
    refine ⟨List.forall_mem_cons.2 ⟨⟨⟨⟨_, hindent⟩, Or.inr hline⟩, ?_⟩,
      List.forall_mem_append.2 ⟨?_, hout⟩⟩, ?_⟩
    · omega
    · exact fun line hmem ↦ (hin line hmem).imp_right Nat.le_of_succ_le
    · have hdeeper : ∀ x ∈ body.map SourceLine.shape, depth < x.1 := by
        intro x hx
        obtain ⟨line, hmem, rfl⟩ := List.mem_map.1 hx
        exact (hin line hmem).2
      have houtside : ∀ x ∈ (program.map SourceLine.shape).head?, x.1 ≤ depth := by
        cases program with
        | nil => nofun
        | cons first program =>
          intro x hx
          cases hx
          exact hnested.1
      have habove : (Slot.exactly (depth + 1)).above depth := Nat.lt_succ_self depth
      rw [List.map_cons, shape_of_indent hindent, isLoop_of_for hline, List.map_append]
      refine ⟨Nat.le_refl _, (nested_append habove hdeeper houtside).2
        ⟨(nested_exactly hdeeper).2 ⟨?_, hbody⟩, hnested⟩⟩
      exact mt List.map_eq_nil_iff.1 hne

/-- Lines that are nested are a program. -/
theorem isProgram_of_nested (hlines : ∀ line ∈ lines, WellFormed line ∧ depth ≤ line.indent / 4)
    (hnested : Nested (.upTo depth) (lines.map SourceLine.shape)) : IsProgram depth lines := by
  induction hn : lines.length using Nat.strong_induction_on generalizing lines depth with
  | _ n ih =>
    subst hn
    cases lines with
    | nil => exact .done depth
    | cons line lines =>
      obtain ⟨⟨⟨hdvd, hline⟩, hle⟩, hlines⟩ := List.forall_mem_cons.1 hlines
      obtain ⟨hadmits, hnested⟩ := hnested
      have hadmits : line.indent / 4 ≤ depth := hadmits
      have hindent : line.indent = 4 * depth := by omega
      have hdepth : line.indent / 4 = depth := Nat.le_antisymm hadmits hle
      obtain hline | hline := hline
      · refine .assign hindent hline (ih lines.length (Nat.lt_succ_self _) hlines ?_ rfl)
        rw [isLoop_of_assignment hline, hdepth] at hnested
        exact hnested
      · rw [isLoop_of_for hline, hdepth] at hnested
        obtain ⟨hne, hbody, hafter⟩ := nested_loop.1 hnested
        rw [List.takeWhile_map] at hne hbody
        rw [List.dropWhile_map] at hafter
        have hsplit := List.takeWhile_append_dropWhile (p := (depth < ·.1) ∘ SourceLine.shape)
          (l := lines)
        have hlength := congrArg List.length hsplit
        rw [List.length_append] at hlength
        rw [← hsplit]
        refine .loop hindent hline (mt List.map_eq_nil_iff.2 hne)
          (ih _ ?_ (fun line hmem ↦ ⟨?_, ?_⟩) hbody rfl) (ih _ ?_ (fun line hmem ↦ ?_) hafter rfl)
        · rw [List.length_cons]
          omega
        · exact (hlines line ((List.takeWhile_sublist _).subset hmem)).1
        · have hlt := List.mem_takeWhile_imp hmem
          exact of_decide_eq_true hlt
        · rw [List.length_cons]
          omega
        · exact hlines line ((List.dropWhile_sublist _).subset hmem)

theorem inLanguage_iff (text : List UInt8) :
    InLanguage text ↔ (∀ line ∈ statementLines text, WellFormed line)
      ∧ Nested (.upTo 0) ((statementLines text).map SourceLine.shape) := by
  constructor
  · intro h
    exact ⟨fun line hline ↦ (h.nested.1 line hline).1, h.nested.2⟩
  · rintro ⟨hlines, hnested⟩
    exact isProgram_of_nested (fun line hline ↦ ⟨hlines line hline, Nat.zero_le _⟩) hnested

end

/-! ## Lines of tokens -/

/-- The tokens of a line that has any. -/
def SourceLine.line (source : SourceLine) : Line :=
  List.replicate (source.indent / 4) .kTab ++ lineOf source.lexemes

/-- The lines that have tokens. -/
def tokenLines (text : List UInt8) : List SourceLine :=
  (sourceLines text).filter fun source ↦ 4 ≤ source.indent ∨ source.lexemes ≠ []

theorem exists_token (lexeme : Lexeme) :
    ∃ token tokens, lexeme.tokens = token :: tokens ∧ token.inner = true := by
  cases lexeme with
  | number | symbol | bad => exact ⟨_, _, rfl, rfl⟩
  | word name => exact ⟨_, _, rfl, inner_wordToken name⟩
  | assign op =>
    cases op with
    | _ => exact ⟨_, _, rfl, rfl⟩

theorem tokensOf_eq_nil {lexemes : List Lexeme} : tokensOf lexemes = [] ↔ lexemes = [] := by
  cases lexemes with
  | nil => exact iff_of_true rfl rfl
  | cons lexeme lexemes =>
    obtain ⟨token, tokens, htokens, -⟩ := exists_token lexeme
    rw [tokensOf, List.flatMap_cons, htokens]
    exact iff_of_false (List.cons_ne_nil _ _) (List.cons_ne_nil _ _)

theorem tokenize_eq_map (text : List UInt8) :
    tokenize text = (tokenLines text).map SourceLine.line := by
  rw [tokenize_eq, tokenLines]
  induction sourceLines text with
  | nil => rfl
  | cons source sources ih =>
    have hnil : List.replicate (source.indent / 4) Token.kTab ++ tokensOf source.lexemes = []
        ↔ ¬ (4 ≤ source.indent ∨ source.lexemes ≠ []) := by
      rw [List.append_eq_nil_iff, List.replicate_eq_nil_iff, tokensOf_eq_nil]
      have hdiv : source.indent / 4 = 0 ↔ ¬ 4 ≤ source.indent := by omega
      rw [hdiv, not_or, not_not]
    rw [List.flatMap_cons, ih, SourceLine.tokens, closeLine]
    by_cases htokens : 4 ≤ source.indent ∨ source.lexemes ≠ []
    · rw [if_neg fun h ↦ hnil.1 h htokens, List.filter_cons, if_pos (decide_eq_true htokens),
        List.map_cons, SourceLine.line, lineOf, List.append_assoc]
      rfl
    · rw [if_pos (hnil.2 htokens), List.filter_cons, if_neg (by simpa using htokens)]
      rfl

section

variable {source : SourceLine} {text : List UInt8} {vars : List Name} {lexemes : List Lexeme}

/-- The first token of a line. -/
theorem lineOf_head (lexemes : List Lexeme) :
    ∃ token rest, lineOf lexemes = token :: rest ∧ token ≠ .kTab := by
  cases lexemes with
  | nil => exact ⟨.kNewLine, [], rfl, nofun⟩
  | cons lexeme lexemes =>
    obtain ⟨token, tokens, htokens, hinner⟩ := exists_token lexeme
    refine ⟨token, tokens ++ lineOf lexemes, ?_, ?_⟩
    · rw [lineOf_cons, htokens]
      rfl
    · rintro rfl
      cases hinner

theorem span_replicate {token : Token} (h : token ≠ .kTab) (k : ℕ) (rest : Line) :
    tabs (List.replicate k .kTab ++ token :: rest) = k
      ∧ content (List.replicate k .kTab ++ token :: rest) = token :: rest := by
  have hne : (token == .kTab) = false := beq_eq_false_iff_ne.2 h
  induction k with
  | zero =>
    rw [List.replicate_zero, List.nil_append, tabs, content, List.takeWhile_cons,
      List.dropWhile_cons, hne]
    exact ⟨rfl, rfl⟩
  | succ k ih => exact ⟨congrArg (· + 1) ih.1, ih.2⟩

theorem tabs_line (source : SourceLine) : tabs source.line = source.indent / 4 := by
  obtain ⟨token, rest, hline, htoken⟩ := lineOf_head source.lexemes
  rw [SourceLine.line, hline]
  exact (span_replicate htoken _ rest).1

theorem content_line (source : SourceLine) : content source.line = lineOf source.lexemes := by
  obtain ⟨token, rest, hline, htoken⟩ := lineOf_head source.lexemes
  rw [SourceLine.line, hline]
  exact (span_replicate htoken _ rest).2

theorem isLoop_line (source : SourceLine) : isLoop source.line = source.isLoop := by
  rw [isLoop, content_line, SourceLine.isLoop]
  cases source.lexemes with
  | nil => rfl
  | cons lexeme lexemes =>
    rw [lineOf_cons]
    cases lexeme with
    | number | symbol | bad => rfl
    | word name =>
      rw [Lexeme.tokens]
      obtain ⟨hname, htoken⟩ | ⟨hname, htoken⟩ := wordToken_cases name
      · rw [htoken, hname]
        exact (beq_self_eq_true _).symm
      · have hne : (some (Lexeme.word name) == some (.word forWord)) = false :=
          beq_eq_false_iff_ne.2 fun heq ↦ hname (Lexeme.word.inj (Option.some.inj heq))
        rw [htoken]
        exact hne.symm
    | assign op =>
      cases op with
      | _ => rfl

theorem shape_line (source : SourceLine) : shape source.line = source.shape := by
  rw [shape, SourceLine.shape, tabs_line, isLoop_line]

/-! ## Lines that can be read -/

theorem mem_addVar {name : Name} {token : Token} (h : name ∈ vars ∨ token = .kVar name) :
    name ∈ addVar vars token := by
  cases token with
  | kVar var_name =>
    rw [addVar]
    split
    · rename_i hmem
      obtain h | h := h
      · exact h
      · cases h
        exact hmem
    · obtain h | h := h
      · exact List.mem_append_left _ h
      · cases h
        exact List.mem_append_right _ (List.mem_singleton_self _)
  | _ => exact h.resolve_right (by simp)

/-- Every variable has an index. -/
theorem mem_gatherVars {program : List (List Token)} {line : Line} {name : Name}
    (hline : line ∈ program) (hname : name ∈ names line) : name ∈ gatherVars program := by
  have hfold {line : Line} {vars : List Name} (h : name ∈ vars ∨ name ∈ names line) :
      name ∈ line.foldl addVar vars := by
    induction line generalizing vars with
    | nil => exact h.resolve_right nofun
    | cons token line ih =>
      rw [names_cons, List.mem_append, ← or_assoc] at h
      refine ih (h.imp_left fun h ↦ mem_addVar (h.imp_right fun htoken ↦ ?_))
      cases token with
      | kVar var_name => rw [List.mem_singleton.1 htoken]
      | _ => cases htoken
  have hprogram {program : List (List Token)} {vars : List Name}
      (h : name ∈ vars ∨ ∃ line ∈ program, name ∈ names line) :
      name ∈ program.foldl (fun vars line ↦ line.foldl addVar vars) vars := by
    induction program generalizing vars with
    | nil => exact h.resolve_right fun ⟨_, hmem, _⟩ ↦ List.not_mem_nil hmem
    | cons first program ih =>
      refine ih ?_
      obtain h | ⟨line, hmem, h⟩ := h
      · exact Or.inl (hfold (Or.inl h))
      · obtain rfl | hmem := List.mem_cons.1 hmem
        · exact Or.inl (hfold (Or.inr h))
        · exact Or.inr ⟨line, hmem, h⟩
  exact hprogram (Or.inr ⟨line, hline, hname⟩)

/-- The value of an expression does not depend on its variables. -/
def IsConstant (vars : List Name) (lexemes : List Lexeme) : Prop :=
  ∀ e, parseExpr vars lexemes = .ok e → ∀ env env', value env e = value env' e

/-- What `Run` takes for a statement. -/
def ReadLoosely (vars : List Name) : List Lexeme → Prop
  | [] => True
  | .word var_name :: lexemes =>
    if var_name = forWord then ∃ digits, lexemes = [.number digits]
    else ∃ op expr, splitAssign lexemes = some (op, expr) ∧ IsLoose expr
      ∧ (op = .times → IsConstant vars expr)
  | _ => False

/-- The statement has no product with variables in both of its factors. -/
def separatedLine (vars : List Name) : List Lexeme → Bool
  | .word _ :: lexemes =>
    match splitAssign lexemes with
    | some (_, expr) =>
      match parseExpr vars expr with
      | .ok e => e.separated
      | .error _ => true
    | none => true
  | _ => true

/-- The rest of the first line of a loop. -/
theorem readFor_cases (lexemes : List Lexeme) :
    (∃ digits, lexemes = [.number digits]
        ∧ readFor (.kFor :: lineOf lexemes) = .ok (readNumber 0 digits).1)
      ∨ (¬ ∃ digits, lexemes = [.number digits])
        ∧ ∃ msg, readFor (.kFor :: lineOf lexemes) = .error (.matrixException msg) := by
  have hfirst {token : Token} (rest : Line) (h : ∀ number, token ≠ .kNumber number) :
      readFor (.kFor :: token :: rest)
        = .error (.matrixException "Wrong for loop format") := by
    rw [readFor, Line.next_cons, Lib.ok_bind, Line.get_cons, Lib.ok_bind]
    cases token with
    | kNumber number => exact absurd rfl (h number)
    | _ => rfl
  cases lexemes with
  | nil => exact Or.inr ⟨nofun, _, hfirst [] nofun⟩
  | cons lexeme lexemes =>
    rw [lineOf_cons]
    cases lexeme with
    | symbol | bad => exact Or.inr ⟨nofun, _, hfirst _ nofun⟩
    | word name =>
      refine Or.inr ⟨nofun, _, hfirst _ ?_⟩
      obtain ⟨-, htoken⟩ | ⟨-, htoken⟩ := wordToken_cases name
      · rw [htoken]
        nofun
      · rw [htoken]
        nofun
    | assign op =>
      cases op with
      | _ => exact Or.inr ⟨nofun, _, hfirst _ nofun⟩
    | number digits =>
      cases lexemes with
      | nil => exact Or.inl ⟨digits, rfl, rfl⟩
      | cons lexeme lexemes =>
        obtain ⟨token, tokens, htokens, hinner⟩ := exists_token lexeme
        have hnl : token ≠ .kNewLine := by
          rintro rfl
          cases hinner
        refine Or.inr ⟨nofun, "Wrong for loop format", ?_⟩
        rw [lineOf_cons, htokens]
        exact (if_pos hnl).trans rfl

theorem names_of_word {var_name : Name} (hname : var_name ≠ forWord)
    (hknown : ∀ name ∈ names (lineOf (.word var_name :: lexemes)), name ∈ vars) :
    var_name ∈ vars ∧ ∀ name ∈ names (lineOf lexemes), name ∈ vars := by
  refine ⟨hknown _ (mem_names_lineOf.2 ⟨hname, List.mem_cons_self⟩), fun name hmem ↦ ?_⟩
  obtain ⟨hfor, hmem⟩ := mem_names_lineOf.1 hmem
  exact hknown name (mem_names_lineOf.2 ⟨hfor, List.mem_cons_of_mem _ hmem⟩)

/-- **A line is accepted if it can be read.** -/
theorem taken_line_iff (hnd : vars.Nodup)
    (hknown : ∀ name ∈ names (lineOf source.lexemes), name ∈ vars)
    (hseparated : separatedLine vars source.lexemes = true) :
    Taken vars source.line ↔ ReadLoosely vars source.lexemes := by
  rw [Taken, content_line]
  generalize source.lexemes = lexemes at hknown hseparated
  cases lexemes with
  | nil => exact iff_of_true trivial trivial
  | cons lexeme lexemes =>
    cases lexeme with
    | number | symbol | bad => exact Iff.rfl
    | assign op =>
      cases op with
      | _ => exact Iff.rfl
    | word var_name =>
      rw [lineOf_cons, Lexeme.tokens, ReadLoosely, List.singleton_append]
      obtain ⟨hname, htoken⟩ | ⟨hname, htoken⟩ := wordToken_cases var_name
      · rw [htoken, if_pos hname]
        obtain ⟨digits, hline, hfor⟩ | ⟨hnot, msg, hfor⟩ := readFor_cases lexemes
        · exact iff_of_true ⟨_, hfor⟩ ⟨digits, hline⟩
        · refine iff_of_false ?_ hnot
          rintro ⟨iter_count, hcount⟩
          rw [hfor] at hcount
          cases hcount
      · obtain ⟨hvar, hrest⟩ := names_of_word hname hknown
        rw [htoken, if_neg hname]
        refine (assignment_ok_iff hvar).trans (exists_congr fun op ↦ exists_congr fun expr ↦ ?_)
        constructor
        · rintro ⟨e, coeffs, hsplit, hparse, hcoeffs, hconst⟩
          refine ⟨hsplit, (parseExpr_ok_iff (known_of_splitAssign hsplit hrest)).1 ⟨e, hparse⟩,
            fun htimes e' hparse' ↦ ?_⟩
          rw [hparse] at hparse'
          cases hparse'
          exact (hasVar_eq_false_iff hnd hcoeffs).1 (hconst htimes)
        · rintro ⟨hsplit, hloose, hconst⟩
          have hexpr := known_of_splitAssign hsplit hrest
          obtain ⟨e, hparse⟩ := (parseExpr_ok_iff hexpr).2 hloose
          have hsep : e.separated = true := by
            rw [separatedLine] at hseparated
            simpa [hsplit, hparse] using hseparated
          obtain ⟨coeffs, hcoeffs, -⟩ := evaluate_of_separated
            (fun name hmem ↦ hexpr name (names_of_parseExpr hexpr hparse name hmem)) hsep
          exact ⟨e, coeffs, hsplit, hparse, hcoeffs,
            fun htimes ↦ (hasVar_eq_false_iff hnd hcoeffs).2 (hconst htimes e hparse)⟩

/-- A value depends on the variables of its expression. -/
theorem value_congr {env env' : Env} {e : Expression} (h : ∀ name ∈ e.names, env name = env' name) :
    value env e = value env' e := by
  have hboth {l r : Expression} (h : ∀ name ∈ l.names ++ r.names, env name = env' name) :=
    List.forall_mem_append.1 h
  induction e with
  | empty | number => rfl
  | var name => exact h name (List.mem_singleton_self name)
  | neg e ih => exact congrArg (- ·) (ih h)
  | paren e ih => exact ih h
  | mul l r ihl ihr => exact congrArg₂ (· * ·) (ihl (hboth h).1) (ihr (hboth h).2)
  | add l r ihl ihr => exact congrArg₂ (· + ·) (ihl (hboth h).1) (ihr (hboth h).2)
  | sub l r ihl ihr => exact congrArg₂ (· - ·) (ihl (hboth h).1) (ihr (hboth h).2)

theorem isLoose_of_isExpr (h : IsExpr lexemes) : IsLoose lexemes :=
  Lib.scan_loose ((Lib.arith_iff _).1 h)

/-- A statement of the language can be read. -/
theorem readLoosely_of_wellFormed
    (hknown : ∀ name ∈ names (lineOf source.lexemes), name ∈ vars) (h : WellFormed source) :
    ReadLoosely vars source.lexemes := by
  obtain ⟨-, hline | ⟨digits, hline⟩⟩ := h
  · generalize source.lexemes = lexemes at hknown hline
    cases hline with
    | expr hname hop hexpr =>
      rw [ReadLoosely, if_neg hname]
      exact ⟨_, _, rfl, isLoose_of_isExpr hexpr, fun htimes ↦ absurd htimes hop⟩
    | times hname hexpr hconst =>
      rw [ReadLoosely, if_neg hname]
      refine ⟨_, _, rfl, isLoose_of_isExpr hexpr, fun _ e hparse env env' ↦ value_congr ?_⟩
      intro name hmem
      have hrest := known_of_splitAssign rfl (names_of_word hname hknown).2
      have hword := mem_names_lineOf.1 (names_of_parseExpr hrest hparse name hmem)
      exact absurd hword.2 (hconst name)
  · rw [hline, ReadLoosely, if_pos rfl]
    exact ⟨digits, rfl⟩

/-! ## Exceptions -/

/-- It is derived from `std::exception`. -/
def Error.isException : Error → Bool
  | .matrixException _ | .outOfRange => true
  | .pastEnd | .outOfFuel => false

/-- A line is read, or there is a `MatrixException`. -/
def ThrowsLine (vars : List Name) (line : Line) : Prop :=
  content line ≠ []
    ∧ (∀ var_name rest, content line = .kVar var_name :: rest →
      Throws (assignment vars var_name (.kVar var_name :: rest)))
    ∧ ∀ rest, content line = .kFor :: rest → Throws (readFor (.kFor :: rest))

theorem throwsLine_line (hknown : ∀ name ∈ names (lineOf source.lexemes), name ∈ vars) :
    ThrowsLine vars source.line := by
  rw [ThrowsLine, content_line]
  obtain ⟨token, rest, hline, -⟩ := lineOf_head source.lexemes
  refine ⟨by rw [hline]; exact List.cons_ne_nil _ _, ?_⟩
  generalize source.lexemes = lexemes at hknown
  cases lexemes with
  | nil => simp [lineOf, tokensOf]
  | cons lexeme lexemes =>
    cases lexeme with
    | number | symbol | bad => simp [lineOf_cons, Lexeme.tokens]
    | assign op =>
      cases op with
      | _ => simp [lineOf_cons, Lexeme.tokens]
    | word var_name =>
      rw [lineOf_cons, Lexeme.tokens, List.singleton_append]
      obtain ⟨hname, htoken⟩ | ⟨hname, htoken⟩ := wordToken_cases var_name
      · rw [htoken]
        refine ⟨(by simp), fun rest hrest ↦ ?_⟩
        cases hrest
        obtain ⟨digits, -, hfor⟩ | ⟨-, msg, hfor⟩ := readFor_cases lexemes
        · exact hfor ▸ throws_ok _
        · exact hfor ▸ throws_error msg
      · rw [htoken]
        refine ⟨fun name rest hrest ↦ ?_, (by simp)⟩
        cases hrest
        obtain ⟨hvar, hrest⟩ := names_of_word hname hknown
        exact assignment_throws hvar hrest

/-- **The interpreter throws nothing but `MatrixException`.** -/
theorem calculateFrom_throws (vars : List Name) (depth : ℕ)
    (res : DenseMatrix (vars.length + 1) (vars.length + 1)) (lines : List Line)
    (hlines : ∀ line ∈ lines, ThrowsLine vars line) :
    Throws (calculateFrom vars depth res lines) := by
  fun_induction calculateFrom vars depth res lines with
  | case1 depth res => exact throws_ok res
  | case2 depth res first program e hfirst =>
    obtain ⟨token, rest, hcontent⟩ := List.exists_cons_of_ne_nil (hlines first List.mem_cons_self).1
    rw [firstToken_eq hcontent] at hfirst
    split_ifs at hfirst
    cases hfirst
    exact throws_error _
  | case3 depth res first program var_name line hfirst e hassign =>
    obtain ⟨hne, hvar, -⟩ := hlines first List.mem_cons_self
    obtain ⟨-, hcontent, rest, rfl⟩ := firstToken_ok hne hfirst
    exact hassign ▸ hvar var_name rest hcontent
  | case4 depth res first program var_name line hfirst transform hassign ih =>
    exact ih (List.forall_mem_cons.1 hlines).2
  | case5 depth res first program line hfirst e hfor =>
    obtain ⟨hne, -, hread⟩ := hlines first List.mem_cons_self
    obtain ⟨-, hcontent, rest, rfl⟩ := firstToken_ok hne hfirst
    obtain ⟨msg, rfl⟩ := hread rest hcontent e hfor
    exact throws_error msg
  | case6 depth res first program line hfirst iter_count hfor e hbody =>
    rw [takeBody_eq fun line hmem ↦ (hlines line (List.mem_cons_of_mem _ hmem)).1] at hbody
    cases hbody
  | case7 depth res first program line hfirst iter_count hfor rest hbody => exact throws_error _
  | case8 depth res first program line hfirst iter_count hfor subprogram rest hbody hne e hsub
      ih =>
    rw [takeBody_eq fun line hmem ↦ (hlines line (List.mem_cons_of_mem _ hmem)).1] at hbody
    cases hbody
    have hthrows := ih fun line hmem ↦
      hlines line (List.mem_cons_of_mem _ ((List.takeWhile_sublist _).subset hmem))
    exact hsub ▸ hthrows
  | case9 depth res first program line hfirst iter_count hfor subprogram rest hbody hne body hsub
      ihsub ih =>
    rw [takeBody_eq fun line hmem ↦ (hlines line (List.mem_cons_of_mem _ hmem)).1] at hbody
    cases hbody
    exact ih fun line hmem ↦
      hlines line (List.mem_cons_of_mem _ ((List.dropWhile_sublist _).subset hmem))
  | case10 depth res first program line hfirst ih => exact ih (List.forall_mem_cons.1 hlines).2
  | case11 depth res first program r hvar hfor hnl hfirst => exact throws_error _

/-- The variables of a text have indices. -/
theorem known_of_mem (hsource : source ∈ tokenLines text) :
    ∀ name ∈ names (lineOf source.lexemes), name ∈ gatherVars (tokenize text) := by
  intro name hname
  have hline : source.line ∈ tokenize text := by
    rw [tokenize_eq_map]
    exact List.mem_map_of_mem hsource
  refine mem_gatherVars hline ?_
  rw [SourceLine.line, names, List.flatMap_append]
  exact List.mem_append_right _ hname

theorem run_throws (text : List UInt8) : Throws (run text) := by
  refine Throws.bind ?_ fun transform _ ↦ throws_ok _
  refine calculateFrom_throws _ 0 _ _ fun line hline ↦ ?_
  rw [tokenize_eq_map] at hline
  obtain ⟨source, hsource, rfl⟩ := List.mem_map.1 hline
  exact throwsLine_line (known_of_mem hsource)

/-! ## The ends of the lines -/

/-- There is one token for the end of the line, and it is the last one. -/
def Ended (line : Line) : Prop := ∃ cur_line, line = cur_line ++ [.kNewLine] ∧ .kNewLine ∉ cur_line

theorem newLine_notMem_tokens (lexeme : Lexeme) : .kNewLine ∉ lexeme.tokens := by
  cases lexeme with
  | number digits => simp [Lexeme.tokens]
  | word name =>
    obtain ⟨-, htoken⟩ | ⟨-, htoken⟩ := wordToken_cases name
    · simp [Lexeme.tokens, htoken]
    · simp [Lexeme.tokens, htoken]
  | symbol symbol => simp [Lexeme.tokens]
  | assign op =>
    cases op with
    | _ => simp [Lexeme.tokens]
  | bad symbol => simp [Lexeme.tokens]

theorem ended_of_mem_tokenize {text : List UInt8} {line : Line} (h : line ∈ tokenize text) :
    Ended line := by
  obtain ⟨source, -, cur_line, hcur, -, rfl⟩ := exists_of_mem_tokenize h
  refine ⟨cur_line, rfl, ?_⟩
  rw [hcur, List.mem_append, List.mem_replicate, tokensOf, List.mem_flatMap]
  rintro (⟨-, htab⟩ | ⟨lexeme, -, htoken⟩)
  · cases htab
  · exact newLine_notMem_tokens lexeme htoken

/-- **Whatever the text is, no token is read past the end of a line**: the last token of a line is
the only one for its end, and `Get` is never called behind it.  Every variable is found, and the
parser comes to an end. -/
theorem run_safe (text : List UInt8) :
    (∀ line ∈ tokenize text, Ended line) ∧ run text ≠ .error .pastEnd ∧
      run text ≠ .error .outOfRange ∧
      run text ≠ .error .outOfFuel := by
  refine ⟨fun line hline ↦ ended_of_mem_tokenize hline, fun h ↦ ?_, fun h ↦ ?_, fun h ↦ ?_⟩
  · obtain ⟨msg, hmsg⟩ := run_throws text _ h
    cases hmsg
  · obtain ⟨msg, hmsg⟩ := run_throws text _ h
    cases hmsg
  · obtain ⟨msg, hmsg⟩ := run_throws text _ h
    cases hmsg

/-! ## The language and what is accepted -/

/-- No product in the text has variables in both of its factors. -/
def Separated (text : List UInt8) : Prop :=
  ∀ source ∈ sourceLines text, separatedLine (gatherVars (tokenize text)) source.lexemes = true

instance (text : List UInt8) : Decidable (Separated text) :=
  inferInstanceAs (Decidable (∀ source ∈ sourceLines text, _ = true))

/-- `Run` returns if the text is a program, and otherwise there is an exception. -/
def Answers (text : List UInt8) : Prop :=
  ((∃ result, run text = .ok result) ↔ InLanguage text)
    ∧ ∀ e, run text = .error e → e.isException = true

/-- The statements are those of the language, and the lines of blanks are of no importance to
their nesting; or there is another statement, and there is one that is not even read loosely, or
the lines that have tokens are not nested. -/
def Agrees (text : List UInt8) : Prop :=
  (∀ source ∈ statementLines text, WellFormed source)
      ∧ (Nested (.upTo 0) ((tokenLines text).map SourceLine.shape)
        ↔ Nested (.upTo 0) ((statementLines text).map SourceLine.shape))
    ∨ (∃ source ∈ statementLines text, ¬ WellFormed source)
      ∧ ((∃ source ∈ statementLines text,
          ¬ ReadLoosely (gatherVars (tokenize text)) source.lexemes)
        ∨ ¬ Nested (.upTo 0) ((tokenLines text).map SourceLine.shape))

theorem mem_tokenLines (hsource : source ∈ statementLines text) : source ∈ tokenLines text := by
  obtain ⟨hmem, hne⟩ := List.mem_filter.1 hsource
  exact List.mem_filter.2 ⟨hmem, decide_eq_true (Or.inr (of_decide_eq_true hne))⟩

theorem run_ok_iff_tokenLines (text : List UInt8) :
    (∃ result, run text = .ok result)
      ↔ (∀ source ∈ tokenLines text, Taken (gatherVars (tokenize text)) source.line)
        ∧ Nested (.upTo 0) ((tokenLines text).map SourceLine.shape) := by
  have hshape : (tokenize text).map shape = (tokenLines text).map SourceLine.shape := by
    rw [tokenize_eq_map, List.map_map]
    exact List.map_congr_left fun source _ ↦ shape_line source
  have hlines (P : Line → Prop) : (∀ line ∈ tokenize text, P line)
      ↔ ∀ source ∈ tokenLines text, P source.line := by
    rw [tokenize_eq_map, List.forall_mem_map]
  rw [run_ok_iff, hshape, hlines]

/-- **The texts `Run` accepts.** -/
theorem run_ok_iff_readLoosely (hseparated : Separated text) :
    (∃ result, run text = .ok result)
      ↔ (∀ source ∈ statementLines text,
          ReadLoosely (gatherVars (tokenize text)) source.lexemes)
        ∧ Nested (.upTo 0) ((tokenLines text).map SourceLine.shape) := by
  have htaken (source : SourceLine) (hsource : source ∈ tokenLines text) :
      Taken (gatherVars (tokenize text)) source.line
        ↔ ReadLoosely (gatherVars (tokenize text)) source.lexemes :=
    taken_line_iff (gatherVars_nodup _) (known_of_mem hsource)
      (hseparated source (List.mem_filter.1 hsource).1)
  rw [run_ok_iff_tokenLines]
  refine and_congr_left fun _ ↦ ?_
  constructor
  · intro h source hsource
    exact (htaken source (mem_tokenLines hsource)).1 (h source (mem_tokenLines hsource))
  · intro h source hsource
    refine (htaken source hsource).2 ?_
    -- a line without a statement is read in any case
    by_cases hblank : source.lexemes = []
    · rw [hblank]
      trivial
    · exact h source (List.mem_filter.2 ⟨(List.mem_filter.1 hsource).1, decide_eq_true hblank⟩)

/-- **Where `Run` and the language agree.** -/
theorem answers_iff (text : List UInt8) (hseparated : Separated text) :
    Answers text ↔ Agrees text := by
  have hexception : ∀ e, run text = .error e → e.isException = true := by
    intro e he
    obtain ⟨msg, rfl⟩ := run_throws text e he
    rfl
  rw [Answers, and_iff_left hexception, run_ok_iff_readLoosely hseparated, inLanguage_iff, Agrees]
  by_cases hwell : ∀ source ∈ statementLines text, WellFormed source
  · have hread : ∀ source ∈ statementLines text,
        ReadLoosely (gatherVars (tokenize text)) source.lexemes := fun source hsource ↦
      readLoosely_of_wellFormed (known_of_mem (mem_tokenLines hsource)) (hwell source hsource)
    rw [and_iff_right hread, and_iff_right hwell, and_iff_right hwell]
    refine (or_iff_left ?_).symm
    rintro ⟨⟨source, hsource, hnot⟩, -⟩
    exact hnot (hwell source hsource)
  · have hnot (P : SourceLine → Prop) : (∃ source ∈ statementLines text, ¬ P source)
        ↔ ¬ ∀ source ∈ statementLines text, P source := by
      simp only [not_forall, exists_prop]
    have hprogram : ¬ ((∀ source ∈ statementLines text, WellFormed source)
        ∧ Nested (.upTo 0) ((statementLines text).map SourceLine.shape)) := fun h ↦ hwell h.1
    rw [or_iff_right fun h ↦ hwell h.1, hnot, hnot, and_iff_right hwell, iff_false_right hprogram,
      not_and_or]

end

/-- The text `a=1+`. -/
def missingText : List UInt8 := [97, 61, 49, 43]

theorem answers_iff_missingText :
    Separated missingText ∧ (Answers missingText ↔ Agrees missingText) := by
  have hseparated : Separated missingText := by decide +kernel
  exact ⟨hseparated, answers_iff missingText hseparated⟩

/-- An operand is missing, and `Run` returns. -/
theorem not_answers_missingText : Separated missingText ∧ ¬ Answers missingText := by
  refine ⟨by decide +kernel, fun h ↦ ?_⟩
  have hsome : (run missingText).toOption.isSome = true := by decide +kernel
  have hlines : statementLines missingText
      = [⟨0, [.word [97], .assign .set, .number [49], .symbol 43]⟩] := by decide +kernel
  have hok : ∃ result, run missingText = .ok result := by
    cases hrun : run missingText with
    | error e =>
      rw [hrun] at hsome
      cases hsome
    | ok result => exact ⟨result, rfl⟩
  have hprogram := (h.1.1 hok).nested.1
  rw [hlines] at hprogram
  obtain ⟨⟨-, hline | ⟨digits, hline⟩⟩, -⟩ := hprogram _ (List.mem_singleton_self _)
  · cases hline with
    | expr hname hop hexpr =>
      have hscan := (Lib.arith_iff _).1 hexpr
      revert hscan
      decide
  · cases hline

end Matrix3
end ManyTasks
