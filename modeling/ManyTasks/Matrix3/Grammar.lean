import ManyTasks.Lib.Arith
import ManyTasks.Matrix3.Nesting

/-!
# What the parser takes for an expression

Parsing looks at an expression in the way `Lib.scan` does if it is loose: an operand that is not
there is no error.  `parser_scans` says that the three constructors and the two loops agree with
it: where they return, the scan of the rest is what the scan of the whole was, and where they throw
it fails.  Therefore an expression is read up to the end of its line exactly if its parentheses
balance and no two of its operands stand side by side (`sumCtor_ok_iff`).
-/

set_option autoImplicit false

namespace ManyTasks
namespace Matrix3

/-! ## Pieces and names -/

/-- What a sign is in an expression. -/
def symbolPiece (symbol : UInt8) : Lib.Piece :=
  if symbol = '-'.toUInt8 then .minus
  else if symbol = '+'.toUInt8 ∨ symbol = '*'.toUInt8 then .operator
  else if symbol = '('.toUInt8 then .left
  else if symbol = ')'.toUInt8 then .right
  else .other

def Token.piece : Token → Lib.Piece
  | .kNumber _ | .kVar _ => .operand
  | .kSymbol symbol => symbolPiece symbol
  | _ => .other

/-- A line up to its end. -/
def pieces (line : Line) : List Lib.Piece := (line.takeWhile (· != .kNewLine)).map Token.piece

def Token.names : Token → List Name
  | .kVar var_name => [var_name]
  | _ => []

/-- The variables on a line. -/
def names (line : Line) : List Name := line.flatMap Token.names

/-- The variables in an expression. -/
def Expression.names : Expression → List Name
  | .empty | .number _ => []
  | .var var_name => [var_name]
  | .neg e | .paren e => e.names
  | .mul l r | .add l r | .sub l r => l.names ++ r.names

theorem pieces_cons {token : Token} (h : token ≠ .kNewLine) (line : Line) :
    pieces (token :: line) = token.piece :: pieces line := by
  have hne : (token != .kNewLine) = true := bne_iff_ne.2 h
  rw [pieces, List.takeWhile_cons, if_pos hne]
  rfl

@[simp] theorem pieces_number (number : UInt64) (line : Line) :
    pieces (.kNumber number :: line) = .operand :: pieces line := rfl

@[simp] theorem pieces_var (var_name : Name) (line : Line) :
    pieces (.kVar var_name :: line) = .operand :: pieces line := rfl

@[simp] theorem pieces_symbol (symbol : UInt8) (line : Line) :
    pieces (.kSymbol symbol :: line) = symbolPiece symbol :: pieces line := rfl

@[simp] theorem pieces_eqv (line : Line) : pieces (.kEqv :: line) = .other :: pieces line := rfl

@[simp] theorem pieces_for (line : Line) : pieces (.kFor :: line) = .other :: pieces line := rfl

@[simp] theorem pieces_badToken (line : Line) :
    pieces (.kBadToken :: line) = .other :: pieces line := rfl

theorem names_cons (token : Token) (line : Line) :
    names (token :: line) = token.names ++ names line := List.flatMap_cons

theorem mem_rest {token : Token} {line : Line} (hend : .kNewLine ∈ token :: line)
    (h : token ≠ .kNewLine) : .kNewLine ∈ line :=
  (List.mem_cons.1 hend).resolve_left h.symm

/-! ## Parsing is scanning -/

/-- There is none of these signs at the cursor. -/
def Stops (signs : List UInt8) (line : Line) : Prop :=
  ∀ sign ∈ signs, line.head? ≠ some (.kSymbol sign)

/-- What is read from a cursor is what a loose scan takes for one operand, or, if there is one
already, for the rest of an expression. -/
def Scans (after : Bool) (read : List Name) (line : Line) (signs : List UInt8) :
    Except Error (Expression × Line) → Prop
  | .ok (e, rest) =>
    (∀ depth, Lib.scan true after depth (pieces line) = Lib.scan true true depth (pieces rest))
      ∧ read ++ names line = e.names ++ names rest ∧ .kNewLine ∈ rest ∧ Stops signs rest
  | .error e =>
    e = .outOfFuel ∨ (∃ msg, e = .matrixException msg)
      ∧ ∀ depth, Lib.scan true after depth (pieces line) = false

/-- An operand is read, and then what comes after it. -/
theorem Scans.bind {after : Bool} {read : List Name} {line next : Line} {signs signs' : List UInt8}
    {x : Except Error (Expression × Line)}
    {f : Expression × Line → Except Error (Expression × Line)} (hx : Scans false [] next signs x)
    (hline : ∀ depth, Lib.scan true after depth (pieces line)
      = Lib.scan true false depth (pieces next)) (hnames : names line = names next)
    (hf : ∀ e rest, .kNewLine ∈ rest → names next = e.names ++ names rest → Stops signs rest →
      Scans true (read ++ e.names) rest signs' (f (e, rest))) :
    Scans after read line signs' (x >>= f) := by
  cases x with
  | error e =>
    obtain rfl | ⟨hmsg, hfail⟩ := hx
    · exact Or.inl rfl
    · exact Or.inr ⟨hmsg, fun depth ↦ (hline depth).trans (hfail depth)⟩
  | ok res =>
    obtain ⟨e, rest⟩ := res
    obtain ⟨hscan, hread, hend, hstops⟩ := hx
    replace hscan (depth : ℕ) := (hline depth).trans (hscan depth)
    replace hf := hf e rest hend hread hstops
    rw [Lib.ok_bind]
    cases hres : f (e, rest) with
    | error err =>
      rw [hres] at hf
      obtain rfl | ⟨hmsg, hfail⟩ := hf
      · exact Or.inl rfl
      · exact Or.inr ⟨hmsg, fun depth ↦ (hscan depth).trans (hfail depth)⟩
    | ok res =>
      rw [hres] at hf
      obtain ⟨hscan', hread', hrest⟩ := hf
      refine ⟨fun depth ↦ (hscan depth).trans (hscan' depth), ?_, hrest⟩
      rw [← hread', List.append_assoc, hnames, ← hread]
      rfl

theorem stops_nil (line : Line) : Stops [] line := nofun

theorem symbolPiece_cases {symbol : UInt8} (hminus : symbol ≠ '-'.toUInt8)
    (hleft : symbol ≠ '('.toUInt8) :
    symbolPiece symbol = .operator ∨ symbolPiece symbol = .right ∨ symbolPiece symbol = .other := by
  rw [symbolPiece, if_neg hminus, if_neg hleft]
  split_ifs
  · exact Or.inl rfl
  · exact Or.inr (Or.inl rfl)
  · exact Or.inr (Or.inr rfl)

/-- Without an operand, the scan goes on as if there were one. -/
theorem scan_missing {piece : Lib.Piece} (h : piece = .operator ∨ piece = .right ∨ piece = .other)
    (depth : ℕ) (rest : List Lib.Piece) :
    Lib.scan true false depth (piece :: rest) = Lib.scan true true depth (piece :: rest) := by
  obtain rfl | rfl | rfl := h
  · rfl
  · cases depth with
    | zero => rfl
    | succ depth => rfl
  · rfl

/-- No operator goes on with what is neither an operand nor an operator. -/
theorem scan_stop {token : Token} {line : Line}
    (hstops : Stops ['*'.toUInt8, '+'.toUInt8, '-'.toUInt8] (token :: line))
    (hend : token ≠ .kNewLine) (hright : token ≠ .kSymbol ')'.toUInt8) (depth : ℕ) :
    Lib.scan true true depth (pieces (token :: line)) = false := by
  rw [pieces_cons hend]
  cases token with
  | kSymbol symbol =>
    have hne (sign : UInt8) (hsign : sign ∈ ['*'.toUInt8, '+'.toUInt8, '-'.toUInt8]) :
        symbol ≠ sign := fun heq ↦ hstops sign hsign (congrArg (some <| Token.kSymbol ·) heq)
    rw [Token.piece, symbolPiece, if_neg (hne _ (by decide)), if_neg]
    · split
      · rfl
      · rw [if_neg fun heq ↦ hright (congrArg Token.kSymbol heq)]
        rfl
    · exact not_or.2 ⟨hne _ (by decide), hne _ (by decide)⟩
  | kNewLine => exact absurd rfl hend
  | _ => rfl

/-- An expression in parentheses is an operand. -/
theorem scans_paren {line : Line} {x : Except Error (Expression × Line)}
    (hx : Scans false [] line ['*'.toUInt8, '+'.toUInt8, '-'.toUInt8] x) :
    Scans false [] (.kSymbol '('.toUInt8 :: line) [] (do
      let (sum_, line) ← x
      if (← line.get) ≠ .kSymbol ')'.toUInt8 then throw (.matrixException "Wrong symbol")
      let line ← line.next
      return (.paren sum_, line)) := by
  cases x with
  | error e =>
    obtain rfl | ⟨hmsg, hfail⟩ := hx
    · exact Or.inl rfl
    · exact Or.inr ⟨hmsg, fun depth ↦ hfail (depth + 1)⟩
  | ok res =>
    obtain ⟨e, rest⟩ := res
    obtain ⟨hscan, hread, hend, hstops⟩ := hx
    cases rest with
    | nil => cases hend
    | cons token rest =>
      by_cases hright : token = .kSymbol ')'.toUInt8
      · subst hright
        exact ⟨fun depth ↦ hscan (depth + 1), hread, mem_rest hend nofun, stops_nil _⟩
      · have hthrow : (do
            if (← Line.get (token :: rest)) ≠ .kSymbol ')'.toUInt8 then
              throw (.matrixException "Wrong symbol")
            let line ← Line.next (token :: rest)
            return (.paren e, line) : Except Error (Expression × Line))
              = .error (.matrixException "Wrong symbol") := by
          rw [Line.get_cons, Lib.ok_bind, if_pos hright]
          rfl
        refine hthrow ▸ Or.inr ⟨⟨_, rfl⟩, fun depth ↦ (hscan (depth + 1)).trans ?_⟩
        by_cases hnl : token = .kNewLine
        · subst hnl
          rfl
        · exact scan_stop hstops hnl hright (depth + 1)

/-- The parser scans whatever line has its end, and no name that it does not know. -/
def ScansLines (vars : List Name) (after : Bool) (read : List Name) (signs : List UInt8)
    (parse : Line → Except Error (Expression × Line)) : Prop :=
  ∀ line, .kNewLine ∈ line → (∀ name ∈ names line, name ∈ vars) →
    Scans after read line signs (parse line)

/-- `ScansLines` for the loop of a sum, which begins after a product. -/
def ScansSum (vars : List Name) (fuel : ℕ) : Prop :=
  ∀ e line, .kNewLine ∈ line → (∀ name ∈ names line, name ∈ vars) → Stops ['*'.toUInt8] line →
    Scans true e.names line ['*'.toUInt8, '+'.toUInt8, '-'.toUInt8] (sumLoop vars fuel e line)

section

variable {vars : List Name} {fuel : ℕ}

/-- The names that are left after an operand are known. -/
theorem known_rest {line rest : Line} {e : Expression} (hknown : ∀ name ∈ names line, name ∈ vars)
    (hread : names line = e.names ++ names rest) : ∀ name ∈ names rest, name ∈ vars :=
  fun name hname ↦ hknown name (hread ▸ List.mem_append_right _ hname)

theorem scans_constantFrom (hconst : ScansLines vars false [] [] (constantFrom vars fuel))
    (hsum : ScansLines vars false [] ['*'.toUInt8, '+'.toUInt8, '-'.toUInt8] (sumFrom vars fuel)) :
    ScansLines vars false [] [] (constantFrom vars (fuel + 1)) := by
  intro line hend hknown
  rw [constantFrom]
  cases line with
  | nil => cases hend
  | cons token line =>
    cases token with
    | kNumber number => exact ⟨fun depth ↦ rfl, rfl, mem_rest hend (by simp), stops_nil _⟩
    | kVar name =>
      obtain ⟨j, hj⟩ := varAt_of_mem (hknown name List.mem_cons_self)
      rw [Line.get_cons, Lib.ok_bind]
      dsimp only
      rw [hj]
      exact ⟨fun depth ↦ rfl, rfl, mem_rest hend (by simp), stops_nil _⟩
    | kNewLine | kFor | kEqv | kTab | kBadToken | kEnd =>
      exact ⟨fun depth ↦ rfl, rfl, hend, stops_nil _⟩
    | kSymbol symbol =>
      have hline := mem_rest hend (by simp)
      simp only [Line.get_cons, Lib.ok_bind, Line.next_cons]
      split_ifs with hminus hleft
      · subst hminus
        refine (hconst line hline hknown).bind (fun depth ↦ rfl) rfl
          fun e rest hend hread hstops ↦ ?_
        exact ⟨fun depth ↦ rfl, rfl, hend, hstops⟩
      · subst hleft
        exact scans_paren (hsum line hline hknown)
      · refine ⟨fun depth ↦ ?_, rfl, hend, stops_nil _⟩
        exact scan_missing (symbolPiece_cases hminus hleft) depth _

theorem scans_mulFrom (hconst : ScansLines vars false [] [] (constantFrom vars fuel))
    (hloop : ∀ e : Expression, ScansLines vars true e.names ['*'.toUInt8] (mulLoop vars fuel e)) :
    ScansLines vars false [] ['*'.toUInt8] (mulFrom vars (fuel + 1)) := by
  intro line hend hknown
  rw [mulFrom]
  refine (hconst line hend hknown).bind (fun depth ↦ rfl) rfl fun e rest hend hread hstops ↦ ?_
  exact hloop e rest hend (known_rest hknown hread)

theorem scans_mulLoop (hconst : ScansLines vars false [] [] (constantFrom vars fuel))
    (hloop : ∀ e : Expression, ScansLines vars true e.names ['*'.toUInt8] (mulLoop vars fuel e))
    (e : Expression) :
    ScansLines vars true e.names ['*'.toUInt8] (mulLoop vars (fuel + 1) e) := by
  intro line hend hknown
  rw [mulLoop]
  cases line with
  | nil => cases hend
  | cons token line =>
    simp only [Line.get_cons, Lib.ok_bind, Line.next_cons]
    split_ifs with htimes
    · subst htimes
      refine (hconst line (mem_rest hend (by simp)) hknown).bind (fun depth ↦ rfl) rfl
        fun other rest hend hread hstops ↦ ?_
      exact hloop (.mul e other) rest hend (known_rest hknown hread)
    · refine ⟨fun depth ↦ rfl, rfl, hend, List.forall_mem_singleton.2 ?_⟩
      exact fun heq ↦ htimes (Option.some.inj heq)

theorem scans_sumFrom (hmul : ScansLines vars false [] ['*'.toUInt8] (mulFrom vars fuel))
    (hloop : ScansSum vars fuel) :
    ScansLines vars false [] ['*'.toUInt8, '+'.toUInt8, '-'.toUInt8] (sumFrom vars (fuel + 1)) := by
  intro line hend hknown
  rw [sumFrom]
  refine (hmul line hend hknown).bind (fun depth ↦ rfl) rfl fun e rest hend hread hstops ↦ ?_
  exact hloop e rest hend (known_rest hknown hread) hstops

theorem scans_sumLoop (hmul : ScansLines vars false [] ['*'.toUInt8] (mulFrom vars fuel))
    (hloop : ScansSum vars fuel) : ScansSum vars (fuel + 1) := by
  intro e line hend hknown hstops
  rw [sumLoop]
  cases line with
  | nil => cases hend
  | cons token line =>
    simp only [Line.get_cons, Lib.ok_bind, Line.next_cons]
    split_ifs with hplus hminus
    · subst hplus
      refine (hmul line (mem_rest hend (by simp)) hknown).bind (fun depth ↦ rfl) rfl
        fun other rest hend hread hstops ↦ ?_
      exact hloop (.add e other) rest hend (known_rest hknown hread) hstops
    · subst hminus
      refine (hmul line (mem_rest hend (by simp)) hknown).bind (fun depth ↦ rfl) rfl
        fun other rest hend hread hstops ↦ ?_
      exact hloop (.sub e other) rest hend (known_rest hknown hread) hstops
    · refine ⟨fun depth ↦ rfl, rfl, hend, List.forall_mem_cons.2 ⟨?_, List.forall_mem_cons.2
        ⟨?_, List.forall_mem_singleton.2 ?_⟩⟩⟩
      · exact hstops _ List.mem_cons_self
      · exact fun heq ↦ hplus (Option.some.inj heq)
      · exact fun heq ↦ hminus (Option.some.inj heq)

end

/-- **The parser scans.** -/
theorem parser_scans (vars : List Name) (fuel : ℕ) :
    ScansLines vars false [] [] (constantFrom vars fuel) ∧
      ScansLines vars false [] ['*'.toUInt8] (mulFrom vars fuel) ∧
      (∀ e : Expression, ScansLines vars true e.names ['*'.toUInt8] (mulLoop vars fuel e)) ∧
      ScansLines vars false [] ['*'.toUInt8, '+'.toUInt8, '-'.toUInt8] (sumFrom vars fuel) ∧
      ScansSum vars fuel := by
  induction fuel with
  | zero => exact ⟨fun _ _ _ ↦ Or.inl rfl, fun _ _ _ ↦ Or.inl rfl, fun _ _ _ _ ↦ Or.inl rfl,
      fun _ _ _ ↦ Or.inl rfl, fun _ _ _ _ _ ↦ Or.inl rfl⟩
  | succ fuel ih =>
    obtain ⟨hconst, hmul, hmulLoop, hsum, hsumLoop⟩ := ih
    exact ⟨scans_constantFrom hconst hsum, scans_mulFrom hconst hmulLoop,
      scans_mulLoop hconst hmulLoop, scans_sumFrom hmul hsumLoop, scans_sumLoop hmul hsumLoop⟩

section

variable {vars : List Name} {line : Line}

/-- Parsing up to the end of a line, where it succeeds and where it does not. -/
theorem sumCtor_cases (hend : .kNewLine ∈ line) (hknown : ∀ name ∈ names line, name ∈ vars) :
    (Lib.scan true false 0 (pieces line) = true
        ∧ ∃ e rest, sumCtor vars line = .ok (e, .kNewLine :: rest)
          ∧ names line = e.names ++ names rest)
      ∨ (Lib.scan true false 0 (pieces line) = false
        ∧ ((∃ msg, sumCtor vars line = .error (.matrixException msg))
          ∨ ∃ e token rest, sumCtor vars line = .ok (e, token :: rest) ∧ token ≠ .kNewLine
            ∧ names line = e.names ++ names (token :: rest))) := by
  have hscans := (parser_scans vars (3 * line.length + 3)).2.2.2.1 line hend hknown
  rw [← sumCtor] at hscans
  cases hsum : sumCtor vars line with
  | error e =>
    rw [hsum] at hscans
    obtain rfl | ⟨⟨msg, rfl⟩, hfail⟩ := hscans
    · exact absurd hsum (sumCtor_ne_outOfFuel vars line)
    · exact Or.inr ⟨hfail 0, Or.inl ⟨msg, rfl⟩⟩
  | ok res =>
    obtain ⟨e, rest⟩ := res
    rw [hsum] at hscans
    obtain ⟨hscan, hread, hend, hstops⟩ := hscans
    cases rest with
    | nil => cases hend
    | cons token rest =>
      by_cases hnl : token = .kNewLine
      · subst hnl
        exact Or.inl ⟨(hscan 0).trans rfl, e, rest, rfl, hread⟩
      · refine Or.inr ⟨(hscan 0).trans ?_, Or.inr ⟨e, token, rest, rfl, hnl, hread⟩⟩
        by_cases hright : token = .kSymbol ')'.toUInt8
        · subst hright
          rfl
        · exact scan_stop hstops hnl hright 0

end

/-! ## Lexemes -/

/-- The keyword. -/
def forWord : Name := ['f'.toUInt8, 'o'.toUInt8, 'r'.toUInt8]

def Lexeme.piece : Lexeme → Lib.Piece
  | .number _ => .operand
  | .word name => if name = forWord then .other else .operand
  | .symbol c => symbolPiece c
  | .assign _ | .bad _ => .other

/-- A line of lexemes, as the parser sees it. -/
def lineOf (lexemes : List Lexeme) : Line := tokensOf lexemes ++ [.kNewLine]

/-- Lexemes that are an expression, if operands may be missing. -/
def IsLoose (lexemes : List Lexeme) : Prop :=
  Lib.scan true false 0 (lexemes.map Lexeme.piece) = true

instance (lexemes : List Lexeme) : Decidable (IsLoose lexemes) :=
  inferInstanceAs (Decidable (_ = true))

theorem lineOf_cons (lexeme : Lexeme) (lexemes : List Lexeme) :
    lineOf (lexeme :: lexemes) = lexeme.tokens ++ lineOf lexemes := by
  rw [lineOf, tokensOf, List.flatMap_cons, List.append_assoc]
  rfl

theorem mem_lineOf (lexemes : List Lexeme) : .kNewLine ∈ lineOf lexemes :=
  List.mem_append_right _ (List.mem_singleton_self _)

theorem wordToken_cases (name : Name) :
    name = forWord ∧ wordToken name = .kFor ∨ name ≠ forWord ∧ wordToken name = .kVar name := by
  rw [wordToken]
  by_cases hname : name = forWord
  · exact Or.inl ⟨hname, if_pos hname⟩
  · exact Or.inr ⟨hname, if_neg hname⟩

/-- The tokens of a line are scanned as its lexemes are. -/
theorem scan_lineOf (loose after : Bool) (depth : ℕ) (lexemes : List Lexeme) :
    Lib.scan loose after depth (pieces (lineOf lexemes))
      = Lib.scan loose after depth (lexemes.map Lexeme.piece) := by
  induction lexemes generalizing after depth with
  | nil => rfl
  | cons lexeme lexemes ih =>
    rw [lineOf_cons, List.map_cons]
    cases lexeme with
    | number digits =>
      rw [Lexeme.tokens, List.singleton_append, pieces_number]
      exact congrArg (!after && ·) (ih true depth)
    | word name =>
      rw [Lexeme.tokens, List.singleton_append, Lexeme.piece]
      obtain ⟨hname, htoken⟩ | ⟨hname, htoken⟩ := wordToken_cases name
      · rw [htoken, pieces_for, if_pos hname]
        rfl
      · rw [htoken, pieces_var, if_neg hname]
        exact congrArg (!after && ·) (ih true depth)
    | symbol symbol =>
      rw [Lexeme.tokens, List.singleton_append, pieces_symbol, Lexeme.piece]
      cases symbolPiece symbol with
      | operand => exact congrArg (!after && ·) (ih true depth)
      | minus => exact ih false depth
      | operator => exact congrArg ((after || loose) && ·) (ih false depth)
      | left => exact congrArg (!after && ·) (ih false (depth + 1))
      | right =>
        cases depth with
        | zero => rfl
        | succ depth => exact congrArg ((after || loose) && ·) (ih true depth)
      | other => rfl
    | assign op =>
      -- the `=` fails, if the sign before it does not
      have heqv (after : Bool) :
          Lib.scan loose after depth (pieces (.kEqv :: lineOf lexemes)) = false := rfl
      cases op with
      | set => exact heqv after
      | minus => exact heqv false
      | plus | times =>
        exact (congrArg ((after || loose) && ·) (heqv false)).trans (Bool.and_false _)
    | bad symbol => rfl

theorem mem_names_tokens (lexeme : Lexeme) (name : Name) :
    name ∈ names lexeme.tokens ↔ name ≠ forWord ∧ lexeme = .word name := by
  cases lexeme with
  | word name' =>
    rw [Lexeme.tokens]
    obtain ⟨hname, htoken⟩ | ⟨hname, htoken⟩ := wordToken_cases name'
    · rw [htoken]
      refine iff_of_false nofun fun h ↦ h.1 ?_
      rw [← hname, Lexeme.word.inj h.2]
    · rw [htoken]
      constructor
      · intro hmem
        cases List.mem_singleton.1 hmem
        exact ⟨hname, rfl⟩
      · rintro ⟨-, heq⟩
        cases heq
        exact List.mem_singleton_self _
  | assign op =>
    refine iff_of_false (fun h ↦ ?_) fun h ↦ Lexeme.noConfusion h.2
    cases op with
    | _ => cases h
  | number | symbol | bad => exact iff_of_false nofun fun h ↦ Lexeme.noConfusion h.2

/-- The variables on a line are its words. -/
theorem mem_names_lineOf {lexemes : List Lexeme} {name : Name} :
    name ∈ names (lineOf lexemes) ↔ name ≠ forWord ∧ .word name ∈ lexemes := by
  induction lexemes with
  | nil => exact iff_of_false nofun nofun
  | cons lexeme lexemes ih =>
    have hcons : names (lineOf (lexeme :: lexemes))
        = names lexeme.tokens ++ names (lineOf lexemes) := by
      rw [lineOf_cons]
      exact List.flatMap_append
    rw [hcons, List.mem_append, mem_names_tokens, ih, ← and_or_left, List.mem_cons, eq_comm]

/-! ## Assignments -/

/-- What is assigned, and how.  The sign need not stand directly before the `=`. -/
def splitAssign : List Lexeme → Option (AssignOp × List Lexeme)
  | .assign op :: expr => some (op, expr)
  | .symbol symbol :: .assign .set :: expr => (compound symbol).map (·, expr)
  | _ => none

theorem eq_of_compound {symbol : UInt8} {op : AssignOp} (h : compound symbol = some op) :
    symbol = '+'.toUInt8 ∧ op = .plus ∨ symbol = '-'.toUInt8 ∧ op = .minus
      ∨ symbol = '*'.toUInt8 ∧ op = .times := by
  rw [compound] at h
  split_ifs at h with hplus hminus htimes
  · exact Or.inl ⟨hplus, (Option.some.inj h).symm⟩
  · exact Or.inr (Or.inl ⟨hminus, (Option.some.inj h).symm⟩)
  · exact Or.inr (Or.inr ⟨htimes, (Option.some.inj h).symm⟩)

theorem ne_of_compound {symbol : UInt8} (h : compound symbol = none) :
    symbol ≠ '+'.toUInt8 ∧ symbol ≠ '-'.toUInt8 ∧ symbol ≠ '*'.toUInt8 := by
  refine ⟨?_, ?_, ?_⟩
  · rintro rfl
    exact absurd h (by decide)
  · rintro rfl
    exact absurd h (by decide)
  · rintro rfl
    exact absurd h (by decide)

/-- The `=` is there, or something else. -/
theorem lineOf_eqv (lexemes : List Lexeme) : (∃ expr, lexemes = .assign .set :: expr)
    ∨ ∃ token rest, lineOf lexemes = token :: rest ∧ token ≠ .kEqv := by
  cases lexemes with
  | nil => exact Or.inr ⟨.kNewLine, [], rfl, nofun⟩
  | cons lexeme lexemes =>
    rw [lineOf_cons]
    cases lexeme with
    | number digits => exact Or.inr ⟨_, _, rfl, nofun⟩
    | word name =>
      refine Or.inr ⟨wordToken name, _, rfl, ?_⟩
      obtain ⟨-, htoken⟩ | ⟨-, htoken⟩ := wordToken_cases name
      · rw [htoken]
        exact nofun
      · rw [htoken]
        exact nofun
    | symbol symbol => exact Or.inr ⟨_, _, rfl, nofun⟩
    | assign op =>
      cases op with
      | set => exact Or.inl ⟨lexemes, rfl⟩
      | plus | minus | times => exact Or.inr ⟨_, _, rfl, nofun⟩
    | bad symbol => exact Or.inr ⟨_, _, rfl, nofun⟩

theorem readAssignOp_eqv {symbol : UInt8} {op : AssignOp} (h : compound symbol = some op)
    (line : Line) : readAssignOp (.kSymbol symbol :: .kEqv :: line) = .ok (op, line) := by
  obtain ⟨rfl, rfl⟩ | ⟨rfl, rfl⟩ | ⟨rfl, rfl⟩ := eq_of_compound h
  · rfl
  · rfl
  · rfl

/-- After a sign there is only `=`. -/
theorem readAssignOp_miss (symbol : UInt8) {token : Token} (htoken : token ≠ .kEqv) (line : Line) :
    ∃ msg, readAssignOp (.kSymbol symbol :: token :: line) = .error (.matrixException msg) := by
  have hmiss (op : AssignOp) : (do
      if (← Line.get (token :: line)) ≠ .kEqv then throw (.matrixException "Miss equation")
      return (op, ← Line.next (token :: line)) : Except Error (AssignOp × Line))
        = .error (.matrixException "Miss equation") := by
    rw [Line.get_cons, Lib.ok_bind, if_pos htoken]
    rfl
  cases h : compound symbol with
  | none =>
    obtain ⟨hplus, hminus, htimes⟩ := ne_of_compound h
    refine ⟨"Wrong equation", ?_⟩
    rw [readAssignOp, Line.get_cons, Lib.ok_bind]
    dsimp only
    rw [if_neg hplus, if_neg hminus, if_neg htimes]
    rfl
  | some op =>
    refine ⟨"Miss equation", ?_⟩
    obtain ⟨rfl, -⟩ | ⟨rfl, -⟩ | ⟨rfl, -⟩ := eq_of_compound h
    · exact hmiss .plus
    · exact hmiss .minus
    · exact hmiss .times

theorem readAssignOp_lineOf {lexemes expr : List Lexeme} {op : AssignOp}
    (h : splitAssign lexemes = some (op, expr)) :
    readAssignOp (lineOf lexemes) = .ok (op, lineOf expr) := by
  unfold splitAssign at h
  split at h
  · cases h
    cases op with
    | _ => rfl
  · obtain ⟨op', hop, h⟩ := Option.map_eq_some_iff.1 h
    cases h
    exact readAssignOp_eqv hop _
  · cases h

theorem readAssignOp_error {lexemes : List Lexeme} (h : splitAssign lexemes = none) :
    ∃ msg, readAssignOp (lineOf lexemes) = .error (.matrixException msg) := by
  have hmiss {token : Token} (line : Line) (hsymbol : ∀ symbol, token ≠ .kSymbol symbol)
      (heqv : token ≠ .kEqv) :
      readAssignOp (token :: line) = .error (.matrixException "Miss equation") := by
    rw [readAssignOp, Line.get_cons, Lib.ok_bind]
    cases token with
    | kSymbol symbol => exact absurd rfl (hsymbol symbol)
    | kEqv => exact absurd rfl heqv
    | _ => rfl
  cases lexemes with
  | nil => exact ⟨_, hmiss [] nofun nofun⟩
  | cons lexeme lexemes =>
    rw [lineOf_cons]
    cases lexeme with
    | number digits => exact ⟨_, hmiss _ nofun nofun⟩
    | word name =>
      rw [Lexeme.tokens]
      obtain ⟨-, htoken⟩ | ⟨-, htoken⟩ := wordToken_cases name
      · rw [htoken]
        exact ⟨_, hmiss _ nofun nofun⟩
      · rw [htoken]
        exact ⟨_, hmiss _ nofun nofun⟩
    | assign op => cases h
    | bad symbol => exact ⟨_, hmiss _ nofun nofun⟩
    | symbol symbol =>
      rw [Lexeme.tokens, List.singleton_append]
      obtain ⟨expr, rfl⟩ | ⟨token, rest, hline, htoken⟩ := lineOf_eqv lexemes
      · have hnone : compound symbol = none := Option.map_eq_none_iff.1 h
        obtain ⟨hplus, hminus, htimes⟩ := ne_of_compound hnone
        refine ⟨"Wrong equation", ?_⟩
        rw [readAssignOp, Line.get_cons, Lib.ok_bind]
        dsimp only
        rw [if_neg hplus, if_neg hminus, if_neg htimes]
        rfl
      · rw [hline]
        exact readAssignOp_miss symbol htoken rest

/-- The tree of an expression that ends its line. -/
def parseExpr (vars : List Name) (lexemes : List Lexeme) : Except Error Expression := do
  let (expr, line) ← sumCtor vars (lineOf lexemes)
  if (← line.get) ≠ .kNewLine then throw (.matrixException "Wrong expression")
  return expr

/-- It throws a `MatrixException`, if it does not return. -/
def Throws {α : Type} (x : Except Error α) : Prop :=
  ∀ e, x = .error e → ∃ msg, e = .matrixException msg

theorem throws_ok {α : Type} (a : α) : Throws (.ok a) := nofun

theorem throws_error {α : Type} (msg : String) :
    Throws (.error (.matrixException msg) : Except Error α) :=
  fun _ he ↦ ⟨msg, (Except.error.inj he).symm⟩

theorem Throws.bind {α β : Type} {x : Except Error α} {f : α → Except Error β} (hx : Throws x)
    (hf : ∀ a, x = .ok a → Throws (f a)) : Throws (x >>= f) := by
  cases x with
  | error e =>
    obtain ⟨msg, rfl⟩ := hx e rfl
    exact throws_error msg
  | ok a => exact hf a rfl

section

variable {vars : List Name} {lexemes : List Lexeme} {e : Expression}

/-- The expression has to end with its line. -/
theorem parseExpr_eq {token : Token} {rest : Line}
    (h : sumCtor vars (lineOf lexemes) = .ok (e, token :: rest)) :
    parseExpr vars lexemes
      = if token = .kNewLine then .ok e else .error (.matrixException "Wrong expression") := by
  rw [parseExpr, h, Lib.ok_bind]
  dsimp only
  rw [Line.get_cons, Lib.ok_bind]
  by_cases hnl : token = .kNewLine
  · rw [if_pos hnl, if_neg (not_not.2 hnl)]
    rfl
  · rw [if_neg hnl, if_pos hnl]
    rfl

theorem parseExpr_error {err : Error} (h : sumCtor vars (lineOf lexemes) = .error err) :
    parseExpr vars lexemes = .error err := by
  rw [parseExpr, h]
  rfl

/-- **The expressions that are read**, and nothing is read that is not there. -/
theorem parseExpr_ok_iff (hknown : ∀ name ∈ names (lineOf lexemes), name ∈ vars) :
    (∃ e, parseExpr vars lexemes = .ok e) ↔ IsLoose lexemes := by
  rw [IsLoose, ← scan_lineOf]
  obtain ⟨hscan, e, rest, hsum, -⟩ | ⟨hscan, ⟨msg, hsum⟩ | ⟨e, token, rest, hsum, htoken, -⟩⟩ :=
    sumCtor_cases (mem_lineOf lexemes) hknown
  · rw [parseExpr_eq hsum, if_pos rfl]
    exact iff_of_true ⟨e, rfl⟩ hscan
  · rw [parseExpr_error hsum, hscan]
    exact iff_of_false nofun Bool.false_ne_true
  · rw [parseExpr_eq hsum, if_neg htoken, hscan]
    exact iff_of_false nofun Bool.false_ne_true

theorem parseExpr_ok (h : parseExpr vars lexemes = .ok e) :
    ∃ rest, sumCtor vars (lineOf lexemes) = .ok (e, .kNewLine :: rest) := by
  obtain ⟨⟨expr, line⟩, hsum, hget⟩ := Lib.bind_eq_ok.1 h
  cases line with
  | nil =>
    obtain ⟨token, htoken, -⟩ := Lib.bind_eq_ok.1 hget
    cases htoken
  | cons token line =>
    rw [parseExpr_eq hsum] at h
    split_ifs at h with hnl
    cases h
    exact ⟨line, hnl ▸ hsum⟩

theorem names_of_parseExpr (hknown : ∀ name ∈ names (lineOf lexemes), name ∈ vars)
    (h : parseExpr vars lexemes = .ok e) : ∀ name ∈ e.names, name ∈ names (lineOf lexemes) := by
  obtain ⟨rest, hsum⟩ := parseExpr_ok h
  have hscans := (parser_scans vars (3 * (lineOf lexemes).length + 3)).2.2.2.1 _
    (mem_lineOf lexemes) hknown
  rw [← sumCtor, hsum] at hscans
  have hread : names (lineOf lexemes) = e.names ++ names (.kNewLine :: rest) := hscans.2.1
  exact fun name hname ↦ hread ▸ List.mem_append_left _ hname

end

end Matrix3
end ManyTasks
