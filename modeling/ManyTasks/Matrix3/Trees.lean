import ManyTasks.Matrix3.Language

/-!
# The tree of an expression

`Derives` is the grammar with precedence: a factor, a product of factors, a sum of products.  The
parser goes through the levels in that order, and reads the operands of a level in a loop where the
grammar is left recursive; it finds the tree that the grammar has (`parseExpr_of_derives`).
-/

set_option autoImplicit false

namespace ManyTasks
namespace Matrix3

/-- How tightly an expression is bound. -/
inductive Level where
  | factor
  | product
  | sum
deriving DecidableEq, Repr

/-- The tree of an expression, with the usual precedence. -/
inductive Derives : Level → List Lexeme → Expression → Prop
  | number (digits : List UInt8) : Derives .factor [.number digits]
      (.number (readNumber 0 digits).1)
  | var {var_name : Name} (hname : var_name ≠ forWord) :
    Derives .factor [.word var_name] (.var var_name)
  | neg {es : List Lexeme} {e : Expression} (h : Derives .factor es e) :
    Derives .factor (.symbol '-'.toUInt8 :: es) (.neg e)
  | paren {es : List Lexeme} {e : Expression} (h : Derives .sum es e) :
    Derives .factor (.symbol '('.toUInt8 :: (es ++ [.symbol ')'.toUInt8])) (.paren e)
  | factor {es : List Lexeme} {e : Expression} (h : Derives .factor es e) : Derives .product es e
  | mul {ls rs : List Lexeme} {l r : Expression} (hl : Derives .product ls l)
      (hr : Derives .factor rs r) : Derives .product (ls ++ .symbol '*'.toUInt8 :: rs) (.mul l r)
  | product {es : List Lexeme} {e : Expression} (h : Derives .product es e) : Derives .sum es e
  | add {ls rs : List Lexeme} {l r : Expression} (hl : Derives .sum ls l)
      (hr : Derives .product rs r) : Derives .sum (ls ++ .symbol '+'.toUInt8 :: rs) (.add l r)
  | sub {ls rs : List Lexeme} {l r : Expression} (hl : Derives .sum ls l)
      (hr : Derives .product rs r) : Derives .sum (ls ++ .symbol '-'.toUInt8 :: rs) (.sub l r)

section

variable {vars : List Name} {e : Expression} {lexemes : List Lexeme}

/-- A parser goes on with this one, if it has the fuel. -/
def GoesOn (x : Except Error (Expression × Line)) (next : ℕ → Except Error (Expression × Line)) :
    Prop :=
  x = .error .outOfFuel ∨ ∃ fuel, x = next fuel

theorem GoesOn.trans {x : Except Error (Expression × Line)}
    {next next' : ℕ → Except Error (Expression × Line)} (hx : GoesOn x next)
    (hnext : ∀ fuel, GoesOn (next fuel) next') : GoesOn x next' := by
  obtain h | ⟨fuel, h⟩ := hx
  · exact Or.inl h
  · exact h ▸ hnext fuel

theorem GoesOn.bind {x : Except Error (Expression × Line)} {rest : Line}
    {f : Expression × Line → Except Error (Expression × Line)}
    {next : ℕ → Except Error (Expression × Line)} (hx : GoesOn x fun _ ↦ .ok (e, rest))
    (hf : GoesOn (f (e, rest)) next) : GoesOn (x >>= f) next := by
  obtain rfl | ⟨fuel, rfl⟩ := hx
  · exact Or.inl rfl
  · exact hf

theorem stops_symbol {signs : List UInt8} {symbol : UInt8} (h : symbol ∉ signs) (line : Line) :
    Stops signs (.kSymbol symbol :: line) := by
  intro sign hsign heq
  cases heq
  exact h hsign

theorem stops_newLine (signs : List UInt8) (line : Line) : Stops signs (.kNewLine :: line) := by
  intro sign _ heq
  cases heq

/-- A product ends where there is no `*`. -/
theorem goesOn_mulLoop {token : Token} {line : Line} (h : Stops ['*'.toUInt8] (token :: line))
    (fuel : ℕ) : GoesOn (mulLoop vars fuel e (token :: line)) fun _ ↦ .ok (e, token :: line) := by
  have htimes : token ≠ .kSymbol '*'.toUInt8 :=
    fun heq ↦ h _ (List.mem_singleton_self _) (congrArg some heq)
  cases fuel with
  | zero => exact Or.inl rfl
  | succ fuel =>
    refine Or.inr ⟨0, ?_⟩
    rw [mulLoop, Line.get_cons, Lib.ok_bind, if_neg htimes]
    rfl

/-- A sum ends where there is no sign. -/
theorem goesOn_sumLoop {token : Token} {line : Line}
    (h : Stops ['+'.toUInt8, '-'.toUInt8] (token :: line)) (fuel : ℕ) :
    GoesOn (sumLoop vars fuel e (token :: line)) fun _ ↦ .ok (e, token :: line) := by
  have hplus : token ≠ .kSymbol '+'.toUInt8 :=
    fun heq ↦ h _ List.mem_cons_self (congrArg some heq)
  have hminus : token ≠ .kSymbol '-'.toUInt8 :=
    fun heq ↦ h _ (List.mem_cons_of_mem _ (List.mem_singleton_self _)) (congrArg some heq)
  cases fuel with
  | zero => exact Or.inl rfl
  | succ fuel =>
    refine Or.inr ⟨0, ?_⟩
    rw [sumLoop, Line.get_cons, Lib.ok_bind]
    dsimp only
    rw [if_neg hplus, if_neg hminus]
    rfl

theorem tokensOf_append (ls rs : List Lexeme) (line : Line) :
    tokensOf (ls ++ rs) ++ line = tokensOf ls ++ (tokensOf rs ++ line) := by
  rw [tokensOf, List.flatMap_append, List.append_assoc]
  rfl

theorem tokensOf_symbol (symbol : UInt8) (es : List Lexeme) (line : Line) :
    tokensOf (.symbol symbol :: es) ++ line = .kSymbol symbol :: (tokensOf es ++ line) := rfl

/-- What a parser of this level does with the tokens of a tree. -/
def Finds (vars : List Name) (es : List Lexeme) (e : Expression) (rest : Line) (fuel : ℕ) :
    Level → Prop
  | .factor => GoesOn (constantFrom vars fuel (tokensOf es ++ rest)) fun _ ↦ .ok (e, rest)
  | .product =>
    GoesOn (mulFrom vars fuel (tokensOf es ++ rest)) fun fuel ↦ mulLoop vars fuel e rest
  | .sum =>
    rest ≠ [] → Stops ['*'.toUInt8] rest →
      GoesOn (sumFrom vars fuel (tokensOf es ++ rest)) fun fuel ↦ sumLoop vars fuel e rest

/-- A product is read to its end, if no `*` follows. -/
theorem Finds.product_ends {es : List Lexeme} {rest : Line} {fuel : ℕ}
    (h : Finds vars es e rest fuel .product) (hne : rest ≠ []) (hstops : Stops ['*'.toUInt8] rest) :
    GoesOn (mulFrom vars fuel (tokensOf es ++ rest)) fun _ ↦ .ok (e, rest) := by
  obtain ⟨token, rest, rfl⟩ := List.exists_cons_of_ne_nil hne
  exact GoesOn.trans h fun fuel ↦ goesOn_mulLoop hstops fuel

/-- A sum is read to its end, if no operator follows. -/
theorem Finds.sum_ends {es : List Lexeme} {token : Token} {rest : Line} {fuel : ℕ}
    (h : Finds vars es e (token :: rest) fuel .sum) (htimes : Stops ['*'.toUInt8] (token :: rest))
    (hstops : Stops ['+'.toUInt8, '-'.toUInt8] (token :: rest)) :
    GoesOn (sumFrom vars fuel (tokensOf es ++ token :: rest)) fun _ ↦ .ok (e, token :: rest) :=
  (h (List.cons_ne_nil _ _) htimes).trans fun fuel ↦ goesOn_sumLoop hstops fuel

/-- A sum goes on with a sign and a product. -/
theorem finds_sum_sign {sign : UInt8} (hsign : sign ∉ ['*'.toUInt8])
    {ctor : Expression → Expression → Expression} {ls rs : List Lexeme} {l r : Expression}
    {rest : Line}
    (hloop : ∀ fuel line, sumLoop vars (fuel + 1) l (.kSymbol sign :: line)
      = mulFrom vars fuel line >>= fun x ↦ sumLoop vars fuel (ctor l x.1) x.2)
    (hl : ∀ rest fuel, Finds vars ls l rest fuel .sum)
    (hr : ∀ rest fuel, Finds vars rs r rest fuel .product) (fuel : ℕ) :
    Finds vars (ls ++ .symbol sign :: rs) (ctor l r) rest fuel .sum := by
  intro hne hstops
  rw [tokensOf_append, tokensOf_symbol]
  have hleft := hl (.kSymbol sign :: (tokensOf rs ++ rest)) fuel (List.cons_ne_nil _ _)
    (stops_symbol hsign _)
  refine hleft.trans fun fuel ↦ ?_
  cases fuel with
  | zero => exact Or.inl rfl
  | succ fuel =>
    rw [hloop]
    exact ((hr rest fuel).product_ends hne hstops).bind (Or.inr ⟨fuel, rfl⟩)

/-- **The parser finds the tree.** -/
theorem parser_derives {level : Level} (h : Derives level lexemes e)
    (hknown : ∀ name ∈ e.names, name ∈ vars) (rest : Line) (fuel : ℕ) :
    Finds vars lexemes e rest fuel level := by
  have hboth {l r : Expression} (hknown : ∀ name ∈ l.names ++ r.names, name ∈ vars) :=
    List.forall_mem_append.1 hknown
  induction h generalizing rest fuel with
  | number digits =>
    cases fuel with
    | zero => exact Or.inl rfl
    | succ fuel => exact Or.inr ⟨0, rfl⟩
  | @var var_name hname =>
    obtain ⟨j, hj⟩ := varAt_of_mem (hknown var_name (List.mem_singleton_self _))
    have htoken : wordToken var_name = .kVar var_name := if_neg hname
    cases fuel with
    | zero => exact Or.inl rfl
    | succ fuel =>
      refine Or.inr ⟨0, ?_⟩
      rw [tokensOf, List.flatMap_singleton, Lexeme.tokens, htoken, List.singleton_append,
        constantFrom, Line.get_cons, Lib.ok_bind]
      dsimp only
      rw [hj]
      rfl
  | neg h ih =>
    cases fuel with
    | zero => exact Or.inl rfl
    | succ fuel =>
      have hih : GoesOn _ _ := ih hknown rest fuel
      exact hih.bind (Or.inr ⟨0, rfl⟩)
  | paren h ih =>
    cases fuel with
    | zero => exact Or.inl rfl
    | succ fuel =>
      have hsum := (ih hknown (.kSymbol ')'.toUInt8 :: rest) fuel).sum_ends
        (stops_symbol (by decide) rest) (stops_symbol (by decide) rest)
      rw [Finds, tokensOf_symbol, tokensOf_append]
      exact hsum.bind (Or.inr ⟨0, rfl⟩)
  | factor h ih =>
    cases fuel with
    | zero => exact Or.inl rfl
    | succ fuel =>
      have hih : GoesOn _ _ := ih hknown rest fuel
      exact hih.bind (Or.inr ⟨fuel, rfl⟩)
  | @mul ls rs l r hl hr ihl ihr =>
    obtain ⟨hknownl, hknownr⟩ := hboth hknown
    rw [Finds, tokensOf_append, tokensOf_symbol]
    have hleft : GoesOn _ _ := ihl hknownl (.kSymbol '*'.toUInt8 :: (tokensOf rs ++ rest)) fuel
    refine hleft.trans fun fuel ↦ ?_
    cases fuel with
    | zero => exact Or.inl rfl
    | succ fuel =>
      have hright : GoesOn _ _ := ihr hknownr rest fuel
      exact hright.bind (Or.inr ⟨fuel, rfl⟩)
  | product h ih =>
    intro hne hstops
    cases fuel with
    | zero => exact Or.inl rfl
    | succ fuel => exact ((ih hknown rest fuel).product_ends hne hstops).bind (Or.inr ⟨fuel, rfl⟩)
  | add hl hr ihl ihr =>
    obtain ⟨hknownl, hknownr⟩ := hboth hknown
    exact finds_sum_sign (by decide) (fun fuel line ↦ rfl) (ihl hknownl) (ihr hknownr) fuel
  | sub hl hr ihl ihr =>
    obtain ⟨hknownl, hknownr⟩ := hboth hknown
    exact finds_sum_sign (by decide) (fun fuel line ↦ rfl) (ihl hknownl) (ihr hknownr) fuel

/-- The tree of an expression that ends its line. -/
theorem parseExpr_of_derives (h : Derives .sum lexemes e) (hknown : ∀ name ∈ e.names, name ∈ vars) :
    parseExpr vars lexemes = .ok e := by
  have hfinds := parser_derives h hknown [.kNewLine] (3 * (lineOf lexemes).length + 3)
  have hsum : GoesOn (sumCtor vars (lineOf lexemes)) fun _ ↦ .ok (e, [.kNewLine]) :=
    hfinds.sum_ends (stops_newLine _ []) (stops_newLine _ [])
  obtain hfuel | ⟨fuel, hsum⟩ := hsum
  · exact absurd hfuel (sumCtor_ne_outOfFuel vars _)
  · rw [parseExpr_eq hsum, if_pos rfl]

theorem names_of_derives {level : Level} (h : Derives level lexemes e) :
    ∀ name ∈ e.names, name ∈ names (lineOf lexemes) := by
  have hmono {es es' : List Lexeme} (hes : ∀ lexeme ∈ es, lexeme ∈ es') {name : Name}
      (hname : name ∈ names (lineOf es)) : name ∈ names (lineOf es') := by
    obtain ⟨hfor, hmem⟩ := mem_names_lineOf.1 hname
    exact mem_names_lineOf.2 ⟨hfor, hes _ hmem⟩
  induction h with
  | number digits => exact fun name hname ↦ nomatch hname
  | @var var_name hname =>
    intro name hmem
    cases List.mem_singleton.1 hmem
    exact mem_names_lineOf.2 ⟨hname, List.mem_singleton_self _⟩
  | neg h ih => exact fun name hname ↦ hmono (fun _ ↦ List.mem_cons_of_mem _) (ih name hname)
  | paren h ih =>
    intro name hname
    exact hmono (fun _ hmem ↦ List.mem_cons_of_mem _ (List.mem_append_left _ hmem)) (ih name hname)
  | factor h ih | product h ih => exact ih
  | mul hl hr ihl ihr | add hl hr ihl ihr | sub hl hr ihl ihr =>
    intro name hname
    obtain hname | hname := List.mem_append.1 hname
    · exact hmono (fun _ ↦ List.mem_append_left _) (ihl name hname)
    · exact hmono (fun _ hmem ↦ List.mem_append_right _ (List.mem_cons_of_mem _ hmem))
        (ihr name hname)

/-- An assignment of an expression is read if the expression has coefficients. -/
theorem taken_iff_of_derives {source : SourceLine} {var_name : Name} {op : AssignOp}
    (hlexemes : source.lexemes = .word var_name :: .assign op :: lexemes)
    (hname : var_name ≠ forWord) (hop : op ≠ .times) (h : Derives .sum lexemes e)
    (hknown : ∀ name ∈ names (lineOf source.lexemes), name ∈ vars) :
    Taken vars source.line ↔ ∃ coeffs, evaluate vars e = .ok coeffs := by
  rw [hlexemes] at hknown
  obtain ⟨hvar, hrest⟩ := names_of_word hname hknown
  have hexpr : ∀ name ∈ e.names, name ∈ vars := fun name hmem ↦
    known_of_splitAssign rfl hrest name (names_of_derives h name hmem)
  have hcontent : content source.line = .kVar var_name :: lineOf (.assign op :: lexemes) := by
    have htoken : wordToken var_name = .kVar var_name := if_neg hname
    rw [content_line, hlexemes, lineOf_cons, Lexeme.tokens, htoken]
    rfl
  rw [taken_var hcontent, assignment_ok_iff hvar]
  constructor
  · rintro ⟨op', expr', e', coeffs, hsplit, hparse, hcoeffs, -⟩
    cases hsplit
    rw [parseExpr_of_derives h hexpr] at hparse
    cases hparse
    exact ⟨coeffs, hcoeffs⟩
  · rintro ⟨coeffs, hcoeffs⟩
    exact ⟨op, lexemes, e, coeffs, rfl, parseExpr_of_derives h hexpr, hcoeffs,
      fun heq ↦ absurd heq hop⟩

end

end Matrix3
end ManyTasks
