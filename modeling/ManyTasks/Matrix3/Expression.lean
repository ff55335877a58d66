import ManyTasks.Lib.Except
import ManyTasks.Matrix3.Tokenizer
import Mathlib.Tactic.SplitIfs

/-!
# Expressions: the parse tree and its coefficients

An expression is parsed by three mutually recursive constructors, `Constant`, `Mul` and `Sum`,
into a tree, and the tree is evaluated not to a number but to the coefficients of an affine form
in the variables: entry `i` for variable `i`, the last entry for the constant.

`Expression` is the class hierarchy as one inductive type.  The parsers follow the constructors
line by line; what they do not reject they silently accept, so a `Constant` that finds no operand
at the cursor consumes nothing and stays at the zero coefficients it was created with
(`Expression.empty`).

The recursion of the constructors is bounded by the tokens left on the line, but a `Mul` starts by
building a `Constant` at the same position, so the model counts nested calls with a fuel.
`sumCtor_ne_outOfFuel` shows that the fuel `sumCtor` starts with is never used up.
-/

set_option autoImplicit false

namespace ManyTasks
namespace Matrix3

/-- The parse tree: `empty`, `number`, `var`, `neg` and `paren` are what a `Constant` can hold,
`mul` is a `Mul` with both of its operands, `add` and `sub` are a `Sum` with both of its. -/
inductive Expression where
  | empty
  | number (number : UInt64)
  | var (var_name : Name)
  | neg (constant_ : Expression)
  | paren (sum_ : Expression)
  | mul (mul_ constant_ : Expression)
  | add (sum_ mul_ : Expression)
  | sub (sum_ mul_ : Expression)
deriving DecidableEq, Repr

/-! ## The variables

`GatherVars` gives each name the number of names before it.  The map from names to numbers is
therefore the list of the names in that order, and `vars.at` looks a name up in it. -/

/-- `vars.at(name)`: the number of a variable. -/
def varAt (vars : List Name) (name : Name) : Except Error (Fin vars.length) :=
  if h : name ∈ vars then .ok ⟨vars.idxOf name, List.idxOf_lt_length_of_mem h⟩
  else .error .outOfRange

theorem varAt_get {vars : List Name} {name : Name} {j : Fin vars.length}
    (h : varAt vars name = .ok j) : vars.get j = name := by
  rw [varAt] at h
  split at h
  · cases h
    exact List.getElem_idxOf _
  · cases h

theorem varAt_of_mem {vars : List Name} {name : Name} (h : name ∈ vars) :
    ∃ j, varAt vars name = .ok j :=
  ⟨_, dif_pos h⟩

theorem varAt_ne_outOfFuel (vars : List Name) (name : Name) :
    varAt vars name ≠ .error .outOfFuel := by
  rw [varAt]
  split <;> simp

/-! ## The parser -/

mutual

/-- `Constant::Constant`. -/
def constantFrom (vars : List Name) : Nat → Line → Except Error (Expression × Line)
  | 0, _ => .error .outOfFuel
  | fuel + 1, line => do
    match ← line.get with
    | .kNumber number =>
      let line ← line.next
      return (.number number, line)
    | .kVar var_name =>
      let _ ← varAt vars var_name
      let line ← line.next
      return (.var var_name, line)
    | .kSymbol symbol =>
      if symbol = '-'.toUInt8 then
        let line ← line.next
        let (constant_, line) ← constantFrom vars fuel line
        return (.neg constant_, line)
      else if symbol = '('.toUInt8 then
        let line ← line.next
        let (sum_, line) ← sumFrom vars fuel line
        if (← line.get) ≠ .kSymbol ')'.toUInt8 then throw (.matrixException "Wrong symbol")
        let line ← line.next
        return (.paren sum_, line)
      else return (.empty, line)
    | _ => return (.empty, line)

/-- `Mul::Mul`. -/
def mulFrom (vars : List Name) : Nat → Line → Except Error (Expression × Line)
  | 0, _ => .error .outOfFuel
  | fuel + 1, line => do
    let (constant_, line) ← constantFrom vars fuel line
    mulLoop vars fuel constant_ line

/-- The `while` loop of `Mul::Mul`: `mul_` is the product read so far. -/
def mulLoop (vars : List Name) : Nat → Expression → Line → Except Error (Expression × Line)
  | 0, _, _ => .error .outOfFuel
  | fuel + 1, mul_, line => do
    if (← line.get) = .kSymbol '*'.toUInt8 then
      let line ← line.next
      let (constant_, line) ← constantFrom vars fuel line
      mulLoop vars fuel (.mul mul_ constant_) line
    else return (mul_, line)

/-- `Sum::Sum`. -/
def sumFrom (vars : List Name) : Nat → Line → Except Error (Expression × Line)
  | 0, _ => .error .outOfFuel
  | fuel + 1, line => do
    let (mul_, line) ← mulFrom vars fuel line
    sumLoop vars fuel mul_ line

/-- The `while` loop of `Sum::Sum`: `sum_` is the sum read so far. -/
def sumLoop (vars : List Name) : Nat → Expression → Line → Except Error (Expression × Line)
  | 0, _, _ => .error .outOfFuel
  | fuel + 1, sum_, line => do
    let token ← line.get
    if token = .kSymbol '+'.toUInt8 then
      let line ← line.next
      let (mul_, line) ← mulFrom vars fuel line
      sumLoop vars fuel (.add sum_ mul_) line
    else if token = .kSymbol '-'.toUInt8 then
      let line ← line.next
      let (mul_, line) ← mulFrom vars fuel line
      sumLoop vars fuel (.sub sum_ mul_) line
    else return (sum_, line)

end

/-- `Sum(line, vars)`: the expression at the cursor and the cursor after it. -/
def sumCtor (vars : List Name) (line : Line) : Except Error (Expression × Line) :=
  sumFrom vars (3 * line.length + 3) line

/-! ## The fuel is enough

Every parser leaves a cursor no earlier than the one it was given, and with `3 n + c` fuel on `n`
tokens it never runs out: a nested call either has a token less to read or is one of the three
levels `Sum`, `Mul`, `Constant` further down. -/

@[simp] theorem Line.get_cons (token : Token) (line : Line) :
    Line.get (token :: line) = .ok token := rfl

@[simp] theorem Line.next_cons (token : Token) (line : Line) :
    Line.next (token :: line) = .ok line := rfl

@[simp] theorem Line.get_nil : Line.get [] = .error .pastEnd := rfl

/-- The parse did not run out of fuel, and if it succeeded at most `n` tokens are left. -/
def Fits (n : Nat) : Except Error (Expression × Line) → Prop
  | .ok (_, line) => line.length ≤ n
  | .error e => e ≠ .outOfFuel

theorem Fits.mono {m n : Nat} {r : Except Error (Expression × Line)} (h : Fits m r)
    (hmn : m ≤ n) : Fits n r := by
  match r, h with
  | .ok (_, line), h => exact Nat.le_trans h hmn
  | .error e, h => exact h

theorem Fits.bind {m n : Nat} {x : Except Error (Expression × Line)}
    {f : Expression × Line → Except Error (Expression × Line)} (hx : Fits m x)
    (hf : ∀ e line, line.length ≤ m → Fits n (f (e, line))) : Fits n (x >>= f) := by
  match x, hx with
  | .ok (e, line), hx => exact hf e line hx
  | .error e, hx => exact hx

/-- All five parsers fit, by induction on the fuel. -/
theorem parser_fits (vars : List Name) (fuel : Nat) :
    (∀ line, 3 * line.length + 1 ≤ fuel → Fits line.length (constantFrom vars fuel line)) ∧
    (∀ line, 3 * line.length + 2 ≤ fuel → Fits line.length (mulFrom vars fuel line)) ∧
    (∀ e line, 3 * line.length + 1 ≤ fuel → Fits line.length (mulLoop vars fuel e line)) ∧
    (∀ line, 3 * line.length + 3 ≤ fuel → Fits line.length (sumFrom vars fuel line)) ∧
    (∀ e line, 3 * line.length + 2 ≤ fuel → Fits line.length (sumLoop vars fuel e line)) := by
  induction fuel with
  | zero => refine ⟨?_, ?_, ?_, ?_, ?_⟩ <;> intros <;> omega
  | succ fuel ih =>
    obtain ⟨hconst, hmul, hmulLoop, hsum, hsumLoop⟩ := ih
    refine ⟨fun line h ↦ ?_, fun line h ↦ ?_, fun e line h ↦ ?_, fun line h ↦ ?_,
      fun e line h ↦ ?_⟩
    · rw [constantFrom]
      cases line with
      | nil => simp [Fits]
      | cons token line =>
        simp only [List.length_cons] at h ⊢
        cases token with
        | kNumber | kFor | kEqv | kTab | kBadToken | kNewLine | kEnd => simp [Fits]
        | kVar name =>
          simp only [Line.get_cons, Lib.ok_bind]
          cases hv : varAt vars name with
          | error e => exact fun he ↦ varAt_ne_outOfFuel vars name (he ▸ hv)
          | ok j => simp [Fits]
        | kSymbol symbol =>
          simp only [Line.get_cons, Lib.ok_bind, Line.next_cons]
          split_ifs
          · exact (hconst line (by omega)).bind fun e l hl ↦ Nat.le_succ_of_le hl
          · refine (hsum line (by omega)).bind fun e l hl ↦ ?_
            cases l with
            | nil => simp [Fits]
            | cons t l =>
              simp only [Line.get_cons, Lib.ok_bind, Line.next_cons]
              simp only [List.length_cons] at hl
              split_ifs
              · simp [Fits]
              · exact Nat.le_succ_of_le (Nat.le_of_succ_le hl)
          · simp [Fits]
    · rw [mulFrom]
      refine (hconst line (by omega)).bind fun e l hl ↦ ?_
      exact (hmulLoop e l (by omega)).mono hl
    · rw [mulLoop]
      cases line with
      | nil => simp [Fits]
      | cons token line =>
        simp only [List.length_cons] at h
        simp only [Line.get_cons, Lib.ok_bind, Line.next_cons]
        split_ifs
        · refine (hconst line (by omega)).bind fun e l hl ↦ ?_
          exact (hmulLoop _ l (by omega)).mono (by simp only [List.length_cons]; omega)
        · simp [Fits]
    · rw [sumFrom]
      refine (hmul line (by omega)).bind fun e l hl ↦ ?_
      exact (hsumLoop e l (by omega)).mono hl
    · rw [sumLoop]
      cases line with
      | nil => simp [Fits]
      | cons token line =>
        simp only [List.length_cons] at h
        simp only [Line.get_cons, Lib.ok_bind, Line.next_cons]
        split_ifs
        · refine (hmul line (by omega)).bind fun e l hl ↦ ?_
          exact (hsumLoop _ l (by omega)).mono (by simp only [List.length_cons]; omega)
        · refine (hmul line (by omega)).bind fun e l hl ↦ ?_
          exact (hsumLoop _ l (by omega)).mono (by simp only [List.length_cons]; omega)
        · simp [Fits]

/-- **The parser terminates**: `Sum(line, vars)` returns or throws, it is never cut short. -/
theorem sumCtor_ne_outOfFuel (vars : List Name) (line : Line) :
    sumCtor vars line ≠ .error .outOfFuel := by
  intro h
  have hf := (parser_fits vars (3 * line.length + 3)).2.2.2.1 line (le_refl _)
  rw [← sumCtor, h] at hf
  exact hf rfl

/-! ## Evaluation -/

/-- `coeffs_`: one entry for each variable, then the constant. -/
abbrev Coeffs (vars : List Name) := Vector Int64 (vars.length + 1)

/-- The coefficients converted to `uint64_t`, as the matrices hold them. -/
def words {vars : List Name} (coeffs : Coeffs vars) : Fin (vars.length + 1) → UInt64 :=
  fun i ↦ coeffs[i].toUInt64

/-- Is some variable's coefficient nonzero?  The test `Mul::Evaluate` and `*=` make. -/
def hasVar {vars : List Name} (coeffs : Coeffs vars) : Bool :=
  (List.finRange vars.length).any fun i ↦ coeffs[i.castSucc] != 0

/-- The `Evaluate` methods: the coefficients of the affine form the tree denotes. -/
def evaluate (vars : List Name) : Expression → Except Error (Coeffs vars)
  | .empty => .ok (Vector.replicate _ 0)
  | .number number => .ok (Vector.ofFn fun i ↦ if i = Fin.last _ then number.toInt64 else 0)
  | .var var_name => do
    let j ← varAt vars var_name
    return Vector.ofFn fun i ↦ if i = j.castSucc then 1 else 0
  | .neg constant_ => do
    let coeffs ← evaluate vars constant_
    return coeffs.map (· * -1)
  | .paren sum_ => evaluate vars sum_
  | .mul mul_ constant_ => do
    let coeffs ← evaluate vars mul_
    let other ← evaluate vars constant_
    -- the factor with a variable in it goes to `other`
    let (coeffs, other) := if hasVar coeffs then (other, coeffs) else (coeffs, other)
    if hasVar coeffs then throw (.matrixException "Non constant product")
    return other.map (· * coeffs[Fin.last _])
  | .add sum_ mul_ => do
    let coeffs ← evaluate vars sum_
    let other ← evaluate vars mul_
    return Vector.zipWith (· + ·) coeffs other
  | .sub sum_ mul_ => do
    let coeffs ← evaluate vars sum_
    let other ← evaluate vars mul_
    return Vector.zipWith (· - ·) coeffs other

end Matrix3
end ManyTasks
