import Mathlib.Data.List.Basic
import Mathlib.Data.UInt

/-!
# The tokenizer of the loop language

`matrix-3.0` interprets a small language of assignments and `for` loops.  A program text is a
sequence of bytes; `tokenize` cuts it into lines of tokens, which is all the rest of the
interpreter ever sees.

`Tokenizer::Consume` is a loop over the characters of a stream.  Here the stream is the list of
bytes not yet read and `consumeFrom k` is that loop with `k` blanks already counted: a run of
blanks is counted up to four, and four of them make a `kTab`, while a shorter run is skipped.
Numbers are accumulated in `uint64_t`, so a literal is read modulo `2 ^ 64`.

`Line` is the cursor the parser moves along one line.  Reading at its end is undefined in the
source, which never checks for it in `Get`; the model reports it as `Error.pastEnd`.
-/

set_option autoImplicit false

namespace ManyTasks
namespace Matrix3

/-- The ways a run can stop other than by returning. -/
inductive Error where
  /-- `MatrixException` with its message. -/
  | matrixException (msg : String)
  /-- `std::out_of_range`, from `vars.at`. -/
  | outOfRange
  /-- `Line::Get` at the end of the line, which dereferences `end_`. -/
  | pastEnd
  /-- The parser model ran out of fuel; `sumCtor_ne_outOfFuel` says that it never does. -/
  | outOfFuel
deriving DecidableEq, Repr

/-- A variable name, as `std::string` holds it. -/
abbrev Name := List UInt8

scoped instance lawfulBEqName : LawfulBEq Name := inferInstance

/-- `Token`: the constructors are the values of `TokenType`, each with the field that is set for
it. -/
inductive Token where
  | kNumber (number : UInt64)
  | kSymbol (symbol : UInt8)
  | kVar (var_name : Name)
  | kFor
  | kEqv
  | kTab
  | kBadToken
  | kNewLine
  | kEnd
deriving DecidableEq, Repr

/-- `kOperations`. -/
def kOperations : List UInt8 :=
  ['('.toUInt8, ')'.toUInt8, '+'.toUInt8, '-'.toUInt8, '*'.toUInt8]

/-- Is this byte a decimal digit? -/
def isDigit (symbol : UInt8) : Bool := '0'.toUInt8 ≤ symbol && symbol ≤ '9'.toUInt8

/-- Is this byte a Latin letter? -/
def isLetter (symbol : UInt8) : Bool :=
  ('A'.toUInt8 ≤ symbol && symbol ≤ 'Z'.toUInt8) || ('a'.toUInt8 ≤ symbol && symbol ≤ 'z'.toUInt8)

/-- May this byte continue a name that has begun? -/
def isNameByte (symbol : UInt8) : Bool :=
  isLetter symbol || symbol == '_'.toUInt8 || isDigit symbol

/-- The digits of a number, accumulated in `uint64_t`, and what follows them. -/
def readNumber (number : UInt64) : List UInt8 → UInt64 × List UInt8
  | [] => (number, [])
  | symbol :: rest =>
    if isDigit symbol then readNumber (number * 10 + symbol.toUInt64 - '0'.toUInt8.toUInt64) rest
    else (number, symbol :: rest)

/-- The bytes of a name and what follows them. -/
def readName : List UInt8 → Name × List UInt8
  | [] => ([], [])
  | symbol :: rest =>
    if isNameByte symbol then ((symbol :: (readName rest).1), (readName rest).2)
    else ([], symbol :: rest)

/-- A word is the keyword `for` or a variable. -/
def wordToken (s : Name) : Token :=
  if s = ['f'.toUInt8, 'o'.toUInt8, 'r'.toUInt8] then .kFor else .kVar s

/-- `Tokenizer::Consume`, entered with `whitespace_cnt` blanks of the current run already read:
the next token and the bytes after it. -/
def consumeFrom (whitespace_cnt : Nat) : List UInt8 → Token × List UInt8
  | [] => (.kEnd, [])
  | symbol :: rest =>
    if symbol = '\n'.toUInt8 then (.kNewLine, rest)
    else if symbol = ' '.toUInt8 then
      if whitespace_cnt + 1 = 4 then (.kTab, rest) else consumeFrom (whitespace_cnt + 1) rest
    else if symbol ∈ kOperations then (.kSymbol symbol, rest)
    else if symbol = '='.toUInt8 then (.kEqv, rest)
    else if isDigit symbol then
      (.kNumber (readNumber 0 (symbol :: rest)).1, (readNumber 0 (symbol :: rest)).2)
    else if isLetter symbol then
      (wordToken (readName (symbol :: rest)).1, (readName (symbol :: rest)).2)
    else (.kBadToken, rest)

/-- `Tokenizer::Consume`. -/
def consume (text : List UInt8) : Token × List UInt8 := consumeFrom 0 text

/-! ## Consuming makes progress -/

theorem readNumber_length_le (number : UInt64) (text : List UInt8) :
    (readNumber number text).2.length ≤ text.length := by
  induction text generalizing number with
  | nil => simp [readNumber]
  | cons symbol rest ih =>
    rw [readNumber]
    split
    · exact (ih _).trans (Nat.le_succ _)
    · simp

theorem readName_length_le (text : List UInt8) : (readName text).2.length ≤ text.length := by
  induction text with
  | nil => simp [readName]
  | cons symbol rest ih =>
    rw [readName]
    split
    · exact ih.trans (Nat.le_succ _)
    · simp

theorem readNumber_digit (symbol : UInt8) (rest : List UInt8) (h : isDigit symbol = true) :
    (readNumber 0 (symbol :: rest)).2.length ≤ rest.length := by
  rw [readNumber, if_pos h]
  exact readNumber_length_le _ _

theorem readName_letter (symbol : UInt8) (rest : List UInt8) (h : isLetter symbol = true) :
    (readName (symbol :: rest)).2.length ≤ rest.length := by
  rw [readName, if_pos (by simp [isNameByte, h])]
  exact readName_length_le _

/-- Every token but `kEnd` takes at least one byte off the text. -/
theorem consumeFrom_length (whitespace_cnt : Nat) (text : List UInt8)
    (h : (consumeFrom whitespace_cnt text).1 ≠ .kEnd) :
    (consumeFrom whitespace_cnt text).2.length < text.length := by
  induction text generalizing whitespace_cnt with
  | nil => simp [consumeFrom] at h
  | cons symbol rest ih =>
    rw [consumeFrom] at h ⊢
    simp only [List.length_cons, Nat.lt_succ_iff]
    split_ifs at h ⊢ with h1 h2 h3 h4 h5 h6 h7
    · exact le_rfl
    · exact le_rfl
    · exact (ih _ h).le
    · exact le_rfl
    · exact le_rfl
    · exact readNumber_digit _ _ h6
    · exact readName_letter _ _ h7
    · exact le_rfl

theorem consume_length {text : List UInt8} (h : (consume text).1 ≠ .kEnd) :
    (consume text).2.length < text.length :=
  consumeFrom_length 0 text h

/-! ## Lines -/

/-- The line a `kNewLine`, or the end of the text, closes: nothing if it has no token. -/
def closeLine (cur_line : List Token) : List (List Token) :=
  if cur_line = [] then [] else [cur_line ++ [.kNewLine]]

/-- What `Tokenize` does with a token inside a line: a `kTab` is dropped unless only tabs precede
it. -/
def pushToken (cur_line : List Token) (token : Token) : List Token :=
  if token = .kTab then
    if cur_line = [] ∨ cur_line.getLast? = some .kTab then cur_line ++ [token] else cur_line
  else cur_line ++ [token]

/-- The loop of `Tokenizer::Tokenize`, with `cur_line` collected so far. -/
def tokenizeFrom (cur_line : List Token) (text : List UInt8) : List (List Token) :=
  if _h : (consume text).1 = .kEnd then closeLine cur_line
  else if (consume text).1 = .kNewLine then
    closeLine cur_line ++ tokenizeFrom [] (consume text).2
  else tokenizeFrom (pushToken cur_line (consume text).1) (consume text).2
termination_by text.length
decreasing_by all_goals exact consume_length ‹_›

/-- `Tokenizer::Tokenize`. -/
def tokenize (text : List UInt8) : List (List Token) := tokenizeFrom [] text

/-! ## The cursor on a line -/

/-- `Line`: the tokens from `iter_` to `end_`. -/
abbrev Line := List Token

/-- `Line::Get`. -/
def Line.get : Line → Except Error Token
  | [] => .error .pastEnd
  | token :: _ => .ok token

/-- `Line::Next`. -/
def Line.next : Line → Except Error Line
  | [] => .error (.matrixException "End line")
  | _ :: line => .ok line

/-- The tokens after the leading `kTab`s, with their number, as `CountTabs` leaves the cursor. -/
def countTabs : Line → Except Error (Nat × Line)
  | [] => .error .pastEnd
  | .kTab :: line => do
    let (tab_count, line) ← countTabs line
    .ok (tab_count + 1, line)
  | token :: line => .ok (0, token :: line)

end Matrix3
end ManyTasks
