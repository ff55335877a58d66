import ManyTasks.Matrix3.Interpreter
import Mathlib.Data.List.TakeWhile

/-!
# What a program text is made of

A text is a sequence of lines, and a line is blanks and lexemes: numbers, words, operators, and
bytes that are nothing.  `sourceLines` takes a text apart so, with the blanks a line begins with
counted, and without losing the digits of a number, which a token does not keep.

`Tokenizer` does not see it like that.  It looks at one byte after the other, and the end of a line
is a token; four blanks are one too, which counts at the beginning of a line only.
`tokenize_eq` says what comes of that: each line is tokenized alone, its beginning is a `kTab` for
every four blanks, and a line without any token is none.
-/

set_option autoImplicit false

namespace ManyTasks
namespace Matrix3

/-! ## Lexemes -/

/-- What a line is made of. -/
inductive Lexeme where
  | number (digits : List UInt8)
  | word (name : Name)
  | symbol (symbol : UInt8)
  | assign (op : AssignOp)
  | bad (symbol : UInt8)
deriving DecidableEq, Repr

/-- The assignment that begins with this byte, if the next one is `=`. -/
def compound (symbol : UInt8) : Option AssignOp :=
  if symbol = '+'.toUInt8 then some .plus
  else if symbol = '-'.toUInt8 then some .minus
  else if symbol = '*'.toUInt8 then some .times
  else none

/-- The lexemes of a line. -/
def lexemes : List UInt8 → List Lexeme
  | [] => []
  | symbol :: rest =>
    if symbol = ' '.toUInt8 then lexemes rest
    else if symbol ∈ kOperations then
      match compound symbol, rest with
      | some op, 61 :: rest => .assign op :: lexemes rest
      | _, rest => .symbol symbol :: lexemes rest
    else if symbol = '='.toUInt8 then .assign .set :: lexemes rest
    else if isDigit symbol then
      .number (symbol :: rest.takeWhile isDigit) :: lexemes (rest.dropWhile isDigit)
    else if isLetter symbol then
      .word (symbol :: rest.takeWhile isNameByte) :: lexemes (rest.dropWhile isNameByte)
    else .bad symbol :: lexemes rest
termination_by text => text.length
decreasing_by
  all_goals simp only [List.length_cons]
  all_goals try have := (List.dropWhile_sublist isDigit (l := rest)).length_le
  all_goals try have := (List.dropWhile_sublist isNameByte (l := rest)).length_le
  all_goals omega

/-- What `Consume` makes of a lexeme. -/
def Lexeme.tokens : Lexeme → List Token
  | .number digits => [.kNumber (readNumber 0 digits).1]
  | .word name => [wordToken name]
  | .symbol c => [.kSymbol c]
  | .assign .set => [.kEqv]
  | .assign .plus => [.kSymbol '+'.toUInt8, .kEqv]
  | .assign .minus => [.kSymbol '-'.toUInt8, .kEqv]
  | .assign .times => [.kSymbol '*'.toUInt8, .kEqv]
  | .bad _ => [.kBadToken]

/-- The tokens of a line, without those for its beginning and its end. -/
def tokensOf (line : List Lexeme) : List Token := line.flatMap Lexeme.tokens

/-! ## Lines -/

/-- A line: the blanks it begins with, and the rest. -/
structure SourceLine where
  indent : ℕ
  lexemes : List Lexeme
deriving DecidableEq, Repr

/-- The blanks a line begins with. -/
def indent (raw : List UInt8) : ℕ := (raw.takeWhile (· == ' '.toUInt8)).length

def sourceLine (raw : List UInt8) : SourceLine := ⟨indent raw, lexemes raw⟩

/-- The lines of a text. -/
def sourceLines (text : List UInt8) : List SourceLine :=
  (text.splitOn '\n'.toUInt8).map sourceLine

/-- What `Tokenize` makes of a line. -/
def SourceLine.tokens (line : SourceLine) : List (List Token) :=
  closeLine (List.replicate (line.indent / 4) .kTab ++ tokensOf line.lexemes)

/-! ## One line after the other -/

/-- `Tokenize`, after a token. -/
def tokenizeWith (cur_line : List Token) (next : Token × List UInt8) : List (List Token) :=
  if next.1 = .kEnd then closeLine cur_line
  else if next.1 = .kNewLine then closeLine cur_line ++ tokenizeFrom [] next.2
  else tokenizeFrom (pushToken cur_line next.1) next.2

theorem tokenizeFrom_eq (cur_line : List Token) (text : List UInt8) :
    tokenizeFrom cur_line text = tokenizeWith cur_line (consumeFrom 0 text) := by
  rw [tokenizeFrom, tokenizeWith, consume]
  rfl

/-- The end of a line, or of the text. -/
inductive IsEnd : List UInt8 → List (List Token) → Prop
  | text : IsEnd [] []
  | line (text : List UInt8) : IsEnd ('\n'.toUInt8 :: text) (tokenize text)

section

variable {tail s : List UInt8} {after : List (List Token)} {cur_line : List Token}
  {whitespace_cnt : ℕ}

theorem tokenizeWith_end (h : IsEnd tail after) (cur_line : List Token) (whitespace_cnt : ℕ) :
    tokenizeWith cur_line (consumeFrom whitespace_cnt tail) = closeLine cur_line ++ after := by
  cases h with
  | text => rw [consumeFrom, tokenizeWith, if_pos rfl, List.append_nil]
  | line text =>
    rw [consumeFrom, if_pos rfl, tokenizeWith, if_neg (by simp), if_pos rfl]
    rfl

/-- A number or a name does not go on after the end of its line. -/
theorem takeWhile_append_end {p : UInt8 → Bool} (hp : p '\n'.toUInt8 = false)
    (h : IsEnd tail after) (s : List UInt8) :
    (s ++ tail).takeWhile p = s.takeWhile p ∧ (s ++ tail).dropWhile p = s.dropWhile p ++ tail := by
  induction s with
  | nil =>
    cases h with
    | text => exact ⟨rfl, rfl⟩
    | line text =>
      rw [List.nil_append, List.takeWhile_cons, List.dropWhile_cons, hp]
      exact ⟨rfl, rfl⟩
  | cons b s ih =>
    rw [List.cons_append, List.takeWhile_cons, List.dropWhile_cons, List.takeWhile_cons,
      List.dropWhile_cons]
    split
    · exact ⟨congrArg _ ih.1, ih.2⟩
    · exact ⟨rfl, rfl⟩

theorem readNumber_eq (number : UInt64) (text : List UInt8) :
    readNumber number text
      = ((readNumber number (text.takeWhile isDigit)).1, text.dropWhile isDigit) := by
  induction text generalizing number with
  | nil => rfl
  | cons symbol rest ih =>
    rw [readNumber, List.takeWhile_cons, List.dropWhile_cons]
    cases hdigit : isDigit symbol with
    | true =>
      rw [if_pos rfl, if_pos rfl, if_pos rfl, readNumber, hdigit, if_pos rfl, ih]
    | false =>
      rw [if_neg Bool.false_ne_true, if_neg Bool.false_ne_true, if_neg Bool.false_ne_true]
      rfl

theorem readName_eq (text : List UInt8) :
    readName text = (text.takeWhile isNameByte, text.dropWhile isNameByte) := by
  induction text with
  | nil => rfl
  | cons symbol rest ih =>
    rw [readName, List.takeWhile_cons, List.dropWhile_cons, ih]
    cases isNameByte symbol with
    | true => rfl
    | false => rfl

/-- There is a token in the line that is no tab. -/
def InLine (cur_line : List Token) : Prop := cur_line ≠ [] ∧ cur_line.getLast? ≠ some .kTab

theorem pushToken_tab (h : InLine cur_line) : pushToken cur_line .kTab = cur_line := by
  rw [pushToken, if_pos rfl, if_neg (not_or.2 h)]

/-- A token that stands inside a line. -/
def Token.inner : Token → Bool
  | .kTab | .kNewLine | .kEnd => false
  | _ => true

/-- A token inside a line is put into it. -/
theorem tokenizeWith_cons {token : Token} {tokens : List Token} {text : List UInt8}
    (hinner : token.inner = true)
    (hrest : ∀ cur_line, InLine cur_line →
      tokenizeWith cur_line (consumeFrom 0 text) = closeLine (cur_line ++ tokens) ++ after)
    (cur_line : List Token) :
    tokenizeWith cur_line (token, text) = closeLine (cur_line ++ token :: tokens) ++ after := by
  have htab : token ≠ .kTab := by
    rintro rfl
    cases hinner
  have hend : token ≠ .kEnd := by
    rintro rfl
    cases hinner
  have hline : token ≠ .kNewLine := by
    rintro rfl
    cases hinner
  have hcur : InLine (cur_line ++ [token]) := by
    refine ⟨by simp, ?_⟩
    rw [List.getLast?_concat]
    exact fun heq ↦ htab (Option.some.inj heq)
  rw [tokenizeWith, if_neg hend, if_neg hline, pushToken, if_neg htab, tokenizeFrom_eq,
    hrest _ hcur, List.append_assoc]
  rfl

theorem tokens_of_compound {symbol : UInt8} {op : AssignOp} (h : compound symbol = some op) :
    (Lexeme.assign op).tokens = [.kSymbol symbol, .kEqv] := by
  rw [compound] at h
  split_ifs at h with hplus hminus htimes
  · cases h
    rw [hplus]
    rfl
  · cases h
    rw [hminus]
    rfl
  · cases h
    rw [htimes]
    rfl

theorem inner_wordToken (s : Name) : (wordToken s).inner = true := by
  rw [wordToken]
  split
  · rfl
  · rfl

/-- **The lexemes of a line are its tokens**, from the first one that is no tab. -/
theorem tokenizeWith_lexemes (h : IsEnd tail after) (hs : '\n'.toUInt8 ∉ s)
    (hcur : InLine cur_line ∨ s.head? ≠ some ' '.toUInt8) (hcnt : whitespace_cnt < 4) :
    tokenizeWith cur_line (consumeFrom whitespace_cnt (s ++ tail))
      = closeLine (cur_line ++ tokensOf (lexemes s)) ++ after := by
  fun_induction lexemes s generalizing cur_line whitespace_cnt with
  | case1 =>
    rw [List.nil_append, tokenizeWith_end h, tokensOf, List.flatMap_nil, List.append_nil]
  | case2 rest ih =>
    obtain ⟨-, hs⟩ := not_or.1 (mt List.mem_cons.2 hs)
    have hcur : InLine cur_line := hcur.resolve_right fun hne ↦ hne rfl
    rw [List.cons_append, consumeFrom, if_neg (by decide), if_pos rfl]
    split
    · rw [tokenizeWith, if_neg (by simp), if_neg (by simp), pushToken_tab hcur, tokenizeFrom_eq]
      exact ih hs (Or.inl hcur) (by decide)
    · exact ih hs (Or.inl hcur) (by omega)
  | case3 symbol hblank hop op rest hcompound ih =>
    obtain ⟨hline, hs⟩ := not_or.1 (mt List.mem_cons.2 hs)
    obtain ⟨-, hs⟩ := not_or.1 (mt List.mem_cons.2 hs)
    rw [List.cons_append, consumeFrom, if_neg (Ne.symm hline), if_neg hblank, if_pos hop, tokensOf,
      List.flatMap_cons, tokens_of_compound hcompound]
    refine tokenizeWith_cons rfl (fun cur_line hcur ↦ ?_) cur_line
    -- the `=` after it is a token of its own
    exact tokenizeWith_cons rfl (fun cur_line hcur ↦ ih hs (Or.inl hcur) (by decide)) cur_line
  | case4 symbol hblank hop rest hcompound ih =>
    obtain ⟨hline, hs⟩ := not_or.1 (mt List.mem_cons.2 hs)
    rw [List.cons_append, consumeFrom, if_neg (Ne.symm hline), if_neg hblank, if_pos hop]
    exact tokenizeWith_cons rfl (fun cur_line hcur ↦ ih hs (Or.inl hcur) (by decide)) cur_line
  | case5 rest hblank hop ih =>
    obtain ⟨hline, hs⟩ := not_or.1 (mt List.mem_cons.2 hs)
    rw [List.cons_append, consumeFrom, if_neg (Ne.symm hline), if_neg hblank, if_neg hop,
      if_pos rfl]
    exact tokenizeWith_cons rfl (fun cur_line hcur ↦ ih hs (Or.inl hcur) (by decide)) cur_line
  | case6 symbol rest hblank hop heqv hdigit ih =>
    obtain ⟨hline, hs⟩ := not_or.1 (mt List.mem_cons.2 hs)
    obtain ⟨htake, hdrop⟩ := takeWhile_append_end (p := isDigit) (by decide) h rest
    have hs : '\n'.toUInt8 ∉ rest.dropWhile isDigit :=
      fun hmem ↦ hs ((List.dropWhile_sublist isDigit).subset hmem)
    rw [List.cons_append, consumeFrom, if_neg (Ne.symm hline), if_neg hblank, if_neg hop,
      if_neg heqv, if_pos hdigit, readNumber_eq, List.takeWhile_cons, List.dropWhile_cons,
      if_pos hdigit, if_pos hdigit, htake, hdrop]
    exact tokenizeWith_cons rfl (fun cur_line hcur ↦ ih hs (Or.inl hcur) (by decide)) cur_line
  | case7 symbol rest hblank hop heqv hdigit hletter ih =>
    obtain ⟨hline, hs⟩ := not_or.1 (mt List.mem_cons.2 hs)
    obtain ⟨htake, hdrop⟩ := takeWhile_append_end (p := isNameByte) (by decide) h rest
    have hs : '\n'.toUInt8 ∉ rest.dropWhile isNameByte :=
      fun hmem ↦ hs ((List.dropWhile_sublist isNameByte).subset hmem)
    have hname : isNameByte symbol = true := by rw [isNameByte, hletter]; rfl
    rw [List.cons_append, consumeFrom, if_neg (Ne.symm hline), if_neg hblank, if_neg hop,
      if_neg heqv, if_neg hdigit, if_pos hletter, readName_eq, List.takeWhile_cons,
      List.dropWhile_cons, if_pos hname, if_pos hname, htake, hdrop]
    exact tokenizeWith_cons (inner_wordToken _)
      (fun cur_line hcur ↦ ih hs (Or.inl hcur) (by decide)) cur_line
  | case8 symbol rest hblank hop heqv hdigit hletter ih =>
    obtain ⟨hline, hs⟩ := not_or.1 (mt List.mem_cons.2 hs)
    rw [List.cons_append, consumeFrom, if_neg (Ne.symm hline), if_neg hblank, if_neg hop,
      if_neg heqv, if_neg hdigit, if_neg hletter]
    exact tokenizeWith_cons rfl (fun cur_line hcur ↦ ih hs (Or.inl hcur) (by decide)) cur_line

theorem lexemes_blank (rest : List UInt8) : lexemes (' '.toUInt8 :: rest) = lexemes rest := by
  rw [lexemes, if_pos rfl]
  intro op _ hop
  have hnone : compound ' '.toUInt8 = none := by decide
  rw [hnone] at hop
  cases hop

theorem not_mem_kOperations {p : UInt8 → Bool} (hp : kOperations.all (!p ·) = true)
    {symbol : UInt8} (h : p symbol = true) : symbol ∉ kOperations := by
  intro hmem
  have hnot := List.all_eq_true.1 hp symbol hmem
  rw [h] at hnot
  cases hnot

theorem ne_of_isDigit {symbol : UInt8} (h : isDigit symbol = true) :
    symbol ≠ ' '.toUInt8 ∧ symbol ∉ kOperations ∧ symbol ≠ '='.toUInt8 := by
  refine ⟨?_, not_mem_kOperations rfl h, ?_⟩
  · rintro rfl
    exact absurd h (by decide)
  · rintro rfl
    exact absurd h (by decide)

theorem ne_of_isLetter {symbol : UInt8} (h : isLetter symbol = true) :
    symbol ≠ ' '.toUInt8 ∧ symbol ∉ kOperations ∧ symbol ≠ '='.toUInt8 ∧
      ¬ isDigit symbol = true := by
  refine ⟨?_, not_mem_kOperations rfl h, ?_, ?_⟩
  · rintro rfl
    exact absurd h (by decide)
  · rintro rfl
    exact absurd h (by decide)
  · have hA : 'A'.toUInt8.toNat = 65 := rfl
    have ha : 'a'.toUInt8.toNat = 97 := rfl
    have h9 : '9'.toUInt8.toNat = 57 := rfl
    simp only [isLetter, isDigit, Bool.or_eq_true, Bool.and_eq_true, decide_eq_true_eq,
      UInt8.le_iff_toNat_le] at h ⊢
    omega

/-- No sign of an assignment begins with this byte. -/
theorem compound_of_not_mem {symbol : UInt8} (h : symbol ∉ kOperations) :
    compound symbol = none := by
  rw [compound, if_neg, if_neg, if_neg]
  · rintro rfl
    exact h (by decide)
  · rintro rfl
    exact h (by decide)
  · rintro rfl
    exact h (by decide)

/-- A word, and what comes after it. -/
theorem lexemes_word {symbol : UInt8} {name rest : List UInt8} (hletter : isLetter symbol = true)
    (hname : ∀ b ∈ name, isNameByte b = true) (hrest : ∀ b ∈ rest.head?, isNameByte b = false) :
    lexemes (symbol :: (name ++ rest)) = .word (symbol :: name) :: lexemes rest := by
  obtain ⟨hblank, hop, heqv, hdigit⟩ := ne_of_isLetter hletter
  have htake : rest.takeWhile isNameByte = [] ∧ rest.dropWhile isNameByte = rest := by
    cases rest with
    | nil => exact ⟨rfl, rfl⟩
    | cons b rest =>
      rw [List.takeWhile_cons, List.dropWhile_cons, hrest b rfl]
      exact ⟨rfl, rfl⟩
  rw [lexemes, if_neg hblank, if_neg hop, if_neg heqv, if_neg hdigit, if_pos hletter,
    List.takeWhile_append_of_pos hname, List.dropWhile_append_of_pos hname, htake.1, htake.2,
    List.append_nil]
  intro op _ hop'
  rw [compound_of_not_mem hop] at hop'
  cases hop'

/-- A number at the end of a line. -/
theorem lexemes_number {digits : List UInt8} (hne : digits ≠ [])
    (hdigits : ∀ digit ∈ digits, isDigit digit = true) : lexemes digits = [.number digits] := by
  obtain ⟨symbol, digits, rfl⟩ := List.exists_cons_of_ne_nil hne
  obtain ⟨hdigit, hdigits⟩ := List.forall_mem_cons.1 hdigits
  obtain ⟨hblank, hop, heqv⟩ := ne_of_isDigit hdigit
  rw [lexemes, if_neg hblank, if_neg hop, if_neg heqv, if_pos hdigit,
    List.takeWhile_eq_self_iff.2 hdigits, List.dropWhile_eq_nil_iff.2 hdigits, lexemes]
  intro op _ hop'
  rw [compound_of_not_mem hop] at hop'
  cases hop'

theorem indent_blank (rest : List UInt8) : indent (' '.toUInt8 :: rest) = indent rest + 1 := by
  rw [indent, List.takeWhile_cons, if_pos (beq_self_eq_true _), List.length_cons]
  rfl

theorem indent_of_head (h : s.head? ≠ some ' '.toUInt8) : indent s = 0 := by
  cases s with
  | nil => rfl
  | cons symbol rest =>
    rw [indent, List.takeWhile_cons, if_neg]
    · rfl
    · exact fun heq ↦ h (congrArg some (eq_of_beq heq))

theorem pushToken_replicate (tabs : ℕ) :
    pushToken (List.replicate tabs .kTab) .kTab = List.replicate (tabs + 1) .kTab := by
  have htabs : List.replicate tabs Token.kTab = []
      ∨ (List.replicate tabs Token.kTab).getLast? = some .kTab := by
    cases tabs with
    | zero => exact Or.inl rfl
    | succ tabs => exact Or.inr (by rw [List.replicate_succ', List.getLast?_concat])
  rw [pushToken, if_pos rfl, if_pos htabs, List.replicate_succ']

/-- **The blanks a line begins with are tabs**, one for every four of them. -/
theorem tokenizeWith_indent (h : IsEnd tail after) (hs : '\n'.toUInt8 ∉ s) (tabs : ℕ)
    (hcnt : whitespace_cnt < 4) :
    tokenizeWith (List.replicate tabs .kTab) (consumeFrom whitespace_cnt (s ++ tail))
      = closeLine (List.replicate (tabs + (whitespace_cnt + indent s) / 4) .kTab
          ++ tokensOf (lexemes s)) ++ after := by
  induction s generalizing tabs whitespace_cnt with
  | nil =>
    have hnone : (whitespace_cnt + indent []) / 4 = 0 := Nat.div_eq_of_lt hcnt
    rw [List.nil_append, tokenizeWith_end h, hnone, lexemes]
    simp [tokensOf]
  | cons symbol rest ih =>
    by_cases hblank : symbol = ' '.toUInt8
    · subst hblank
      obtain ⟨-, hs⟩ := not_or.1 (mt List.mem_cons.2 hs)
      rw [List.cons_append, consumeFrom, if_neg (by decide), if_pos rfl, indent_blank,
        lexemes_blank]
      split
      · have hdiv : (whitespace_cnt + (indent rest + 1)) / 4 = (0 + indent rest) / 4 + 1 := by omega
        rw [tokenizeWith, if_neg (by simp), if_neg (by simp), pushToken_replicate, tokenizeFrom_eq,
          ih hs _ (by decide), hdiv, Nat.add_right_comm, Nat.add_assoc]
      · rw [ih hs _ (by omega), Nat.add_right_comm whitespace_cnt, Nat.add_assoc whitespace_cnt]
    · have hhead : (symbol :: rest).head? ≠ some ' '.toUInt8 :=
        fun heq ↦ hblank (Option.some.inj heq)
      have hnone : (whitespace_cnt + indent (symbol :: rest)) / 4 = 0 := by
        rw [indent_of_head hhead]
        exact Nat.div_eq_of_lt hcnt
      rw [tokenizeWith_lexemes h hs (Or.inr hhead) hcnt, hnone, Nat.add_zero]

end

/-! ## Texts -/

theorem tokenize_eq_tokenizeWith (text : List UInt8) :
    tokenize text = tokenizeWith (List.replicate 0 .kTab) (consumeFrom 0 text) :=
  tokenizeFrom_eq [] text

theorem tokens_sourceLine (raw : List UInt8) : (sourceLine raw).tokens
    = closeLine (List.replicate (0 + (0 + indent raw) / 4) .kTab ++ tokensOf (lexemes raw)) := by
  rw [Nat.zero_add, Nat.zero_add]
  rfl

theorem tokenize_last {raw : List UInt8} (hraw : '\n'.toUInt8 ∉ raw) :
    tokenize raw = (sourceLine raw).tokens := by
  have hline := tokenizeWith_indent .text hraw 0 (by decide : 0 < 4)
  rw [List.append_nil, List.append_nil] at hline
  rw [tokenize_eq_tokenizeWith, hline, tokens_sourceLine]

theorem tokenize_line {raw : List UInt8} (hraw : '\n'.toUInt8 ∉ raw) (text : List UInt8) :
    tokenize (raw ++ '\n'.toUInt8 :: text) = (sourceLine raw).tokens ++ tokenize text := by
  rw [tokenize_eq_tokenizeWith, tokenizeWith_indent (.line text) hraw 0 (by decide : 0 < 4),
    tokens_sourceLine]

/-- **Every line is tokenized alone.** -/
theorem tokenize_eq (text : List UInt8) :
    tokenize text = (sourceLines text).flatMap SourceLine.tokens := by
  induction hn : text.length using Nat.strong_induction_on generalizing text with
  | _ n ih =>
    subst hn
    rw [sourceLines]
    by_cases hmem : '\n'.toUInt8 ∈ text
    · obtain ⟨raw, rest, rfl, hraw⟩ := List.eq_append_cons_of_mem hmem
      rw [tokenize_line hraw, List.splitOn_append_cons_self_of_not_mem hraw, List.map_cons,
        List.flatMap_cons, ih rest.length (by rw [List.length_append, List.length_cons]; omega) rest
          rfl]
      rfl
    · rw [tokenize_last hmem, List.splitOn_eq_singleton hmem, List.map_singleton,
        List.flatMap_singleton]

theorem sourceLines_cons {raw : List UInt8} (hraw : '\n'.toUInt8 ∉ raw) (text : List UInt8) :
    sourceLines (raw ++ '\n'.toUInt8 :: text) = sourceLine raw :: sourceLines text := by
  rw [sourceLines, List.splitOn_append_cons_self_of_not_mem hraw]
  rfl

theorem sourceLines_last {raw : List UInt8} (hraw : '\n'.toUInt8 ∉ raw) :
    sourceLines raw = [sourceLine raw] := by
  rw [sourceLines, List.splitOn_eq_singleton hraw]
  rfl

/-- What comes after a line does not matter for it. -/
theorem tokenize_append (text more : List UInt8) :
    tokenize (text ++ '\n'.toUInt8 :: more) = tokenize text ++ tokenize more := by
  rw [tokenize_eq, tokenize_eq text, tokenize_eq more, sourceLines,
    List.splitOn_append_cons_self, List.map_append, List.flatMap_append]
  rfl

end Matrix3
end ManyTasks
