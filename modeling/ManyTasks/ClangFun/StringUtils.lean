import Mathlib.Algebra.Order.Group.Nat

/-!
# Words and their distance

`LevenshteinDistance` computes the distance of two strings row by row, from two rows.  A row has an
entry for every prefix of the first string: its distance to the prefix of the second string that the
row is for.  Capital and small letters are not distinguished.  The entries are `unsigned`.

`SplitIntoWords` divides a name at the underscores, if there are any.  Otherwise it divides it
before each capital, and then joins what consists of a capital only with its neighbours of this
kind.  Its results are views of the name.

A `char` is a byte; `std::tolower` is that of the C locale, where only the letters from `A` to `Z`
are capitals.
-/

set_option autoImplicit false

namespace ManyTasks
namespace ClangFun

/-- `std::string` -/
abbrev Str := List UInt8

/-- What is stored in an `unsigned`. -/
def unsigned (n : ℕ) : ℕ := n % 2 ^ 32

/-- `c >= 'A' && c <= 'Z'` -/
def isCapital (c : UInt8) : Bool := 65 ≤ c && c ≤ 90

/-- `std::tolower` -/
def tolower (c : UInt8) : UInt8 := if isCapital c then c + 32 else c

/-! ## The distance -/

/-- The inner loop of `levenshteinDistance`, for the letter `d` of the second string.  What is left
of the first string goes along with what is left of `prew_row`; `left` is the entry of `current_row`
written last. -/
def rowLoop (d : UInt8) : Str → List ℕ → ℕ → List ℕ
  | c :: first_str, diagonal :: up :: prew_row, left =>
    let substitution_cost := if tolower d = tolower c then diagonal else unsigned (diagonal + 1)
    let entry := min (min substitution_cost (unsigned (up + 1))) (unsigned (left + 1))
    entry :: rowLoop d first_str (up :: prew_row) entry
  | _, _, _ => []

/-- The outer loop: every entry of `current_row` is written anew, and then it is `prew_row`. -/
def levenshteinLoop (first_str : Str) : Str → ℕ → List ℕ → List ℕ
  | [], _, prew_row => prew_row
  | d :: second_str, j, prew_row =>
    levenshteinLoop first_str second_str (j + 1)
      (unsigned (j + 1) :: rowLoop d first_str prew_row (unsigned (j + 1)))

def levenshteinDistance (first_str second_str : Str) : ℕ :=
  let prew_row := (List.range (first_str.length + 1)).map unsigned
  (levenshteinLoop first_str second_str 0 prew_row).getLast?.getD 0

/-! ## Words -/

/-- `std::string_view`: where it begins in the name, and its size. -/
structure View where
  data : ℕ
  size : ℕ
deriving DecidableEq, Repr

def View.text (name : Str) (v : View) : Str := (name.drop v.data).take v.size

/-- `name.find('_', pos)` -/
def findUnderscore (name : Str) (pos : ℕ) : Option ℕ :=
  ((name.drop pos).findIdx? fun c ↦ c = 95).map (pos + ·)

/-- The first loop of `splitIntoWords`, and what comes after it; there are more turns left than
underscores. -/
def underscoreLoop (name : Str) : ℕ → ℕ → List View
  | 0, _ => []
  | turns + 1, cur_pos =>
    match findUnderscore name cur_pos with
    | some found_pos => ⟨cur_pos, found_pos - cur_pos⟩ :: underscoreLoop name turns (found_pos + 1)
    | none => if cur_pos < name.length then [⟨cur_pos, name.length - cur_pos⟩] else []

/-- The loop that divides before the capitals; what is left of the name is from `cur_pos` on. -/
def capitalLoop : Str → ℕ → ℕ → List View
  | [], start_pos, cur_pos => [⟨start_pos, cur_pos - start_pos⟩]
  | c :: rest, start_pos, cur_pos =>
    if isCapital c then
      (if cur_pos > start_pos then [⟨start_pos, cur_pos - start_pos⟩] else []) ++
        capitalLoop rest cur_pos (cur_pos + 1)
    else capitalLoop rest start_pos (cur_pos + 1)

/-- `word.size() == 1 && (word[0] >= 'A' && word[0] <= 'Z')` -/
def isLoneCapital (name : Str) (word : View) : Bool :=
  word.size = 1 && name[word.data]?.any isCapital

/-- The word that has been joined, if any. -/
def joined (word_start : Option ℕ) (word_size : ℕ) : List View :=
  match word_start with
  | some start => [⟨start, word_size⟩]
  | none => []

/-- The loop that joins lone capitals. -/
def joinLoop (name : Str) : List View → Option ℕ → ℕ → List View
  | [], word_start, word_size => joined word_start word_size
  | word :: tmp, word_start, word_size =>
    if isLoneCapital name word then
      joinLoop name tmp (some (word_start.getD word.data)) (word_size + 1)
    else joined word_start word_size ++ word :: joinLoop name tmp none 0

def splitIntoWords (name : Str) : List View :=
  if name.contains 95 then underscoreLoop name (name.length + 1) 0
  else joinLoop name (capitalLoop name 0 0) none 0

end ClangFun
end ManyTasks
