import ManyTasks.ClangFun.StringUtils
import ManyTasks.Lib.EditDistance

/-!
# The distance is the edit distance

Each row has the edit distances of the prefixes of the first string to the prefix of the second one
that the row is for (`row`), as the three entries from which an entry is computed are those of the
recursion from the last letters on (`rowLoop_eq`).

The entries are `unsigned`.  The edit distance is not greater than the longer of the strings, so
nothing wraps if both are shorter than 2^32 - 1.
-/

set_option autoImplicit false

namespace ManyTasks
namespace ClangFun

/-- The edit distance, where it does not matter whether a letter is a capital. -/
def distance (first second : Str) : ℕ := Lib.editDistance (first.map tolower) (second.map tolower)

theorem unsigned_of_lt {n : ℕ} (h : n < 2 ^ 32) : unsigned n = n := Nat.mod_eq_of_lt h

theorem distance_le_max (first second : Str) :
    distance first second ≤ max first.length second.length := by
  have h := Lib.editDistance_le_max (first.map tolower) (second.map tolower)
  rwa [List.length_map, List.length_map] at h

theorem distance_nil_left (second : Str) : distance [] second = second.length := by
  rw [distance, List.map_nil, Lib.editDistance_nil_left, List.length_map]

theorem distance_nil_right (first : Str) : distance first [] = first.length := by
  rw [distance, List.map_nil, Lib.editDistance_nil_right, List.length_map]

/-- The recursion the rows are computed by. -/
theorem distance_append (first : Str) (c : UInt8) (second : Str) (d : UInt8) :
    distance (first ++ [c]) (second ++ [d]) =
      min (min (distance first second + if tolower c = tolower d then 0 else 1)
        (distance first (second ++ [d]) + 1)) (distance (first ++ [c]) second + 1) := by
  have h := Lib.editDistance_append (first.map tolower) (tolower c) (second.map tolower) (tolower d)
  simpa only [distance, List.map_append, List.map_cons, List.map_nil] using h

/-- The distances of `done`, and of `done` with more and more of `rest`. -/
def row (second : Str) : Str → Str → List ℕ
  | done, [] => [distance done second]
  | done, c :: rest => distance done second :: row second (done ++ [c]) rest

theorem row_eq (second done rest : Str) :
    row second done rest = distance done second :: (row second done rest).tail := by
  cases rest <;> rfl

theorem getLast?_row (second done rest : Str) :
    (row second done rest).getLast? = some (distance (done ++ rest) second) := by
  induction rest generalizing done with
  | nil => rw [row, List.append_nil, List.getLast?_singleton]
  | cons c rest ih =>
    have h := ih (done ++ [c])
    rw [List.append_assoc] at h
    rw [row, row_eq, List.getLast?_cons_cons, ← row_eq]
    exact h

/-- The first row, before the second string has been looked at. -/
theorem row_nil (done rest : Str) : row [] done rest =
    List.range' done.length (rest.length + 1) := by
  induction rest generalizing done with
  | nil => rw [row, distance_nil_right, List.length_nil, List.range'_one]
  | cons c rest ih =>
    have hlength : (done ++ [c]).length = done.length + 1 := by simp
    rw [row, ih, distance_nil_right, hlength, List.length_cons, ← List.range'_succ]

/-- **From one row to the next.** -/
theorem rowLoop_eq (d : UInt8) (second done rest : Str)
    (hfirst : (done ++ rest).length < 2 ^ 32 - 1) (hsecond : (second ++ [d]).length < 2 ^ 32 - 1) :
    rowLoop d rest (row second done rest) (distance done (second ++ [d])) =
      (row (second ++ [d]) done rest).tail := by
  induction rest generalizing done with
  | nil => rw [row, row, rowLoop, List.tail_cons]; simp
  | cons c rest ih =>
    have hdiagonal := distance_le_max done second
    have hup := distance_le_max (done ++ [c]) second
    have hleft := distance_le_max done (second ++ [d])
    simp only [List.length_append, List.length_cons, List.length_nil]
      at hfirst hsecond hdiagonal hup hleft
    have hentry : min (min (if tolower d = tolower c then distance done second
        else unsigned (distance done second + 1)) (unsigned (distance (done ++ [c]) second + 1)))
        (unsigned (distance done (second ++ [d]) + 1)) =
          distance (done ++ [c]) (second ++ [d]) := by
      rw [unsigned_of_lt (n := distance (done ++ [c]) second + 1) (by omega),
        unsigned_of_lt (n := distance done (second ++ [d]) + 1) (by omega), distance_append]
      -- the source compares with the entry above before the one on the left
      rw [min_right_comm]
      by_cases hsame : tolower c = tolower d
      · rw [if_pos hsame.symm, if_pos hsame, Nat.add_zero (distance done second)]
      · rw [if_neg fun h ↦ hsame h.symm, if_neg hsame, unsigned_of_lt (by omega)]
    have hnext :=
      ih (done ++ [c]) (by simp only [List.length_append, List.length_cons, List.length_nil]; omega)
    rw [row, row, List.tail_cons, row_eq second (done ++ [c]) rest, rowLoop, hentry,
      ← row_eq, hnext, ← row_eq]

/-- The rows, one for every letter of the second string. -/
theorem levenshteinLoop_eq (first done rest : Str) (hfirst : first.length < 2 ^ 32 - 1)
    (hsecond : (done ++ rest).length < 2 ^ 32 - 1) :
    levenshteinLoop first rest done.length (row done [] first) = row (done ++ rest) [] first := by
  induction rest generalizing done with
  | nil => rw [levenshteinLoop, List.append_nil]
  | cons d rest ih =>
    have hlength : (done ++ [d]).length = done.length + 1 := by simp
    have hassoc : done ++ d :: rest = (done ++ [d]) ++ rest := by simp
    rw [hassoc] at hsecond ⊢
    have hle : (done ++ [d]).length < 2 ^ 32 - 1 := by
      rw [List.length_append] at hsecond
      omega
    have hentry : unsigned (done.length + 1) = distance [] (done ++ [d]) := by
      rw [distance_nil_left, hlength, unsigned_of_lt (by omega)]
    rw [levenshteinLoop, hentry, rowLoop_eq d done [] first hfirst hle, ← row_eq, ← hlength]
    exact ih (done ++ [d]) hsecond

/-- **The distance is the edit distance.** -/
theorem levenshteinDistance_eq (first second : Str) (hfirst : first.length < 2 ^ 32 - 1)
    (hsecond : second.length < 2 ^ 32 - 1) : levenshteinDistance first second =
      distance first second := by
  have hrow : (List.range (first.length + 1)).map unsigned = row [] [] first := by
    rw [row_nil, List.length_nil, ← List.range_eq_range']
    refine (List.map_congr_left fun k hk ↦ ?_).trans (List.map_id _)
    rw [List.mem_range] at hk
    exact unsigned_of_lt (by omega)
  rw [levenshteinDistance, hrow]
  have hloop := levenshteinLoop_eq first [] second hfirst hsecond
  rw [List.length_nil, List.nil_append] at hloop
  simp only [hloop, getLast?_row, Option.getD_some, List.nil_append]

/-! ## Strings that are too long -/

/-- With an empty first string a row has one entry, the number of letters so far. -/
theorem levenshteinLoop_nil (second : Str) (j : ℕ) :
    levenshteinLoop [] second j [unsigned j] = [unsigned (j + second.length)] := by
  induction second generalizing j with
  | nil => rw [levenshteinLoop, List.length_nil, Nat.add_zero]
  | cons d second ih =>
    rw [levenshteinLoop, rowLoop, ih, List.length_cons, Nat.add_right_comm, Nat.add_assoc]
    simp

theorem levenshteinDistance_nil (second : Str) :
    levenshteinDistance [] second = unsigned second.length := by
  have h := levenshteinLoop_nil second 0
  rw [Nat.zero_add] at h
  rw [levenshteinDistance]
  change ((levenshteinLoop [] second 0 [unsigned 0]).getLast?).getD 0 = _
  rw [h]
  rfl

end ClangFun
end ManyTasks
