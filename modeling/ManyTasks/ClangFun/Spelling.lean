import ManyTasks.ClangFun.Distance

/-!
# Looking for mistakes

`CheckMistakes` looks for every word of a name in the dictionary, and reports the word if it is not
there but the nearest one is not far.  Of several that are equally near it takes the first, as it
goes on only to a word that is nearer (`scanDict_spec`).

Where a name stands is known to `clang::SourceManager`, which is a parameter.
-/

set_option autoImplicit false

namespace ManyTasks
namespace ClangFun

structure Mistake where
  file : Str
  name : Str
  wrong_word : Str
  ok_word : Str
  line : ℕ
deriving DecidableEq, Repr

/-- What is asked of `clang::SourceManager`. -/
structure SourceManager (Loc : Type) where
  getExpansionLoc : Loc → Loc
  getFilename : Loc → Str
  getExpansionLineNumber : Loc → ℕ

/-- `std::filesystem::path::filename`, what comes after the last `/`. -/
def filename (path : Str) : Str := (path.reverse.takeWhile fun c ↦ c ≠ 47).reverse

variable {Loc : Type}

def logMistake (source_manager : SourceManager Loc) (loc : Loc)
    (name wrong_word ok_word : Str) : Mistake :=
  let spel_loc := source_manager.getExpansionLoc loc
  ⟨filename (source_manager.getFilename spel_loc), name, wrong_word, ok_word,
    source_manager.getExpansionLineNumber loc⟩

/-- The loop over the dictionary, with `min_dist` and `nearest_word`. -/
def scanDict (word : Str) : List Str → ℕ → Option Str → ℕ × Option Str
  | [], min_dist, nearest_word => (min_dist, nearest_word)
  | dict_word :: dict, min_dist, nearest_word =>
    let dist := levenshteinDistance word dict_word
    if dist < min_dist then scanDict word dict dist (some dict_word)
    else scanDict word dict min_dist nearest_word

/-- What is reported for a word; `std::numeric_limits<unsigned>::max()` is where the loop begins. -/
def checkWord (spellchecker_dict_ : List Str) (word : Str) : Option Str :=
  if word.length > 3 then
    match scanDict word spellchecker_dict_ (2 ^ 32 - 1) none with
    | (min_dist, some nearest_word) =>
      if 0 < min_dist ∧ min_dist < 4 then some nearest_word else none
    | (_, none) => none
  else none

/-- The field `violations_.mistakes` after the call. -/
def checkMistakes (spellchecker_dict_ : List Str) (mistakes : List Mistake) (name : Str)
    (source_manager : SourceManager Loc) (loc : Loc) : List Mistake :=
  if spellchecker_dict_.isEmpty then mistakes
  else mistakes ++ (splitIntoWords name).filterMap fun word ↦
    (checkWord spellchecker_dict_ (word.text name)).map
      (logMistake source_manager loc name (word.text name))

/-! ## What is reported -/

/-- The word `ok` is the first of the dictionary at the least distance, which is `d`. -/
def Nearest (dict : List Str) (word ok : Str) (d : ℕ) : Prop :=
  distance word ok = d ∧ ∃ before after, dict = before ++ ok :: after ∧
    (∀ w ∈ before, d < distance word w) ∧ ∀ w ∈ after, d ≤ distance word w

variable {dict : List Str} {word ok ok' : Str} {d d' : ℕ}

theorem Nearest.le (h : Nearest dict word ok d) {w : Str} (hw : w ∈ dict) :
    d ≤ distance word w := by
  obtain ⟨hd, before, after, rfl, hbefore, hafter⟩ := h
  rcases List.mem_append.mp hw with hw | hw
  · exact (hbefore w hw).le
  · rcases List.mem_cons.mp hw with rfl | hw
    · exact hd.ge
    · exact hafter w hw

/-- There is only one. -/
theorem Nearest.unique (h : Nearest dict word ok d) (h' : Nearest dict word ok' d') :
    ok = ok' ∧ d = d' := by
  obtain ⟨hd, before, after, hdict, hbefore, hafter⟩ := h
  obtain ⟨hd', before', after', hdict', hbefore', hafter'⟩ := id h'
  have hle : d ≤ d' := by
    rw [← hd']
    exact Nearest.le ⟨hd, before, after, hdict, hbefore, hafter⟩ (hdict' ▸ by simp)
  have hge : d' ≤ d := by
    rw [← hd]
    exact h'.le (hdict ▸ by simp)
  obtain rfl := Nat.le_antisymm hle hge
  refine ⟨?_, rfl⟩
  rw [hdict] at hdict'
  rcases List.append_eq_append_iff.mp hdict' with ⟨l, rfl, hl⟩ | ⟨l, rfl, hl⟩
  · cases l with
    | nil => exact (List.cons.inj hl).1
    | cons w l =>
      -- the first of them would be before the other one
      obtain ⟨rfl, -⟩ := List.cons.inj hl
      exact absurd hd (hbefore' ok (by simp)).ne'
  · cases l with
    | nil => exact (List.cons.inj hl).1.symm
    | cons w l =>
      obtain ⟨rfl, -⟩ := List.cons.inj hl
      exact absurd hd' (hbefore ok' (by simp)).ne'

/-- **The loop stays at the first word that is nearest.** -/
theorem scanDict_spec (hword : word.length < 2 ^ 32 - 1) (hdict : ∀ w ∈ dict, w.length < 2 ^ 32 - 1)
    (min_dist : ℕ) (nearest_word : Option Str) :
    ((∀ w ∈ dict, min_dist ≤ distance word w) ∧
        scanDict word dict min_dist nearest_word = (min_dist, nearest_word)) ∨
      ∃ ok d, Nearest dict word ok d ∧ d < min_dist ∧
        scanDict word dict min_dist nearest_word = (d, some ok) := by
  induction dict generalizing min_dist nearest_word with
  | nil => exact .inl ⟨by simp, rfl⟩
  | cons v dict ih =>
    have hrest : ∀ w ∈ dict, w.length < 2 ^ 32 - 1 := fun w hw ↦ hdict w (List.mem_cons_of_mem v hw)
    rw [scanDict, levenshteinDistance_eq word v hword (hdict v List.mem_cons_self)]
    by_cases hlt : distance word v < min_dist
    · simp only [hlt, if_true]
      rcases ih hrest (distance word v) (some v) with ⟨hall, heq⟩ | ⟨ok, d, hnear, hd, heq⟩
      · exact .inr ⟨v, _, ⟨rfl, [], dict, rfl, by simp, hall⟩, hlt, heq⟩
      · obtain ⟨hok, before, after, rfl, hbefore, hafter⟩ := hnear
        refine .inr ⟨ok, d, ⟨hok, v :: before, after, rfl, ?_, hafter⟩, hd.trans hlt, heq⟩
        exact List.forall_mem_cons.mpr ⟨hd, hbefore⟩
    · simp only [hlt, if_false]
      rcases ih hrest min_dist nearest_word with ⟨hall, heq⟩ | ⟨ok, d, hnear, hd, heq⟩
      · exact .inl ⟨List.forall_mem_cons.mpr ⟨not_lt.mp hlt, hall⟩, heq⟩
      · obtain ⟨hok, before, after, rfl, hbefore, hafter⟩ := hnear
        refine .inr ⟨ok, d, ⟨hok, v :: before, after, rfl, ?_, hafter⟩, hd, heq⟩
        exact List.forall_mem_cons.mpr ⟨hd.trans_le (not_lt.mp hlt), hbefore⟩

/-- What is reported for a word. -/
theorem checkWord_iff (hne : dict ≠ []) (hword : word.length < 2 ^ 32 - 1)
    (hdict : ∀ w ∈ dict, w.length < 2 ^ 32 - 1) :
    checkWord dict word = some ok ↔
      3 < word.length ∧ ∃ d, Nearest dict word ok d ∧ 1 ≤ d ∧ d ≤ 3 := by
  have hscan : ∃ near d, Nearest dict word near d ∧
      scanDict word dict (2 ^ 32 - 1) none = (d, some near) := by
    rcases scanDict_spec hword hdict (2 ^ 32 - 1) none with ⟨hall, -⟩ | ⟨near, d, hnear, -, heq⟩
    · obtain ⟨w, dict, rfl⟩ := List.exists_cons_of_ne_nil hne
      have hle := distance_le_max word w
      have hw := hdict w List.mem_cons_self
      have := hall w List.mem_cons_self
      omega
    · exact ⟨near, d, hnear, heq⟩
  obtain ⟨near, d, hnear, heq⟩ := hscan
  rw [checkWord, heq]
  by_cases hlong : word.length > 3
  · rw [if_pos hlong]
    simp only
    split
    · rename_i hd
      rw [Option.some_inj]
      constructor
      · rintro rfl
        exact ⟨hlong, d, hnear, hd.1, by omega⟩
      · rintro ⟨-, d', hnear', -⟩
        exact (hnear.unique hnear').1
    · rename_i hd
      simp only [reduceCtorEq, false_iff]
      rintro ⟨-, d', hnear', hpos, hle⟩
      obtain ⟨-, rfl⟩ := hnear.unique hnear'
      exact hd ⟨hpos, by omega⟩
  · rw [if_neg hlong]
    simp only [reduceCtorEq, false_iff]
    exact fun h ↦ hlong h.1

/-- **What is reported for a name.**  For each of its words in their order, if the word is longer
than 3 and its least distance to a word of the dictionary is from 1 to 3, the first word of the
dictionary at this distance; the distance is the least number of edits, and `levenshteinDistance`
computes it.  No string may be longer than a distance can be. -/
theorem checkMistakes_correct (dict : List Str) (hne : dict ≠ [])
    (hdict : ∀ w ∈ dict, w.length < 2 ^ 32 - 1) (name : Str) (hname : name.length < 2 ^ 32 - 1)
    (mistakes : List Mistake)
    (source_manager : SourceManager Loc) (loc : Loc) :
    (∃ report : View → Option Str,
        checkMistakes dict mistakes name source_manager loc =
          mistakes ++ (splitIntoWords name).filterMap (fun word ↦
            (report word).map (logMistake source_manager loc name (word.text name))) ∧
        ∀ word ok, report word = some ok ↔ 3 < (word.text name).length ∧
          ∃ d, Nearest dict (word.text name) ok d ∧ 1 ≤ d ∧ d ≤ 3) ∧
      (∀ first second, IsLeast {n | Lib.Edits n (first.map tolower) (second.map tolower)}
        (distance first second)) ∧
      ∀ first second, first.length < 2 ^ 32 - 1 → second.length < 2 ^ 32 - 1 →
        levenshteinDistance first second = distance first second ∧
          levenshteinDistance first second = levenshteinDistance second first := by
  refine ⟨⟨fun word ↦ checkWord dict (word.text name), ?_, fun word ok ↦ ?_⟩, fun first second ↦ ?_,
    fun first second hfirst hsecond ↦ ?_⟩
  · rw [checkMistakes, List.isEmpty_eq_false_iff.mpr hne]
    rfl
  · refine checkWord_iff hne ?_ hdict
    rw [View.text, List.length_take, List.length_drop]
    omega
  · exact Lib.isLeast_editDistance _ _
  · rw [levenshteinDistance_eq first second hfirst hsecond,
      levenshteinDistance_eq second first hsecond hfirst]
    exact ⟨rfl, Lib.editDistance_comm _ _⟩

/-- The word `frend`, where the dictionary has `friend`. -/
theorem checkMistakes_correct_friend : ∃ report : View → Option Str,
    checkMistakes [[102, 114, 105, 101, 110, 100]] [] [102, 114, 101, 110, 100]
        (⟨id, fun _ ↦ [97], fun _ ↦ 1⟩ : SourceManager Unit) () =
      [] ++ (splitIntoWords [102, 114, 101, 110, 100]).filterMap (fun word ↦
        (report word).map (logMistake ⟨id, fun _ ↦ [97], fun _ ↦ 1⟩ () [102, 114, 101, 110, 100]
          (word.text [102, 114, 101, 110, 100]))) ∧
      ∀ word ok, report word = some ok ↔ 3 < (word.text [102, 114, 101, 110, 100]).length ∧
        ∃ d, Nearest [[102, 114, 105, 101, 110, 100]] (word.text [102, 114, 101, 110, 100]) ok d ∧
          1 ≤ d ∧ d ≤ 3 :=
  (checkMistakes_correct [[102, 114, 105, 101, 110, 100]] (by decide) (by decide)
    [102, 114, 101, 110, 100] (by decide) [] ⟨id, fun _ ↦ [97], fun _ ↦ 1⟩ ()).1

/-- The distance of the empty string and one of 2^32 letters is not 0. -/
theorem not_least_edits : ¬IsLeast {n | Lib.Edits n (([] : Str).map tolower)
    ((List.replicate (2 ^ 32) (97 : UInt8)).map tolower)}
      (levenshteinDistance [] (List.replicate (2 ^ 32) 97)) := by
  intro h
  have heq := h.unique (Lib.isLeast_editDistance _ _)
  rw [levenshteinDistance_nil, List.map_nil, Lib.editDistance_nil_left, List.length_map,
    List.length_replicate] at heq
  exact absurd heq (by decide)

end ClangFun
end ManyTasks
