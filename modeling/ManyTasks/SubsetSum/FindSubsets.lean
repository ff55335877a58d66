import ManyTasks.Lib.Transition
import Mathlib.Algebra.BigOperators.Group.Finset.Basic
import Mathlib.Data.Nat.Notation

/-!
# Two subsets with the same sum

A choice is a set of indices, as the bits of a number, and a variant says by its bits which of the
chosen indices are in the first group; the others are in the second.  The sum of a combination of
both is that of the first group minus that of the second.

The indices are cut in two parts.  For the first part `computeSumMap` goes through all combinations
and keeps one for every sum, with two groups that are not empty if there is one.  For the second
part `checkChoice` looks for a combination that goes together with one in the map, and here the
choices are divided among eight threads.  A variant and its complement are the same but for the
sign, and only the one is looked at for which the last index is in the second group.

The sums are `int64_t`; a sum that does not fit wraps.  `std::pow` is exact.  An `unordered_map` is
a partial function.
-/

set_option autoImplicit false

namespace ManyTasks
namespace SubsetSum

open Function (update)

def kThreadCnt : ℕ := 8

structure Combination where
  choice : ℕ
  variant : ℕ
  hasTwoGroups : Bool
deriving DecidableEq, Repr

/-- What is stored in an `int64_t`. -/
def int64 (x : ℤ) : ℤ := x.bmod (2 ^ 64)

/-! ## Sums and groups -/

/-- The loop of `computeSum`. -/
def computeSumLoop (data : List ℤ) : List ℕ → ℕ → Bool → ℤ → Bool → ℤ × Bool
  | [], _, _, res, has_two_groups => (res, has_two_groups)
  | i :: indices, comb, prev_bit, res, has_two_groups =>
    let bit := comb.testBit 0
    let res := int64 (if bit then res + data.getD i 0 else res - data.getD i 0)
    computeSumLoop data indices (comb >>> 1) bit res (has_two_groups || (prev_bit ^^ bit))

def computeSum (data : List ℤ) (indices : List ℕ) (variant : ℕ) : ℤ × Bool :=
  computeSumLoop data indices variant (variant.testBit 0) 0 false

/-- The loop of `makeIndicesFromChoice`; there are as many turns left as bits. -/
def makeIndicesLoop (start_index : ℕ) : ℕ → ℕ → ℕ → List ℕ
  | 0, _, _ => []
  | turns + 1, comb, idx =>
    if comb = 0 then []
    else (if comb.testBit 0 then [idx + start_index] else []) ++
      makeIndicesLoop start_index turns (comb >>> 1) (idx + 1)

def makeIndicesFromChoice (choice start_index : ℕ) : List ℕ :=
  makeIndicesLoop start_index 64 choice 0

def splitIndicesIntoTwoGroups : List ℕ → ℕ → List ℕ × List ℕ
  | [], _ => ([], [])
  | i :: indices, comb =>
    let (first_indices, second_indices) := splitIndicesIntoTwoGroups indices (comb >>> 1)
    if comb.testBit 0 then (i :: first_indices, second_indices)
    else (first_indices, i :: second_indices)

def makeSubsets (comb : Combination) (start_index : ℕ) : List ℕ × List ℕ :=
  splitIndicesIntoTwoGroups (makeIndicesFromChoice comb.choice start_index) comb.variant

structure Subsets where
  first_indices : List ℕ
  second_indices : List ℕ
  exists_ : Bool
deriving DecidableEq, Repr

/-- `Subsets{}` -/
def noSubsets : Subsets := ⟨[], [], false⟩

def mergeCombinations (first second : Combination) (start_index : ℕ) : Subsets :=
  let subsets := makeSubsets first 0
  let others := makeSubsets second start_index
  ⟨subsets.1 ++ others.1, subsets.2 ++ others.2, true⟩

/-! ## The map of sums -/

/-- `std::unordered_map<int64_t, Combination>` -/
abbrev Sums := ℤ → Option Combination

def sumVariantsCnt (chosen_indices : List ℕ) : ℕ := 2 ^ (chosen_indices.length - 1)

/-- What `computeChoice` does with one combination. -/
def insertSum (sums : Sums) (sum : ℤ) (comb : Combination) : Sums :=
  match sums sum with
  | some found =>
    if comb.hasTwoGroups && !found.hasTwoGroups then update sums sum (some comb) else sums
  | none => update sums sum (some comb)

/-- The loop of `computeChoice` over the variants. -/
def computeChoiceLoop (data : List ℤ) (choice : ℕ) (chosen_indices : List ℕ) : List ℕ → Sums → Sums
  | [], sums => sums
  | i :: variants, sums =>
    let (sum, has_two_groups) := computeSum data chosen_indices i
    let sums := insertSum sums sum ⟨choice, i, has_two_groups⟩
    if sum = 0 && has_two_groups then sums
    else computeChoiceLoop data choice chosen_indices variants sums

def computeChoice (data : List ℤ) (choice : ℕ) (sums : Sums) : Sums :=
  let chosen_indices := makeIndicesFromChoice choice 0
  computeChoiceLoop data choice chosen_indices (List.range (sumVariantsCnt chosen_indices)) sums

/-- `sums.contains(0) && sums[0].hasTwoGroups` -/
def zeroHasTwoGroups (sums : Sums) : Bool := (sums 0).any Combination.hasTwoGroups

/-- The loop of `computeSumMap` over the choices. -/
def computeSumMapLoop (data : List ℤ) : List ℕ → Sums → Sums
  | [], sums => sums
  | i :: choices, sums =>
    let sums := computeChoice data i sums
    if zeroHasTwoGroups sums then sums else computeSumMapLoop data choices sums

def computeSumMap (data : List ℤ) (k : ℕ) : Sums :=
  computeSumMapLoop data (List.range' 1 (2 ^ k - 1)) fun _ ↦ none

/-! ## Looking for the other part -/

/-- `~i` -/
def complement (i : ℕ) : ℕ := 2 ^ 64 - 1 - i

/-- A combination from the map, and one of this variant, if both groups get an index. -/
def joinFound (found : Option Combination) (choice variant : ℕ) (has_two_groups : Bool) :
    Option (Combination × Combination) :=
  found.bind fun found_combination ↦
    if has_two_groups || found_combination.hasTwoGroups ||
        (found_combination.variant ^^^ variant).testBit 0 then
      some (found_combination, ⟨choice, variant, has_two_groups⟩)
    else none

/-- The body of the loop of `checkChoice`. -/
def checkVariant (data : List ℤ) (sums : Sums) (choice : ℕ) (chosen_indices : List ℕ) (i : ℕ) :
    Option (Combination × Combination) :=
  let (sum, has_two_groups) := computeSum data chosen_indices i
  (joinFound (sums sum) choice (complement i) has_two_groups).or
    ((joinFound (sums (int64 (-sum))) choice i has_two_groups).or
      (if sum = 0 && has_two_groups then some (⟨0, 0, false⟩, ⟨choice, i, has_two_groups⟩)
        else none))

def checkChoice (data : List ℤ) (sums : Sums) (choice start_index : ℕ) :
    Option (Combination × Combination) :=
  let chosen_indices := makeIndicesFromChoice choice start_index
  (List.range (sumVariantsCnt chosen_indices)).findSome?
    (checkVariant data sums choice chosen_indices)

/-! ## The threads -/

section Threads

/-- Where a thread is that goes through choices. -/
inductive Place where
  /-- Before `combination_exists.test()`, in the turn for a choice. -/
  | testing (i : ℕ)
  /-- Before `combination_exists.test_and_set()`. -/
  | setting (found_combinations : Combination × Combination)
  /-- Before `found_combination` is set. -/
  | storing (found_combinations : Combination × Combination)
  | finished
deriving DecidableEq, Repr

/-- What the threads share, and where they are. -/
structure Search where
  combination_exists : Bool
  found_combination : Option (Combination × Combination)
  places : Fin kThreadCnt → Place

/-- What is checked by `check`, and where the loop of a thread begins and ends. -/
structure Task where
  check : ℕ → Option (Combination × Combination)
  choice_start : Fin kThreadCnt → ℕ
  choices_cnt : Fin kThreadCnt → ℕ

/-- The condition of the loop. -/
def Task.loop (task : Task) (t : Fin kThreadCnt) (i : ℕ) : Place :=
  if i < task.choice_start t + task.choices_cnt t then .testing i else .finished

def Task.start (task : Task) : Search := ⟨false, none, fun t ↦ task.loop t (task.choice_start t)⟩

/-- Where `threadCheckChoices` is after it has looked at a choice. -/
def Task.checked (task : Task) (t : Fin kThreadCnt) (i : ℕ) : Place :=
  match task.check i with
  | some found_combinations => .setting found_combinations
  | none => task.loop t (i + 1)

def Search.go (s : Search) (t : Fin kThreadCnt) (p : Place) : Search :=
  { s with places := update s.places t p }

/-- One step of one thread in `threadCheckChoices`. -/
inductive Step (task : Task) : Search → Search → Prop where
  | test {s} (t i) (h : s.places t = .testing i) (hflag : s.combination_exists = false) :
      Step task s (s.go t (task.checked t i))
  | stop {s} (t i) (h : s.places t = .testing i) (hflag : s.combination_exists = true) :
      Step task s (s.go t .finished)
  | testAndSet {s} (t found) (h : s.places t = .setting found)
      (hflag : s.combination_exists = false) :
      Step task s ({ s with combination_exists := true }.go t (.storing found))
  | late {s} (t found) (h : s.places t = .setting found) (hflag : s.combination_exists = true) :
      Step task s (s.go t .finished)
  | store {s} (t found) (h : s.places t = .storing found) :
      Step task s ({ s with found_combination := some found }.go t .finished)

/-- All threads can be joined. -/
def Search.Joined (s : Search) : Prop := ∀ t, s.places t = .finished

end Threads

variable (data : List ℤ) (sums : Sums) (k : ℕ)

def choicesCnt : ℕ := 2 ^ (data.length - k)

def choicesPerThread : ℕ := (choicesCnt data k - 1) / kThreadCnt

def residial : ℕ := (choicesCnt data k - 1) % kThreadCnt

def realChoicesPerThread (i : ℕ) : ℕ :=
  if i < residial data k then choicesPerThread data k + 1 else choicesPerThread data k

/-- The variable `current_choice`, which is an `int`, when thread `i` is started. -/
def currentChoice : ℕ → ℤ
  | 0 => 1
  | i + 1 => (currentChoice i + realChoicesPerThread data k i).bmod (2 ^ 32)

/-- What the threads do; `current_choice` is converted to `size_t`. -/
def searchTask : Task where
  check i := checkChoice data sums i k
  choice_start t := (currentChoice data k t % 2 ^ 64).toNat
  choices_cnt t := realChoicesPerThread data k t

/-- `findSuitableCombination` returns, whatever the threads do first, and what it returns has
`P`. -/
def findSuitableCombination (P : Option (Combination × Combination) → Prop) : Prop :=
  if choicesPerThread data k < 8 then
    P ((List.range' 1 (choicesCnt data k - 1)).findSome? fun i ↦ checkChoice data sums i k)
  else
    Lib.Inevitable (Step (searchTask data sums k)) (fun s ↦ s.Joined ∧ P s.found_combination)
      (searchTask data sums k).start

/-- `findEqualSumSubsets` returns, whatever the threads do first, and what it returns has `P`. -/
def findEqualSumSubsets (P : Subsets → Prop) : Prop :=
  if data.length < 2 then P noSubsets
  else
    let k := if data.length > 2 then data.length / 2 else 1
    let sums := computeSumMap data k
    match sums 0, zeroHasTwoGroups sums with
    | some comb, true => P ⟨(makeSubsets comb 0).1, (makeSubsets comb 0).2, true⟩
    | _, _ => findSuitableCombination data sums k fun
      | some (first, second) => P (mergeCombinations first second k)
      | none => P noSubsets

end SubsetSum
end ManyTasks
