import ManyTasks.Lib.Loop
import ManyTasks.SubsetSum.Groups
import Mathlib.Logic.Relation

/-!
# The operations that are executed

The additions and subtractions of `computeSum` and the negations of `checkChoice` are those of
`int64_t`.  What is said here follows the code from one of them to the next and says that what each
comes to fits (`NoOverflow`): the loops are left where the code leaves them, a sum is not negated if
it has been found in the map as it is, and a thread looks at a choice only if it comes to it.  Of an
operation that is not executed nothing is said.
-/

set_option autoImplicit false

namespace ManyTasks
namespace SubsetSum

/-- The groups of a combination. -/
def groups (choice start_index variant : ℕ) : List ℕ × List ℕ :=
  splitIndicesIntoTwoGroups (makeIndicesFromChoice choice start_index) variant

/-- The combinations that are gone through for a choice. -/
def variants (choice start_index : ℕ) : ℕ :=
  sumVariantsCnt (makeIndicesFromChoice choice start_index)

/-- The `k` of `findEqualSumSubsets`. -/
def firstPart (data : List ℤ) : ℕ := if data.length > 2 then data.length / 2 else 1

/-- `!sum && has_two_groups` -/
def balanced (sum : ℤ × Bool) : Bool := sum.1 = 0 && sum.2

/-- The operations of `computeChoice` stay in the range. -/
def ChoiceFits (data : List ℤ) (choice : ℕ) : Prop :=
  let chosen_indices := makeIndicesFromChoice choice 0
  Lib.UpTo (fun i ↦ balanced (computeSum data chosen_indices i) = true)
    (fun i ↦ SumFits data chosen_indices i 0) (List.range (sumVariantsCnt chosen_indices))

/-- Those of the loop of `computeSumMap`. -/
def SumMapFits (data : List ℤ) : List ℕ → Sums → Prop
  | [], _ => True
  | i :: choices, sums =>
    ChoiceFits data i ∧
      (zeroHasTwoGroups (computeChoice data i sums) = false →
        SumMapFits data choices (computeChoice data i sums))

/-- Those of the body of the loop of `checkChoice`; it negates the sum if it has not returned
before. -/
def VariantFits (data : List ℤ) (sums : Sums) (choice : ℕ) (chosen_indices : List ℕ)
    (i : ℕ) : Prop :=
  let sum := computeSum data chosen_indices i
  SumFits data chosen_indices i 0 ∧
    (joinFound (sums sum.1) choice (complement i) sum.2 = none → InInt64 (-sum.1))

/-- Those of `checkChoice`. -/
def CheckFits (data : List ℤ) (sums : Sums) (k choice : ℕ) : Prop :=
  let chosen_indices := makeIndicesFromChoice choice k
  Lib.UpTo (fun i ↦ (checkVariant data sums choice chosen_indices i).isSome = true)
    (VariantFits data sums choice chosen_indices) (List.range (sumVariantsCnt chosen_indices))

/-- Those of `findSuitableCombination`, whatever the threads do. -/
def SearchFits (data : List ℤ) (sums : Sums) (k : ℕ) : Prop :=
  if choicesPerThread data k < 8 then
    Lib.UpTo (fun i ↦ (checkChoice data sums i k).isSome = true) (CheckFits data sums k)
      (List.range' 1 (choicesCnt data k - 1))
  else
    ∀ s, Relation.ReflTransGen (Step (searchTask data sums k)) (searchTask data sums k).start s →
      ∀ t i, s.places t = .testing i → s.combination_exists = false → CheckFits data sums k i

/-- **No operation that is executed leaves the range of `int64_t`.** -/
def NoOverflow (data : List ℤ) : Prop :=
  2 ≤ data.length →
    let k := firstPart data
    let sums := computeSumMap data k
    SumMapFits data (List.range' 1 (2 ^ k - 1)) (fun _ ↦ none) ∧
      (zeroHasTwoGroups sums = false → SearchFits data sums k)

end SubsetSum
end ManyTasks
