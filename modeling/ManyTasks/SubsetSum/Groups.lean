import ManyTasks.SubsetSum.FindSubsets
import Mathlib.Algebra.BigOperators.Group.List.Basic
import Mathlib.Algebra.Order.BigOperators.Group.Finset
import Mathlib.Algebra.Order.Group.Int
import Mathlib.Data.List.Nodup
import Mathlib.Data.Nat.Bitwise
import Mathlib.Tactic.Ring

/-!
# Choices and variants

The indices of a choice are its bits (`makeIndicesFromChoice_eq`), and a variant cuts them in two
groups.  The sum of a combination is that of the first group minus that of the second, and it has
two groups if neither is empty (`computeSum_eq`); for that the sums must not wrap.

Whatever indices are chosen and cut in two groups, there is a variant for the one order of the
groups or the other that has the last index in the second group, and so is one of those that are
gone through (`exists_variant`).
-/

set_option autoImplicit false

namespace ManyTasks
namespace SubsetSum

/-! ## The indices of a choice -/

theorem makeIndicesLoop_eq (start_index turns comb idx : ℕ) :
    makeIndicesLoop start_index turns comb idx =
      ((List.range turns).filter comb.testBit).map (· + idx + start_index) := by
  induction turns generalizing comb idx with
  | zero => rfl
  | succ turns ih =>
    rw [makeIndicesLoop]
    split
    · rename_i hzero
      simp [hzero]
    · have hshift : ∀ j, comb.testBit (j + 1) = (comb >>> 1).testBit j := fun j ↦ by
        rw [Nat.testBit_shiftRight, Nat.add_comm 1 j]
      rw [ih, List.range_succ_eq_map, List.filter_cons, List.filter_map]
      have hrest : ((List.range turns).filter (comb.testBit ∘ Nat.succ)).map Nat.succ =
          ((List.range turns).filter (comb >>> 1).testBit).map Nat.succ := by
        congr 1
        exact List.filter_congr fun j _ ↦ hshift j
      rw [hrest]
      split <;> simp [Function.comp_def, Nat.add_comm, Nat.add_left_comm]

/-- The indices of a choice are its bits. -/
theorem makeIndicesFromChoice_eq (choice start_index : ℕ) :
    makeIndicesFromChoice choice start_index =
    ((List.range 64).filter choice.testBit).map (· + start_index) :=
  makeIndicesLoop_eq start_index 64 choice 0

theorem nodup_makeIndices (choice start_index : ℕ) :
    (makeIndicesFromChoice choice start_index).Nodup := by
  rw [makeIndicesFromChoice_eq]
  exact (List.nodup_range.filter _).map (add_left_injective start_index)

theorem mem_makeIndices {choice start_index i : ℕ} :
    i ∈ makeIndicesFromChoice choice start_index ↔
      ∃ j < 64, choice.testBit j = true ∧ j + start_index = i := by
  simp [makeIndicesFromChoice_eq, and_assoc]

/-- The indices of a choice that is gone through are in its part. -/
theorem lt_of_mem_makeIndices {choice start_index width i : ℕ} (hchoice : choice < 2 ^ width)
    (hi : i ∈ makeIndicesFromChoice choice start_index) :
    start_index ≤ i ∧ i < start_index + width := by
  obtain ⟨j, -, hbit, rfl⟩ := mem_makeIndices.mp hi
  have hj : j < width := by
    by_contra hge
    rw [Nat.testBit_lt_two_pow
      (hchoice.trans_le (Nat.pow_le_pow_right Nat.two_pos (not_lt.mp hge)))] at hbit
    cases hbit
  omega

/-- A choice that is not empty has an index. -/
theorem makeIndices_ne_nil {choice : ℕ} (start_index : ℕ) (hpos : 0 < choice)
    (hlt : choice < 2 ^ 64) :
    makeIndicesFromChoice choice start_index ≠ [] := by
  obtain ⟨j, hj⟩ := Nat.exists_testBit_of_ne_zero hpos.ne'
  have hj64 : j < 64 := by
    by_contra hge
    rw [Nat.testBit_lt_two_pow (hlt.trans_le (Nat.pow_le_pow_right Nat.two_pos (not_lt.mp hge)))]
      at hj
    cases hj
  exact List.ne_nil_of_mem (mem_makeIndices.mpr ⟨j, hj64, hj, rfl⟩)

theorem length_makeIndices_le (choice start_index : ℕ) :
    (makeIndicesFromChoice choice start_index).length ≤ 64 := by
  rw [makeIndicesFromChoice_eq, List.length_map]
  exact (List.length_filter_le _ _).trans (List.length_range).le

/-- Every set of indices in a part is a choice. -/
theorem exists_choice {width : ℕ} (start_index : ℕ) (hwidth : width ≤ 64) (p : ℕ → Bool) :
    ∃ choice < 2 ^ width, ∀ i, i ∈ makeIndicesFromChoice choice start_index ↔
      ∃ j < width, p (j + start_index) = true ∧ j + start_index = i := by
  refine ⟨Nat.ofBits fun j : Fin width ↦ p (j + start_index), Nat.ofBits_lt_two_pow _, fun i ↦ ?_⟩
  rw [mem_makeIndices]
  constructor
  · rintro ⟨j, -, hbit, rfl⟩
    rw [Nat.testBit_ofBits] at hbit
    split at hbit
    · exact ⟨j, ‹_›, hbit, rfl⟩
    · cases hbit
  · rintro ⟨j, hj, hp, rfl⟩
    exact ⟨j, hj.trans_le hwidth, by rw [Nat.testBit_ofBits_lt _ _ hj]; exact hp, rfl⟩

/-! ## Two groups -/

variable {indices : List ℕ} {variant : ℕ} {i : ℕ}

theorem split_cons (i : ℕ) (indices : List ℕ) (variant : ℕ) :
    splitIndicesIntoTwoGroups (i :: indices) variant =
      if variant.testBit 0 then
        (i :: (splitIndicesIntoTwoGroups indices (variant >>> 1)).1,
          (splitIndicesIntoTwoGroups indices (variant >>> 1)).2)
      else
        ((splitIndicesIntoTwoGroups indices (variant >>> 1)).1,
          i :: (splitIndicesIntoTwoGroups indices (variant >>> 1)).2) := rfl

/-- Every index is in one of the groups. -/
theorem split_perm (indices : List ℕ) (variant : ℕ) :
    ((splitIndicesIntoTwoGroups indices variant).1 ++
      (splitIndicesIntoTwoGroups indices variant).2).Perm
      indices := by
  induction indices generalizing variant with
  | nil => exact .nil
  | cons i indices ih =>
    rw [split_cons]
    split
    · exact (ih (variant >>> 1)).cons i
    · exact List.perm_middle.trans ((ih (variant >>> 1)).cons i)

/-- The complement changes the groups. -/
theorem split_complement {w : ℕ} (hvariant : variant < 2 ^ w) (hlength : indices.length ≤ w) :
    splitIndicesIntoTwoGroups indices (2 ^ w - 1 - variant) =
      (splitIndicesIntoTwoGroups indices variant).swap := by
  induction indices generalizing variant w with
  | nil => rfl
  | cons i indices ih =>
    obtain _ | w := w
    · cases hlength
    · have hshift : (2 ^ (w + 1) - 1 - variant) >>> 1 = 2 ^ w - 1 - variant >>> 1 := by
        simp only [Nat.shiftRight_one]
        omega
      have hbit : (2 ^ (w + 1) - 1 - variant).testBit 0 = !variant.testBit 0 := by
        simp only [Nat.testBit_zero]
        rcases Nat.mod_two_eq_zero_or_one variant with h | h
        · rw [h, show (2 ^ (w + 1) - 1 - variant) % 2 = 1 by omega]
          rfl
        · rw [h, show (2 ^ (w + 1) - 1 - variant) % 2 = 0 by omega]
          rfl
      have hhalf : variant >>> 1 < 2 ^ w := by
        rw [Nat.shiftRight_one]
        omega
      rw [split_cons, split_cons, hshift, hbit, ih hhalf (Nat.le_of_succ_le_succ hlength)]
      cases variant.testBit 0 <;> rfl

/-- Which group the first index is in. -/
theorem mem_split_head (i : ℕ) (indices : List ℕ) (variant : ℕ) :
    if variant.testBit 0 then i ∈ (splitIndicesIntoTwoGroups (i :: indices) variant).1
    else i ∈ (splitIndicesIntoTwoGroups (i :: indices) variant).2 := by
  rw [split_cons]
  split
  · exact List.mem_cons_self
  · exact List.mem_cons_self

/-- The last index is in the second group if the last bit is not set. -/
theorem split_second_ne_nil (hindices : indices ≠ [])
    (hvariant : variant < sumVariantsCnt indices) :
    (splitIndicesIntoTwoGroups indices variant).2 ≠ [] := by
  induction indices generalizing variant with
  | nil => exact absurd rfl hindices
  | cons i indices ih =>
    rw [split_cons]
    split
    · rename_i hbit
      have hrest : indices ≠ [] := by
        rintro rfl
        obtain rfl : variant = 0 := by simpa [sumVariantsCnt] using hvariant
        simp at hbit
      have hpos := List.length_pos_of_ne_nil hrest
      refine ih hrest ?_
      rw [sumVariantsCnt, List.length_cons, Nat.add_sub_cancel] at hvariant
      have hpow : 2 ^ indices.length = 2 * 2 ^ (indices.length - 1) := by
        rw [← Nat.pow_succ', Nat.succ_eq_add_one, Nat.sub_add_cancel hpos]
      rw [sumVariantsCnt, Nat.shiftRight_one]
      omega
    · exact List.cons_ne_nil _ _

/-- All indices are in the second group if no bit is set. -/
theorem eq_zero_of_split_first (hvariant : variant < 2 ^ indices.length)
    (hfirst : (splitIndicesIntoTwoGroups indices variant).1 = []) : variant = 0 := by
  induction indices generalizing variant with
  | nil => simpa using hvariant
  | cons i indices ih =>
    rw [split_cons] at hfirst
    split at hfirst
    · cases hfirst
    · rename_i hbit
      have hhalf : variant >>> 1 < 2 ^ indices.length := by
        rw [List.length_cons] at hvariant
        rw [Nat.shiftRight_one]
        omega
      have hzero := ih hhalf hfirst
      rw [Nat.testBit_zero, decide_eq_true_eq] at hbit
      rw [Nat.shiftRight_one] at hzero
      omega

/-- The variant that has these indices in the first group. -/
def variantOf (q : ℕ → Bool) : List ℕ → ℕ
  | [] => 0
  | i :: indices => 2 * variantOf q indices + (q i).toNat

theorem split_variantOf (q : ℕ → Bool) (indices : List ℕ) :
    splitIndicesIntoTwoGroups indices (variantOf q indices) =
      (indices.filter q, indices.filter fun i ↦ !q i) := by
  induction indices with
  | nil => rfl
  | cons i indices ih =>
    have hbit : (variantOf q (i :: indices)).testBit 0 = q i := by
      rw [variantOf, Nat.testBit_zero]
      cases q i <;> simp
    have hshift : variantOf q (i :: indices) >>> 1 = variantOf q indices := by
      rw [variantOf, Nat.shiftRight_one]
      cases q i with
      | false => simp
      | true =>
        rw [Bool.toNat_true]
        omega
    rw [split_cons, hbit, hshift, ih]
    cases hq : q i <;> simp [hq]

theorem variantOf_lt {q : ℕ → Bool} (hindices : indices ≠ [])
    (hlast : q (indices.getLast hindices) = false) :
    variantOf q indices < sumVariantsCnt indices := by
  induction indices with
  | nil => exact absurd rfl hindices
  | cons i indices ih =>
    by_cases hrest : indices = []
    · subst hrest
      have hq : q i = false := hlast
      simp [variantOf, sumVariantsCnt, hq]
    · have hpos := List.length_pos_of_ne_nil hrest
      have hpow : 2 ^ indices.length = 2 * 2 ^ (indices.length - 1) := by
        rw [← Nat.pow_succ', Nat.succ_eq_add_one, Nat.sub_add_cancel hpos]
      have hlt := ih hrest (by rwa [List.getLast_cons hrest] at hlast)
      rw [sumVariantsCnt] at hlt
      rw [variantOf, sumVariantsCnt, List.length_cons, Nat.add_sub_cancel, hpow]
      have hq := (q i).toNat_le
      omega

/-- Two groups are those of a variant that is gone through, in the one order or the other. -/
theorem exists_variant (q : ℕ → Bool) (hindices : indices ≠ []) :
    ∃ variant < sumVariantsCnt indices,
      splitIndicesIntoTwoGroups indices variant = (indices.filter q, indices.filter fun i ↦ !q i) ∨
        splitIndicesIntoTwoGroups indices variant =
          (indices.filter q, indices.filter fun i ↦ !q i).swap := by
  cases hlast : q (indices.getLast hindices) with
  | false => exact ⟨_, variantOf_lt hindices hlast, .inl (split_variantOf q indices)⟩
  | true =>
    refine ⟨_, variantOf_lt (q := fun i ↦ !q i) hindices (by simp [hlast]), .inr ?_⟩
    rw [split_variantOf]
    simp

/-! ## Sums -/

/-- The sum of the elements with these indices. -/
def sumOf (data : List ℤ) (indices : List ℕ) : ℤ := (indices.map (data.getD · 0)).sum

/-- The sum of the first group minus that of the second. -/
def difference (data : List ℤ) (groups : List ℕ × List ℕ) : ℤ :=
  sumOf data groups.1 - sumOf data groups.2

/-- Neither group is empty. -/
def twoGroups (groups : List ℕ × List ℕ) : Bool := !groups.1.isEmpty && !groups.2.isEmpty

/-- The absolute values, summed up. -/
def magnitude (data : List ℤ) (indices : List ℕ) : ℕ :=
  (indices.map fun i ↦ (data.getD i 0).natAbs).sum

/-- It is the value of an `int64_t`. -/
def InInt64 (x : ℤ) : Prop := -2 ^ 63 ≤ x ∧ x < 2 ^ 63

theorem int64_eq {x : ℤ} (h : InInt64 x) : int64 x = x := by
  obtain ⟨hlow, hhigh⟩ := h
  refine Int.bmod_eq_of_le ?_ ?_ <;> omega

theorem inInt64_of_natAbs_lt {x : ℤ} (h : x.natAbs < 2 ^ 63) : InInt64 x := by
  constructor <;> omega

/-- The additions and subtractions of `computeSumLoop` stay in the range. -/
def SumFits (data : List ℤ) : List ℕ → ℕ → ℤ → Prop
  | [], _, _ => True
  | i :: indices, comb, res =>
    InInt64 (if comb.testBit 0 then res + data.getD i 0 else res - data.getD i 0) ∧
      SumFits data indices (comb >>> 1)
        (if comb.testBit 0 then res + data.getD i 0 else res - data.getD i 0)

theorem sumFits_of_small {data : List ℤ} {comb : ℕ} {res : ℤ}
    (hsmall : res.natAbs + magnitude data indices < 2 ^ 63) : SumFits data indices comb res := by
  induction indices generalizing comb res with
  | nil => trivial
  | cons i indices ih =>
    rw [magnitude, List.map_cons, List.sum_cons] at hsmall
    change _ + (_ + magnitude data indices) < _ at hsmall
    have hnext : (if comb.testBit 0 then res + data.getD i 0 else res - data.getD i 0).natAbs ≤
        res.natAbs + (data.getD i 0).natAbs := by
      split <;> omega
    exact ⟨inInt64_of_natAbs_lt (by omega), ih (by omega)⟩

theorem computeSumLoop_eq {data : List ℤ} {comb : ℕ} {prev_bit has_two_groups : Bool} {res : ℤ}
    (hfits : SumFits data indices comb res) :
    computeSumLoop data indices comb prev_bit res has_two_groups =
      (res + difference data (splitIndicesIntoTwoGroups indices comb),
        has_two_groups || if prev_bit then !(splitIndicesIntoTwoGroups indices comb).2.isEmpty
          else !(splitIndicesIntoTwoGroups indices comb).1.isEmpty) := by
  induction indices generalizing comb prev_bit has_two_groups res with
  | nil => cases prev_bit <;> simp [computeSumLoop, difference, sumOf, splitIndicesIntoTwoGroups]
  | cons i indices ih =>
    obtain ⟨hnext, hrest⟩ := hfits
    rw [computeSumLoop, split_cons, int64_eq hnext, ih hrest]
    cases hbit : comb.testBit 0 with
    | true =>
      refine Prod.ext ?_ ?_
      · simp only [difference, sumOf, List.map_cons, List.sum_cons, if_true]
        ring
      · cases prev_bit <;> cases has_two_groups <;> simp
    | false =>
      refine Prod.ext ?_ ?_
      · simp only [difference, sumOf, List.map_cons, List.sum_cons, Bool.false_eq_true, if_false]
        ring
      · cases prev_bit <;> cases has_two_groups <;> simp

/-- The sum is that of the first group minus that of the second. -/
theorem computeSum_eq {data : List ℤ} {variant : ℕ} (hfits : SumFits data indices variant 0) :
    computeSum data indices variant =
      (difference data (splitIndicesIntoTwoGroups indices variant),
        twoGroups (splitIndicesIntoTwoGroups indices variant)) := by
  rw [computeSum, computeSumLoop_eq hfits]
  refine Prod.ext (zero_add _) ?_
  cases indices with
  | nil => simp [splitIndicesIntoTwoGroups, twoGroups]
  | cons i indices =>
    have hhead := mem_split_head i indices variant
    cases hbit : variant.testBit 0 with
    | true =>
      rw [hbit, if_pos rfl] at hhead
      simp [twoGroups, List.ne_nil_of_mem hhead]
    | false =>
      rw [hbit, if_neg Bool.false_ne_true] at hhead
      simp [twoGroups, List.ne_nil_of_mem hhead]

theorem natAbs_difference_le (data : List ℤ) (indices : List ℕ) (variant : ℕ) :
    (difference data (splitIndicesIntoTwoGroups indices variant)).natAbs ≤
      magnitude data indices := by
  induction indices generalizing variant with
  | nil => simp [difference, sumOf, splitIndicesIntoTwoGroups]
  | cons i indices ih =>
    have hrest := ih (variant >>> 1)
    rw [split_cons]
    simp only [difference, sumOf, magnitude] at hrest ⊢
    split <;> simp only [List.map_cons, List.sum_cons] <;> omega

/-- Indices that are different do not add up to more than all. -/
theorem magnitude_le {data : List ℤ} (hnodup : indices.Nodup) :
    magnitude data indices ≤ (data.map Int.natAbs).sum := by
  have hdata : data.map Int.natAbs =
      (List.range data.length).map fun i ↦ (data.getD i 0).natAbs := by
    refine List.ext_getElem (by simp) fun i hi _ ↦ ?_
    rw [List.length_map] at hi
    simp [List.getElem?_eq_getElem hi]
  rw [hdata, magnitude, ← List.sum_toFinset _ hnodup, ← List.sum_toFinset _ List.nodup_range]
  refine Finset.sum_le_sum_of_ne_zero fun i _ hne ↦ ?_
  rw [List.mem_toFinset, List.mem_range]
  by_contra hge
  rw [List.getD_eq_default _ _ (not_lt.mp hge)] at hne
  exact hne rfl

end SubsetSum
end ManyTasks
