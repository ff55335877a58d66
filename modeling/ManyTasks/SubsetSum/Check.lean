import ManyTasks.SubsetSum.Sums
import Mathlib.Data.Finset.Basic

/-!
# Two combinations that go together

`checkChoice` finds a combination of the second part for which there is one of the first part in the
map, with the same sum or the opposite one, or none at all.  What it finds is a solution
(`checkChoice_sound`): each group gets an index from a part that has two groups, or the first index
of one part is in the one group and that of the other part in the other.

Whether something is found for a combination of the second part does not depend on the map, if the
map has all sums of the first part (`Hit`, `checkVariant_isSome_iff`).

If no combination is found there is no solution (`not_solvable`).  A solution has a combination in
each part, up to the sign, whose sums are the same or opposite.  If they are the same something is
found, whatever is in the map.  If they are opposite, nothing is found only if neither has two
groups, and then one of the groups of the solution would be empty.
-/

set_option autoImplicit false

namespace ManyTasks
namespace SubsetSum

/-- The two lists are what is looked for. -/
structure Subsets.Solves (data : List ℤ) (subsets : Subsets) : Prop where
  inRange : ∀ i, i ∈ subsets.first_indices ∨ i ∈ subsets.second_indices → i < data.length
  nodup_first : subsets.first_indices.Nodup
  nodup_second : subsets.second_indices.Nodup
  disjoint : subsets.first_indices.Disjoint subsets.second_indices
  first_ne_nil : subsets.first_indices ≠ []
  second_ne_nil : subsets.second_indices ≠ []
  sum_eq : sumOf data subsets.first_indices = sumOf data subsets.second_indices

/-- There are two disjoint sets of indices, not empty, with the same sum. -/
def Solvable (data : List ℤ) : Prop :=
  ∃ A B : Finset ℕ, A ⊆ Finset.range data.length ∧ B ⊆ Finset.range data.length ∧ Disjoint A B ∧
    A.Nonempty ∧ B.Nonempty ∧ ∑ i ∈ A, data.getD i 0 = ∑ i ∈ B, data.getD i 0

theorem Subsets.Solves.solvable {data : List ℤ} {subsets : Subsets} (h : subsets.Solves data) :
    Solvable data := by
  refine ⟨subsets.first_indices.toFinset, subsets.second_indices.toFinset, fun i hi ↦ ?_,
    fun i hi ↦ ?_, ?_, List.toFinset_nonempty_iff _ |>.mpr h.first_ne_nil,
      List.toFinset_nonempty_iff _ |>.mpr h.second_ne_nil,
    ?_⟩
  · exact Finset.mem_range.mpr (h.inRange i (.inl (List.mem_toFinset.mp hi)))
  · exact Finset.mem_range.mpr (h.inRange i (.inr (List.mem_toFinset.mp hi)))
  · exact List.disjoint_toFinset_iff_disjoint.mpr h.disjoint
  · rw [List.sum_toFinset _ h.nodup_first, List.sum_toFinset _ h.nodup_second]
    exact h.sum_eq

/-! ## What is found is a solution -/

section Soundness

variable {data : List ℤ} {k choice start_index variant i : ℕ} {first second : Combination}
  {sums : Sums}

theorem makeSubsets_eq (comb : Combination) (start_index : ℕ) :
    makeSubsets comb start_index = groups comb.choice start_index comb.variant := rfl

theorem mem_groups {c : ℕ} :
    i ∈ (groups c start_index variant).1 ∨ i ∈ (groups c start_index variant).2 ↔
      i ∈ makeIndicesFromChoice c start_index := by
  rw [← List.mem_append]
  exact (split_perm _ _).mem_iff

theorem nodup_groups (c start_index variant : ℕ) :
    ((groups c start_index variant).1 ++ (groups c start_index variant).2).Nodup :=
  (split_perm _ _).nodup_iff.mpr (nodup_makeIndices c start_index)

/-- Combinations of the two parts have no indices in common. -/
theorem solves_mergeCombinations (hk : k ≤ data.length) (hfirst : first.choice < 2 ^ k)
    (hsecond : second.choice < 2 ^ (data.length - k))
    (hsum : difference data (makeSubsets first 0) + difference data (makeSubsets second k) = 0)
    (hne : (mergeCombinations first second k).first_indices ≠ [])
    (hne' : (mergeCombinations first second k).second_indices ≠ []) :
    (mergeCombinations first second k).Solves data := by
  have hlow : ∀ {i}, i ∈ (makeSubsets first 0).1 ∨ i ∈ (makeSubsets first 0).2 → i < k := fun h ↦ by
    have := lt_of_mem_makeIndices hfirst (mem_groups.mp h)
    omega
  have hhigh : ∀ {i}, i ∈ (makeSubsets second k).1 ∨ i ∈ (makeSubsets second k).2 →
      k ≤ i ∧ i < data.length := fun h ↦ by
    have := lt_of_mem_makeIndices hsecond (mem_groups.mp h)
    omega
  obtain ⟨hf₁, hf₂, hf⟩ := List.nodup_append.mp (nodup_groups first.choice 0 first.variant)
  obtain ⟨hs₁, hs₂, hs⟩ := List.nodup_append.mp (nodup_groups second.choice k second.variant)
  refine ⟨fun i hi ↦ ?_, hf₁.append hs₁ fun i hi hi' ↦ ?_, hf₂.append hs₂ fun i hi hi' ↦ ?_,
    fun i hi hi' ↦ ?_, hne, hne', ?_⟩
  · simp only [mergeCombinations, List.mem_append] at hi
    rcases hi with (hi | hi) | (hi | hi)
    · exact (hlow (.inl hi)).trans_le hk
    · exact (hhigh (.inl hi)).2
    · exact (hlow (.inr hi)).trans_le hk
    · exact (hhigh (.inr hi)).2
  · exact absurd (hlow (.inl hi)) (not_lt.mpr (hhigh (.inl hi')).1)
  · exact absurd (hlow (.inr hi)) (not_lt.mpr (hhigh (.inr hi')).1)
  · simp only [mergeCombinations, List.mem_append] at hi hi'
    rcases hi with hi | hi <;> rcases hi' with hi' | hi'
    · exact hf i hi i hi' rfl
    · exact absurd (hlow (.inl hi)) (not_lt.mpr (hhigh (.inr hi')).1)
    · exact absurd (hlow (.inr hi')) (not_lt.mpr (hhigh (.inl hi)).1)
    · exact hs i hi i hi' rfl
  · simp only [mergeCombinations, sumOf, List.map_append, List.sum_append]
    simp only [difference, sumOf] at hsum
    omega

/-- A part with two groups is enough. -/
theorem merge_ne_nil_of_twoGroups (h : twoGroups (makeSubsets first 0) = true ∨
    twoGroups (makeSubsets second start_index) = true) :
    (mergeCombinations first second start_index).first_indices ≠ [] ∧
      (mergeCombinations first second start_index).second_indices ≠ [] := by
  simp only [twoGroups, Bool.and_eq_true, Bool.not_eq_true', List.isEmpty_eq_false_iff] at h
  simp only [mergeCombinations, ne_eq, List.append_eq_nil_iff, not_and]
  rcases h with ⟨h, h'⟩ | ⟨h, h'⟩
  · exact ⟨fun hnil ↦ absurd hnil h, fun hnil ↦ absurd hnil h'⟩
  · exact ⟨fun _ ↦ h, fun _ ↦ h'⟩

/-- The first indices of the two parts are in different groups. -/
theorem merge_ne_nil_of_bits (hfirst : makeIndicesFromChoice first.choice 0 ≠ [])
    (hsecond : makeIndicesFromChoice second.choice start_index ≠ [])
    (hbits : (first.variant ^^^ second.variant).testBit 0 = true) :
    (mergeCombinations first second start_index).first_indices ≠ [] ∧
      (mergeCombinations first second start_index).second_indices ≠ [] := by
  obtain ⟨i, is, his⟩ := List.exists_cons_of_ne_nil hfirst
  obtain ⟨j, js, hjs⟩ := List.exists_cons_of_ne_nil hsecond
  have hi := mem_split_head i is first.variant
  have hj := mem_split_head j js second.variant
  rw [← his] at hi
  rw [← hjs] at hj
  rw [Nat.testBit_xor, bne_iff_ne] at hbits
  simp only [mergeCombinations, makeSubsets, ne_eq, List.append_eq_nil_iff, not_and]
  cases hf : first.variant.testBit 0 <;> cases hs : second.variant.testBit 0
  · exact absurd (hf.trans hs.symm) hbits
  · rw [hf, if_neg Bool.false_ne_true] at hi
    rw [hs, if_pos rfl] at hj
    exact ⟨fun _ ↦ List.ne_nil_of_mem hj, fun hnil ↦ absurd hnil (List.ne_nil_of_mem hi)⟩
  · rw [hf, if_pos rfl] at hi
    rw [hs, if_neg Bool.false_ne_true] at hj
    exact ⟨fun hnil ↦ absurd hnil (List.ne_nil_of_mem hi), fun _ ↦ List.ne_nil_of_mem hj⟩
  · exact absurd (hf.trans hs.symm) hbits

theorem variants_le (choice start_index : ℕ) : variants choice start_index ≤ 2 ^ 63 := by
  have := length_makeIndices_le choice start_index
  exact Nat.pow_le_pow_right Nat.two_pos (by omega)

/-- The complement changes the groups. -/
theorem groups_complement (hi : i < variants choice start_index) :
    groups choice start_index (complement i) = (groups choice start_index i).swap := by
  have := variants_le choice start_index
  exact split_complement (by omega) (length_makeIndices_le choice start_index)

theorem difference_swap (data : List ℤ) (g : List ℕ × List ℕ) :
    difference data g.swap = -difference data g := (neg_sub _ _).symm

theorem twoGroups_swap (g : List ℕ × List ℕ) : twoGroups g.swap = twoGroups g := Bool.and_comm _ _

theorem joinFound_eq_some {found : Option Combination} {two : Bool} :
    joinFound found choice variant two = some (first, second) ↔
      found = some first ∧ second = ⟨choice, variant, two⟩ ∧
        (two || first.hasTwoGroups || (first.variant ^^^ variant).testBit 0) = true := by
  rw [joinFound, Option.bind_eq_some_iff]
  constructor
  · rintro ⟨f, hf, hjoin⟩
    split at hjoin
    · obtain ⟨rfl, rfl⟩ := Prod.mk.inj (Option.some.inj hjoin)
      exact ⟨hf, rfl, ‹_›⟩
    · cases hjoin
  · rintro ⟨rfl, rfl, hcond⟩
    exact ⟨first, rfl, if_pos hcond⟩

/-- Two combinations that may be joined are a solution. -/
theorem solves_merge (hk : k ≤ data.length) (hlength : data.length ≤ 64) {sum : ℤ} {two : Bool}
    (hentry : Entry data k sum first) (hpos : 0 < choice) (hlt : choice < 2 ^ (data.length - k))
    (hdiff : difference data (groups choice k variant) = -sum)
    (htwo : two = twoGroups (groups choice k variant))
    (hcond : (two || first.hasTwoGroups || (first.variant ^^^ variant).testBit 0) = true) :
    (mergeCombinations first ⟨choice, variant, two⟩ k).Solves data := by
  have hpow : ∀ {w}, w ≤ 64 → 2 ^ w ≤ 2 ^ 64 := fun h ↦ Nat.pow_le_pow_right Nat.two_pos h
  have hne : (mergeCombinations first ⟨choice, variant, two⟩ k).first_indices ≠ [] ∧
      (mergeCombinations first ⟨choice, variant, two⟩ k).second_indices ≠ [] := by
    rw [Bool.or_eq_true, Bool.or_eq_true] at hcond
    rcases hcond with (h | h) | h
    · exact merge_ne_nil_of_twoGroups (.inr (htwo.symm.trans h))
    · exact merge_ne_nil_of_twoGroups (.inl (hentry.two_eq.symm.trans h))
    · exact merge_ne_nil_of_bits
        (makeIndices_ne_nil 0 hentry.pos (hentry.lt.trans_le (hpow (hk.trans hlength))))
        (makeIndices_ne_nil k hpos (hlt.trans_le (hpow (by omega)))) h
  refine solves_mergeCombinations hk hentry.lt hlt ?_ hne.1 hne.2
  rw [hentry.sum_eq, makeSubsets_eq, hdiff, add_neg_cancel]

/-- What is joined is a solution. -/
theorem solves_of_joinFound (hk : k ≤ data.length) (hlength : data.length ≤ 64) {sum : ℤ}
    {two : Bool} (hsound : Sound data k sums) (hpos : 0 < choice)
    (hlt : choice < 2 ^ (data.length - k))
    (hdiff : difference data (groups choice k variant) = -sum)
    (htwo : two = twoGroups (groups choice k variant))
    (hjoin : joinFound (sums sum) choice variant two = some (first, second)) :
    (mergeCombinations first second k).Solves data := by
  obtain ⟨hfound, rfl, hcond⟩ := joinFound_eq_some.mp hjoin
  exact solves_merge hk hlength (hsound sum first hfound) hpos hlt hdiff htwo hcond

/-- A combination with two groups and the sum 0 is a solution by itself. -/
theorem solves_of_balanced (hk : k ≤ data.length) (hlt : choice < 2 ^ (data.length - k))
    (two : Bool) (hbalanced : Balanced data k choice variant) :
    (mergeCombinations ⟨0, 0, false⟩ ⟨choice, variant, two⟩ k).Solves data := by
  have hne := @merge_ne_nil_of_twoGroups k ⟨0, 0, false⟩ ⟨choice, variant, two⟩ (.inr hbalanced.2)
  refine solves_mergeCombinations hk (Nat.two_pow_pos k) hlt ?_ hne.1 hne.2
  rw [makeSubsets_eq, makeSubsets_eq, hbalanced.1, add_zero]
  rfl

/-- What `checkVariant` does if its operations stay in the range. -/
theorem checkVariant_eq (hfits : VariantFits data sums choice (makeIndicesFromChoice choice k) i) :
    checkVariant data sums choice (makeIndicesFromChoice choice k) i =
      (joinFound (sums (difference data (groups choice k i))) choice (complement i)
          (twoGroups (groups choice k i))).or
        ((joinFound (sums (-difference data (groups choice k i))) choice i
            (twoGroups (groups choice k i))).or
          (if difference data (groups choice k i) = 0 && twoGroups (groups choice k i) then
            some (⟨0, 0, false⟩, ⟨choice, i, twoGroups (groups choice k i)⟩)
          else none)) := by
  obtain ⟨hsum, hneg⟩ := hfits
  simp only [computeSum_eq hsum] at hneg
  rw [checkVariant, computeSum_eq hsum]
  change Option.or (joinFound (sums (difference data (groups choice k i))) choice (complement i)
    (twoGroups (groups choice k i))) _ = _
  cases hjoin : joinFound (sums (difference data (groups choice k i))) choice (complement i)
      (twoGroups (groups choice k i)) with
  | some found => rfl
  | none =>
    rw [int64_eq (hneg hjoin)]
    rfl

/-- **What is found is a solution.** -/
theorem checkVariant_sound (hfits : VariantFits data sums choice (makeIndicesFromChoice choice k) i)
    (hk : k ≤ data.length) (hlength : data.length ≤ 64) (hsound : Sound data k sums)
    (hpos : 0 < choice)
    (hlt : choice < 2 ^ (data.length - k)) (hi : i < variants choice k)
    (hcheck : checkVariant data sums choice (makeIndicesFromChoice choice k) i =
      some (first, second)) :
    (mergeCombinations first second k).Solves data := by
  rw [checkVariant_eq hfits] at hcheck
  rcases Option.or_eq_some_iff.mp hcheck with hjoin | ⟨-, hcheck⟩
  · refine solves_of_joinFound hk hlength hsound hpos hlt ?_ ?_ hjoin
    · rw [groups_complement hi, difference_swap]
    · rw [groups_complement hi, twoGroups_swap]
  rcases Option.or_eq_some_iff.mp hcheck with hjoin | ⟨-, hcheck⟩
  · exact solves_of_joinFound hk hlength hsound hpos hlt (neg_neg _).symm rfl hjoin
  split at hcheck
  · rename_i hzero
    rw [Bool.and_eq_true, decide_eq_true_eq] at hzero
    obtain ⟨rfl, rfl⟩ := Prod.mk.inj (Option.some.inj hcheck)
    exact solves_of_balanced hk hlt _ hzero
  · cases hcheck

theorem checkChoice_sound (hfits : CheckFits data sums k choice) (hk : k ≤ data.length)
    (hlength : data.length ≤ 64) (hsound : Sound data k sums) (hpos : 0 < choice)
    (hlt : choice < 2 ^ (data.length - k))
    (hcheck : checkChoice data sums choice k = some (first, second)) :
    (mergeCombinations first second k).Solves data := by
  obtain ⟨i, hi, hcheck, hfits⟩ := hfits.of_findSome? hcheck
  exact checkVariant_sound hfits hk hlength hsound hpos hlt (List.mem_range.mp hi) hcheck

end Soundness

/-! ## If nothing is found there is no solution -/

section Completeness

variable {data : List ℤ} {k choice start_index variant i : ℕ} {sums : Sums}

/-- Only the combination with all indices in the second group has one group. -/
theorem eq_zero_of_not_twoGroups (hindices : makeIndicesFromChoice choice start_index ≠ [])
    (hi : i < variants choice start_index)
    (htwo : twoGroups (groups choice start_index i) = false) :
    (groups choice start_index i).1 = [] ∧ i = 0 := by
  have hsecond := split_second_ne_nil hindices hi
  have hfirst : (groups choice start_index i).1 = [] := by
    by_contra hfirst
    have : twoGroups (groups choice start_index i) = true := by
      rw [twoGroups, groups]
      simp [hsecond, show (splitIndicesIntoTwoGroups _ i).1 ≠ [] from hfirst]
    rw [htwo] at this
    cases this
  refine ⟨hfirst, eq_zero_of_split_first (hi.trans_le ?_) hfirst⟩
  exact Nat.pow_le_pow_right Nat.two_pos (Nat.sub_le _ _)

/-- A combination of the first part has the same sum. -/
def Matched (data : List ℤ) (k choice variant : ℕ) : Prop :=
  ∃ c v, (0 < c ∧ c < 2 ^ k ∧ v < variants c 0) ∧
    difference data (groups c 0 v) = difference data (groups choice k variant)

/-- A combination of the first part has the opposite sum, and one of the two has two groups. -/
def Opposed (data : List ℤ) (k choice variant : ℕ) : Prop :=
  ∃ c v, (0 < c ∧ c < 2 ^ k ∧ v < variants c 0) ∧
    difference data (groups c 0 v) = -difference data (groups choice k variant) ∧
      (twoGroups (groups c 0 v) = true ∨ twoGroups (groups choice k variant) = true)

/-- Something goes together with the combination of the second part. -/
def Hit (data : List ℤ) (k choice variant : ℕ) : Prop :=
  Matched data k choice variant ∨ Opposed data k choice variant ∨ Balanced data k choice variant

/-- A combination and the complement of another may be joined, whatever their groups: with one group
each, both have the variant 0. -/
theorem join_complement {c v : ℕ} (hindices : makeIndicesFromChoice c 0 ≠ [])
    (hv : v < variants c 0) (hindices' : makeIndicesFromChoice choice k ≠ [])
    (hi : i < variants choice k) :
    (twoGroups (groups choice k i) || twoGroups (groups c 0 v) ||
      (v ^^^ complement i).testBit 0) = true := by
  rw [Bool.or_eq_true, Bool.or_eq_true]
  by_contra hcond
  rw [not_or, not_or, Bool.not_eq_true, Bool.not_eq_true, Bool.not_eq_true] at hcond
  obtain ⟨⟨htwo, htwo'⟩, hbits⟩ := hcond
  rw [(eq_zero_of_not_twoGroups hindices hv htwo').2,
    (eq_zero_of_not_twoGroups hindices' hi htwo).2] at hbits
  exact absurd hbits (by decide)

theorem joinFound_isSome {found : Option Combination} {two : Bool} :
    (joinFound found choice variant two).isSome = true ↔ ∃ f, found = some f ∧
      (two || f.hasTwoGroups || (f.variant ^^^ variant).testBit 0) = true := by
  rw [Option.isSome_iff_exists]
  constructor
  · rintro ⟨⟨f, s⟩, h⟩
    obtain ⟨hf, -, hcond⟩ := joinFound_eq_some.mp h
    exact ⟨f, hf, hcond⟩
  · rintro ⟨f, hf, hcond⟩
    exact ⟨(f, ⟨choice, variant, two⟩), joinFound_eq_some.mpr ⟨hf, rfl, hcond⟩⟩

/-- **What goes together is a solution.** -/
theorem solvable_of_hit (hk : k ≤ data.length) (hlength : data.length ≤ 64) (hpos : 0 < choice)
    (hlt : choice < 2 ^ (data.length - k)) (hi : i < variants choice k)
    (hhit : Hit data k choice i) :
    Solvable data := by
  have hpow : ∀ {w}, w ≤ 64 → 2 ^ w ≤ 2 ^ 64 := fun h ↦ Nat.pow_le_pow_right Nat.two_pos h
  have hindices := makeIndices_ne_nil k hpos (hlt.trans_le (hpow (by omega)))
  rcases hhit with ⟨c, v, ⟨hc, hclt, hv⟩, heq⟩ | ⟨c, v, ⟨hc, hclt, hv⟩, heq, htwo⟩ | hbalanced
  · have hentry : Entry data k (difference data (groups c 0 v)) ⟨c, v, twoGroups (groups c 0 v)⟩ :=
      ⟨hc, hclt, hv, rfl, rfl⟩
    have hjoin :=
      join_complement (makeIndices_ne_nil 0 hc (hclt.trans_le (hpow (hk.trans hlength)))) hv
      hindices hi
    refine (solves_merge hk hlength hentry hpos hlt ?_ ?_ hjoin).solvable
    · rw [groups_complement hi, difference_swap, heq]
    · rw [groups_complement hi, twoGroups_swap]
  · have hentry : Entry data k (difference data (groups c 0 v)) ⟨c, v, twoGroups (groups c 0 v)⟩ :=
      ⟨hc, hclt, hv, rfl, rfl⟩
    have hdiff : difference data (groups choice k i) = -difference data (groups c 0 v) := by
      rw [heq, neg_neg]
    have hjoin : (twoGroups (groups choice k i) || twoGroups (groups c 0 v) ||
        (v ^^^ i).testBit 0) = true := by
      rw [Bool.or_eq_true, Bool.or_eq_true]
      exact .inl htwo.symm
    exact (solves_merge hk hlength hentry hpos hlt hdiff rfl hjoin).solvable
  · exact (solves_of_balanced hk hlt false hbalanced).solvable

section Map

variable (hk : k ≤ 64) (hsound : Sound data k sums)
  (hrecorded : ∀ c, 0 < c → c < 2 ^ k → ∀ i < variants c 0, Recorded data sums c i)
  (hindices : makeIndicesFromChoice choice k ≠ []) (hi : i < variants choice k)
include hk hsound hrecorded hindices hi

/-- A combination with the same sum can be joined, whatever its groups. -/
theorem joinFound_complement_isSome_iff :
    (joinFound (sums (difference data (groups choice k i))) choice (complement i)
        (twoGroups (groups choice k i))).isSome = true ↔ Matched data k choice i := by
  rw [joinFound_isSome]
  constructor
  · rintro ⟨f, hf, -⟩
    have hentry := hsound _ f hf
    exact ⟨f.choice, f.variant, ⟨hentry.pos, hentry.lt, hentry.variant⟩, hentry.sum_eq⟩
  · rintro ⟨c, v, ⟨hpos, hlt, hv⟩, heq⟩
    obtain ⟨f, hf, -⟩ := hrecorded c hpos hlt v hv
    rw [heq] at hf
    have hentry := hsound _ f hf
    have hflt := hentry.lt.trans_le (Nat.pow_le_pow_right Nat.two_pos hk)
    have hjoin := join_complement (makeIndices_ne_nil 0 hentry.pos hflt) hentry.variant hindices hi
    have hftwo : f.hasTwoGroups = twoGroups (groups f.choice 0 f.variant) := hentry.two_eq
    exact ⟨f, hf, hftwo ▸ hjoin⟩

/-- One with the opposite sum can be joined if one of the two has two groups. -/
theorem joinFound_neg_isSome_iff :
    (joinFound (sums (-difference data (groups choice k i))) choice i
        (twoGroups (groups choice k i))).isSome = true ↔ Opposed data k choice i := by
  rw [joinFound_isSome]
  constructor
  · rintro ⟨f, hf, hcond⟩
    have hentry := hsound _ f hf
    have hftwo : f.hasTwoGroups = twoGroups (groups f.choice 0 f.variant) := hentry.two_eq
    refine ⟨f.choice, f.variant, ⟨hentry.pos, hentry.lt, hentry.variant⟩, hentry.sum_eq, ?_⟩
    by_contra hone
    rw [not_or, Bool.not_eq_true, Bool.not_eq_true] at hone
    -- with one group each, both have the variant 0
    have hflt := hentry.lt.trans_le (Nat.pow_le_pow_right Nat.two_pos hk)
    have hfzero :=
      (eq_zero_of_not_twoGroups (makeIndices_ne_nil 0 hentry.pos hflt) hentry.variant hone.1).2
    have hzero := (eq_zero_of_not_twoGroups hindices hi hone.2).2
    rw [hftwo, hone.1, hone.2, hfzero, hzero] at hcond
    exact absurd hcond (by decide)
  · rintro ⟨c, v, ⟨hpos, hlt, hv⟩, heq, htwo⟩
    obtain ⟨f, hf, hftwo⟩ := hrecorded c hpos hlt v hv
    rw [heq] at hf
    refine ⟨f, hf, ?_⟩
    rw [Bool.or_eq_true, Bool.or_eq_true]
    exact .inl (htwo.symm.imp_right hftwo)

/-- **When something is found.** -/
theorem checkVariant_isSome_iff
    (hfits : VariantFits data sums choice (makeIndicesFromChoice choice k) i) :
    (checkVariant data sums choice (makeIndicesFromChoice choice k) i).isSome = true ↔
      Hit data k choice i := by
  rw [checkVariant_eq hfits, Option.isSome_or, Option.isSome_or, Bool.or_eq_true, Bool.or_eq_true,
    joinFound_complement_isSome_iff hk hsound hrecorded hindices hi,
    joinFound_neg_isSome_iff hk hsound hrecorded hindices hi, Hit]
  refine or_congr_right (or_congr_right ?_)
  split
  · rename_i hzero
    rw [Bool.and_eq_true, decide_eq_true_eq] at hzero
    exact iff_of_true rfl hzero
  · rename_i hzero
    rw [Bool.and_eq_true, decide_eq_true_eq] at hzero
    exact iff_of_false Bool.false_ne_true hzero

end Map

/-- What a solution uses is cut into the two parts. -/
theorem exists_parts {A B : Finset ℕ} (hk : k ≤ data.length) (hlength : data.length ≤ 64)
    (hA : A ⊆ Finset.range data.length) (hB : B ⊆ Finset.range data.length) :
    ∃ c₁ < 2 ^ k, ∃ c₂ < 2 ^ (data.length - k),
      (∀ i, i ∈ makeIndicesFromChoice c₁ 0 ∨ i ∈ makeIndicesFromChoice c₂ k ↔ i ∈ A ∨ i ∈ B) ∧
        (makeIndicesFromChoice c₁ 0).Disjoint (makeIndicesFromChoice c₂ k) := by
  obtain ⟨c₁, hc₁, hmem₁⟩ := exists_choice 0 (hk.trans hlength) fun i ↦ decide (i ∈ A ∪ B)
  have hwidth : data.length - k ≤ 64 := by omega
  obtain ⟨c₂, hc₂, hmem₂⟩ := exists_choice k hwidth fun i ↦ decide (i ∈ A ∪ B)
  refine ⟨c₁, hc₁, c₂, hc₂, fun i ↦ ?_, fun i hi hi' ↦ ?_⟩
  · rw [hmem₁, hmem₂, ← Finset.mem_union]
    constructor
    · rintro (⟨j, -, hj, rfl⟩ | ⟨j, -, hj, rfl⟩)
      · exact of_decide_eq_true hj
      · exact of_decide_eq_true hj
    · intro hi
      have hlt : i < data.length := Finset.mem_range.mp (Finset.union_subset hA hB hi)
      by_cases hik : i < k
      · exact .inl ⟨i, hik, decide_eq_true hi, rfl⟩
      · have hsub : i - k + k = i := Nat.sub_add_cancel (not_lt.mp hik)
        refine .inr ⟨i - k, by omega, ?_, hsub⟩
        rw [hsub]
        exact decide_eq_true hi
  · have := lt_of_mem_makeIndices hc₁ hi
    have := lt_of_mem_makeIndices hc₂ hi'
    omega

theorem sumOf_eq_sum (data : List ℤ) {l : List ℕ} {A : Finset ℕ} (hnodup : l.Nodup)
    (hmem : ∀ i, i ∈ l ↔ i ∈ A) : sumOf data l = ∑ i ∈ A, data.getD i 0 := by
  obtain rfl : l.toFinset = A := Finset.ext fun i ↦ List.mem_toFinset.trans (hmem i)
  exact (List.sum_toFinset _ hnodup).symm

/-- The groups of a solution, cut into two parts, and the sums that they have together. -/
theorem sum_parts (data : List ℤ) {A B : Finset ℕ} {is is' : List ℕ} (hnodup : (is ++ is').Nodup)
    (hmem : ∀ i, i ∈ is ∨ i ∈ is' ↔ i ∈ A ∨ i ∈ B) (hdisj : Disjoint A B) :
    sumOf data (is.filter (· ∈ A)) + sumOf data (is'.filter (· ∈ A)) = ∑ i ∈ A, data.getD i 0 ∧
      sumOf data (is.filter fun i ↦ !decide (i ∈ A)) +
          sumOf data (is'.filter fun i ↦ !decide (i ∈ A)) =
        ∑ i ∈ B, data.getD i 0 := by
  have happend : ∀ l l' : List ℕ, sumOf data l + sumOf data l' = sumOf data (l ++ l') :=
    fun l l' ↦ by
    simp [sumOf]
  have hnot : ∀ i, i ∈ A → i ∉ B := fun i hi ↦ Finset.disjoint_left.mp hdisj hi
  constructor
  · rw [happend, ← List.filter_append]
    refine sumOf_eq_sum data (hnodup.filter _) fun i ↦ ?_
    rw [List.mem_filter, List.mem_append, hmem, decide_eq_true_eq]
    exact ⟨And.right, fun h ↦ ⟨.inl h, h⟩⟩
  · rw [happend, ← List.filter_append]
    refine sumOf_eq_sum data (hnodup.filter _) fun i ↦ ?_
    rw [List.mem_filter, List.mem_append, hmem, Bool.not_eq_true', decide_eq_false_iff_not]
    exact ⟨fun h ↦ h.1.resolve_left h.2, fun h ↦ ⟨.inr h, fun h' ↦ hnot i h' h⟩⟩

/-- Two groups that are not empty and have the same sum have a combination with these properties. -/
theorem exists_zero {q : ℕ → Bool} {is : List ℕ}
    (hdiff : difference data (is.filter q, is.filter fun i ↦ !q i) = 0) (hF : is.filter q ≠ [])
    (hS : (is.filter fun i ↦ !q i) ≠ []) :
    ∃ i < sumVariantsCnt is, difference data (splitIndicesIntoTwoGroups is i) = 0 ∧
      twoGroups (splitIndicesIntoTwoGroups is i) = true := by
  have hindices : is ≠ [] := by
    rintro rfl
    exact hF rfl
  have htwo : twoGroups (is.filter q, is.filter fun i ↦ !q i) = true := by
    rw [twoGroups]
    simp only [Bool.and_eq_true, Bool.not_eq_true', List.isEmpty_eq_false_iff]
    exact ⟨hF, hS⟩
  obtain ⟨i, hi, hsplit | hsplit⟩ := exists_variant q hindices
  · exact ⟨i, hi, by rw [hsplit, hdiff], by rw [hsplit, htwo]⟩
  · exact ⟨i,
      hi, by rw [hsplit, difference_swap, hdiff, neg_zero], by rw [hsplit, twoGroups_swap, htwo]⟩

/-- No solution has indices in both parts. -/
theorem difference_ne_neg {c₁ c₂ : ℕ} (hpos : 0 < c₁) (hlt : c₁ < 2 ^ k)
    (hindices₁ : makeIndicesFromChoice c₁ 0 ≠ []) (hindices₂ : makeIndicesFromChoice c₂ k ≠ [])
    (hnothing : ∀ i < variants c₂ k, ¬Hit data k c₂ i) (q : ℕ → Bool)
    (hfirst : (makeIndicesFromChoice c₁ 0).filter q = [] →
      (makeIndicesFromChoice c₂ k).filter q ≠ [])
    (hsecond : (makeIndicesFromChoice c₁ 0).filter (fun i ↦ !q i) = [] →
      (makeIndicesFromChoice c₂ k).filter (fun i ↦ !q i) ≠ []) :
    difference data ((makeIndicesFromChoice c₁ 0).filter q,
        (makeIndicesFromChoice c₁ 0).filter fun i ↦ !q i) ≠
      -difference data ((makeIndicesFromChoice c₂ k).filter q,
        (makeIndicesFromChoice c₂ k).filter fun i ↦ !q i) := by
  intro hopposite
  obtain ⟨i₁, hi₁, hsplit₁⟩ := exists_variant q hindices₁
  obtain ⟨i₂, hi₂, hsplit₂⟩ := exists_variant q hindices₂
  have hnot := hnothing i₂ hi₂
  -- with the same sum something is found
  have hne : difference data (groups c₁ 0 i₁) ≠ difference data (groups c₂ k i₂) := fun heq ↦
    hnot (.inl ⟨c₁, i₁, ⟨hpos, hlt, hi₁⟩, heq⟩)
  -- with the opposite sum nothing is found only if neither has two groups
  have hsingle (heq : difference data (groups c₁ 0 i₁) = -difference data (groups c₂ k i₂)) :
      (groups c₁ 0 i₁).1 = [] ∧ (groups c₂ k i₂).1 = [] := by
    have hone : ¬(twoGroups (groups c₁ 0 i₁) = true ∨ twoGroups (groups c₂ k i₂) = true) :=
      fun htwo ↦
      hnot (.inr (.inl ⟨c₁, i₁, ⟨hpos, hlt, hi₁⟩, heq, htwo⟩))
    rw [not_or, Bool.not_eq_true, Bool.not_eq_true] at hone
    exact ⟨(eq_zero_of_not_twoGroups hindices₁ hi₁ hone.1).1,
      (eq_zero_of_not_twoGroups hindices₂ hi₂ hone.2).1⟩
  rw [groups, groups] at hne hsingle
  rcases hsplit₁ with hsplit₁ | hsplit₁ <;> rcases hsplit₂ with hsplit₂ | hsplit₂
  · rw [hsplit₁, hsplit₂] at hsingle
    obtain ⟨h₁, h₂⟩ := hsingle hopposite
    exact hfirst h₁ h₂
  · rw [hsplit₁, hsplit₂, difference_swap] at hne
    exact hne hopposite
  · rw [hsplit₁, hsplit₂, difference_swap] at hne
    exact hne (neg_eq_iff_eq_neg.mpr hopposite)
  · rw [hsplit₁, hsplit₂, difference_swap, difference_swap] at hsingle
    obtain ⟨h₁, h₂⟩ := hsingle (congrArg _ hopposite)
    exact hsecond h₁ h₂

/-- **If nothing is found there is no solution.** -/
theorem not_solvable (hk : k ≤ data.length) (hlength : data.length ≤ 64)
    (hbalanced : ∀ c, 0 < c → c < 2 ^ k → ∀ i < variants c 0, ¬Balanced data 0 c i)
    (hnothing : ∀ c, 0 < c → c < 2 ^ (data.length - k) → ∀ i < variants c k, ¬Hit data k c i) :
    ¬Solvable data := by
  rintro ⟨A, B, hA, hB, hdisj, ⟨a, ha⟩, ⟨b, hb⟩, hsum⟩
  obtain ⟨c₁, hc₁, c₂, hc₂, hmem, hparts⟩ := exists_parts hk hlength hA hB
  have hnodup := (nodup_makeIndices c₁ 0).append (nodup_makeIndices c₂ k) hparts
  obtain ⟨hsumA, hsumB⟩ := sum_parts data hnodup hmem hdisj
  have hpos : ∀ {c start_index}, makeIndicesFromChoice c start_index ≠ [] → 0 < c := fun h ↦
    Nat.pos_of_ne_zero fun hc ↦ h (by subst hc; rfl)
  -- the groups in each part
  set F₁ := (makeIndicesFromChoice c₁ 0).filter (· ∈ A) with hF₁
  set S₁ := (makeIndicesFromChoice c₁ 0).filter fun i ↦ !decide (i ∈ A) with hS₁
  set F₂ := (makeIndicesFromChoice c₂ k).filter (· ∈ A) with hF₂
  set S₂ := (makeIndicesFromChoice c₂ k).filter fun i ↦ !decide (i ∈ A) with hS₂
  have hopposite : difference data (F₁, S₁) = -difference data (F₂, S₂) := by
    simp only [difference]
    omega
  have hfirst : F₁ = [] → F₂ ≠ [] := by
    intro h₁ h₂
    rw [List.filter_eq_nil_iff] at h₁ h₂
    rcases (hmem a).mpr (.inl ha) with h | h
    · exact h₁ a h (decide_eq_true ha)
    · exact h₂ a h (decide_eq_true ha)
  have hsecond : S₁ = [] → S₂ ≠ [] := by
    have hb' : (!decide (b ∈ A)) = true := by
      simpa using Finset.disjoint_right.mp hdisj hb
    intro h₁ h₂
    rw [List.filter_eq_nil_iff] at h₁ h₂
    rcases (hmem b).mpr (.inr hb) with h | h
    · exact h₁ b h hb'
    · exact h₂ b h hb'
  by_cases hindices₂ : makeIndicesFromChoice c₂ k = []
  · -- the solution is in the first part, and there are two groups with the sum 0
    have hF₂nil : F₂ = [] := by rw [hF₂, hindices₂, List.filter_nil]
    have hS₂nil : S₂ = [] := by rw [hS₂, hindices₂, List.filter_nil]
    have hF₁ne : F₁ ≠ [] := fun h ↦ hfirst h hF₂nil
    have hdiff : difference data (F₁, S₁) = 0 := by
      rw [hopposite, hF₂nil, hS₂nil]
      rfl
    obtain ⟨i, hi, hsolution⟩ := exists_zero hdiff hF₁ne fun h ↦ hsecond h hS₂nil
    have hindices₁ : makeIndicesFromChoice c₁ 0 ≠ [] :=
      fun h ↦ hF₁ne (by rw [hF₁, h, List.filter_nil])
    exact hbalanced c₁ (hpos hindices₁) hc₁ i hi hsolution
  by_cases hindices₁ : makeIndicesFromChoice c₁ 0 = []
  · -- the solution is in the second part
    have hF₁nil : F₁ = [] := by rw [hF₁, hindices₁, List.filter_nil]
    have hS₁nil : S₁ = [] := by rw [hS₁, hindices₁, List.filter_nil]
    have hdiff : difference data (F₂, S₂) = 0 := by
      rw [hF₁nil, hS₁nil] at hopposite
      exact neg_eq_zero.mp hopposite.symm
    obtain ⟨i, hi, hsolution⟩ := exists_zero hdiff (hfirst hF₁nil) (hsecond hS₁nil)
    exact hnothing c₂ (hpos hindices₂) hc₂ i hi (.inr (.inr hsolution))
  -- the solution is in both parts
  exact difference_ne_neg (hpos hindices₁) hc₁ hindices₁ hindices₂
    (hnothing c₂ (hpos hindices₂) hc₂) (decide <| · ∈ A) hfirst hsecond hopposite

end Completeness

end SubsetSum
end ManyTasks
