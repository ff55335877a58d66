import ManyTasks.SubsetSum.Solution

/-!
# Where the sums wrap

Whether an operation that is executed leaves the range of `int64_t` is said here without the code,
by sums of integers (`SumsFit`).  The combinations of the first part are gone through until one has
two groups with the same sum, and those of the second part, by one thread or by eight, until
something goes together with one of them (`Hit`).  As far as this goes all that is added up on the
way must fit (`Bounded`); and in the second part -2^63 must not be negated, which it is if the first
part has no combination with this sum (`NegBounded`).

Where this is so the subsets that are returned have the same sum (`equal_sums_iff`).  Otherwise a
sum that has wrapped may be taken for one that is equal (`not_equal_sums`).
-/

set_option autoImplicit false

namespace ManyTasks
namespace SubsetSum

variable {data : List ℤ} {indices : List ℕ} {sums : Sums} {start_index k i c variant comb : ℕ}
  {res : ℤ}

/-! ## Without the code -/

/-- What the first of the chosen indices come to, however many of them, fits. -/
def Bounded (data : List ℤ) (start_index choice variant : ℕ) : Prop :=
  ∀ m, InInt64 (difference data
    (splitIndicesIntoTwoGroups ((makeIndicesFromChoice choice start_index).take m) variant))

/-- The same in the second part, where the sum is negated as well if no combination of the first
part has it. -/
def NegBounded (data : List ℤ) (k choice variant : ℕ) : Prop :=
  Bounded data k choice variant ∧
    (Matched data k choice variant ∨ difference data (groups choice k variant) ≠ -2 ^ 63)

/-- The combinations of these choices have `P`, in their order, up to the first with `stop`. -/
def UpToFirst (start_index : ℕ) (choices : List ℕ) (stop P : ℕ → ℕ → Prop) : Prop :=
  ∀ c ∈ choices, ∀ v ∈ List.range (variants c start_index),
    (∀ c' ∈ choices, ∀ v' ∈ List.range (variants c' start_index), c' < c ∨ c' = c ∧ v' < v →
      ¬stop c' v') →
      P c v

/-- The choices of the second part: one thread goes through all of them, or each of eight through
its share. -/
def shares (data : List ℤ) (k : ℕ) : List (List ℕ) :=
  if choicesPerThread data k < 8 then [List.range' 1 (choicesCnt data k - 1)]
  else (List.range kThreadCnt).map fun t ↦
    List.range' (1 + choicesBefore data k t) (realChoicesPerThread data k t)

/-- What is added up fits, as far as the loops go. -/
structure SumsFit (data : List ℤ) (k : ℕ) : Prop where
  first : UpToFirst 0 (List.range' 1 (2 ^ k - 1)) (Balanced data 0) (Bounded data 0)
  second : (∀ c ∈ List.range' 1 (2 ^ k - 1), ∀ v ∈ List.range (variants c 0),
    ¬Balanced data 0 c v) →
    ∀ share ∈ shares data k, UpToFirst k share (Hit data k) (NegBounded data k)

/-! ## One sum -/

theorem sumFits_iff (hres : InInt64 res) : SumFits data indices comb res ↔
    ∀ m, InInt64 (res + difference data (splitIndicesIntoTwoGroups (indices.take m) comb)) := by
  induction indices generalizing comb res with
  | nil => simpa [SumFits, difference, sumOf, splitIndicesIntoTwoGroups] using hres
  | cons i indices ih =>
    -- the first of the elements is added to what there was, and the others to that
    have hnext (m : ℕ) :
        res + difference data (splitIndicesIntoTwoGroups (i :: indices.take m) comb) =
          (if comb.testBit 0 then res + data.getD i 0 else res - data.getD i 0) +
            difference data (splitIndicesIntoTwoGroups (indices.take m) (comb >>> 1)) := by
      rw [split_cons]
      split
      · simp only [difference, sumOf, List.map_cons, List.sum_cons]
        ring
      · simp only [difference, sumOf, List.map_cons, List.sum_cons]
        ring
    rw [SumFits]
    constructor
    · rintro ⟨hfirst, hrest⟩ m
      cases m with
      | zero => simpa [difference, sumOf, splitIndicesIntoTwoGroups] using hres
      | succ m =>
        rw [List.take_succ_cons, hnext m]
        exact (ih hfirst).mp hrest m
    · intro hall
      have hrest (m : ℕ) := hall (m + 1)
      simp only [List.take_succ_cons, hnext] at hrest
      have hfirst := hrest 0
      rw [List.take_zero, show splitIndicesIntoTwoGroups [] (comb >>> 1) = ([], []) from rfl,
        show difference data ([], []) = 0 from rfl, add_zero] at hfirst
      exact ⟨hfirst, (ih hfirst).mpr hrest⟩

theorem sumFits_iff_bounded (data : List ℤ) (start_index c i : ℕ) :
    SumFits data (makeIndicesFromChoice c start_index) i 0 ↔ Bounded data start_index c i := by
  rw [sumFits_iff (inInt64_of_natAbs_lt (by decide))]
  simp only [zero_add]
  rfl

/-- What all of the chosen indices come to fits, too. -/
theorem Bounded.inInt64 (h : Bounded data start_index c i) :
    InInt64 (difference data (groups c start_index i)) := by
  have hall := h (makeIndicesFromChoice c start_index).length
  rwa [List.take_length] at hall

/-! ## The first part -/

/-- The loops over choices and variants are left together. -/
theorem upToFirst_iff {choices : List ℕ} {stop P : ℕ → ℕ → Prop} (h : choices.Pairwise (· < ·)) :
    UpToFirst start_index choices stop P ↔
      Lib.UpTo (fun c ↦ ∃ i ∈ List.range (variants c start_index), stop c i)
        (fun c ↦ Lib.UpTo (stop c) (P c) (List.range (variants c start_index))) choices :=
  (Lib.upTo_nested_iff h fun _ ↦ List.pairwise_lt_range).symm

theorem choiceFits_iff (data : List ℤ) (c : ℕ) :
    ChoiceFits data c ↔ Lib.UpTo (Balanced data 0 c) (Bounded data 0 c)
      (List.range (variants c 0)) :=
  Lib.upTo_congr (fun i _ ↦ sumFits_iff_bounded data 0 c i) fun _ _ hfits ↦ balanced_iff hfits

theorem sumMapFits_iff {choices : List ℕ} (hzero : zeroHasTwoGroups sums = false) :
    SumMapFits data choices sums ↔
      Lib.UpTo (fun c ↦ ∃ i ∈ List.range (variants c 0), Balanced data 0 c i)
        (fun c ↦ Lib.UpTo (Balanced data 0 c) (Bounded data 0 c) (List.range (variants c 0)))
          choices := by
  induction choices generalizing sums with
  | nil => exact Iff.rfl
  | cons c choices ih =>
    rw [SumMapFits, Lib.upTo_cons, ← choiceFits_iff]
    refine and_congr_right fun hfits ↦ ?_
    have hstop : zeroHasTwoGroups (computeChoice data c sums) = true ↔
        ∃ i ∈ List.range (variants c 0), Balanced data 0 c i := by
      rw [computeChoice, zeroHasTwoGroups_computeChoiceLoop, hzero]
      exact (or_iff_right Bool.false_ne_true).trans
        (hfits.exists_congr fun _ _ hfits ↦ balanced_iff hfits)
    rw [← hstop, Bool.not_eq_true]
    exact imp_congr_right ih

/-! ## The second part -/

section Second

variable (hk : k ≤ 64) (hsound : Sound data k sums)
  (hrecorded : ∀ c, 0 < c → c < 2 ^ k → ∀ i < variants c 0, Recorded data sums c i)
  (hindices : makeIndicesFromChoice c k ≠ [])
include hk hsound hrecorded hindices

theorem variantFits_iff (hi : i < variants c k) :
    VariantFits data sums c (makeIndicesFromChoice c k) i ↔ NegBounded data k c i := by
  rw [VariantFits, NegBounded, ← sumFits_iff_bounded]
  refine and_congr_right fun hsum ↦ ?_
  obtain ⟨hlow, hhigh⟩ := ((sumFits_iff_bounded data k c i).mp hsum).inInt64
  have hneg : InInt64 (-difference data (groups c k i)) ↔
      difference data (groups c k i) ≠ -2 ^ 63 := by
    rw [InInt64]
    omega
  rw [computeSum_eq hsum, ← joinFound_complement_isSome_iff hk hsound hrecorded hindices hi, ← hneg,
    ← Option.not_isSome_iff_eq_none]
  exact imp_iff_not_or.trans (or_congr_left not_not)

theorem checkFits_iff : CheckFits data sums k c ↔
    Lib.UpTo (Hit data k c) (NegBounded data k c) (List.range (variants c k)) :=
  Lib.upTo_congr (fun _ hi ↦ variantFits_iff hk hsound hrecorded hindices (List.mem_range.mp hi))
    fun _ hi hfits ↦ checkVariant_isSome_iff hk hsound hrecorded hindices
      (List.mem_range.mp hi) hfits

theorem checkChoice_isSome_iff (hfits : CheckFits data sums k c) :
    (checkChoice data sums c k).isSome = true ↔ ∃ i ∈ List.range (variants c k),
      Hit data k c i := by
  rw [checkChoice, List.isSome_findSome?, List.any_eq_true]
  exact hfits.exists_congr fun _ hi hfits ↦
    checkVariant_isSome_iff hk hsound hrecorded hindices (List.mem_range.mp hi) hfits

omit hindices in
/-- The operations of a share, which are choices of the second part. -/
theorem upTo_checkFits_iff {share : List ℕ} (hshare : share.Pairwise (· < ·))
    (hmem : ∀ c ∈ share, makeIndicesFromChoice c k ≠ []) :
    Lib.UpTo (fun c ↦ (checkChoice data sums c k).isSome = true) (CheckFits data sums k) share ↔
      UpToFirst k share (Hit data k) (NegBounded data k) := by
  rw [upToFirst_iff hshare]
  refine Lib.upTo_congr (fun c hc ↦ checkFits_iff hk hsound hrecorded (hmem c hc))
    fun c hc hfits ↦ ?_
  exact checkChoice_isSome_iff hk hsound hrecorded (hmem c hc) hfits

end Second

/-- Each thread looks at the choices of its share until it finds something. -/
theorem searchFits_iff_shares (sums : Sums) (hwidth : data.length - k ≤ 30) :
    SearchFits data sums k ↔
    ∀ share ∈ shares data k,
      Lib.UpTo (fun c ↦ (checkChoice data sums c k).isSome = true)
        (CheckFits data sums k) share := by
  rw [searchFits_iff, shares]
  split
  · rw [List.forall_mem_singleton]
  have hthread (t : Fin kThreadCnt) :
      (∀ c, (searchTask data sums k).Reaches t c → CheckFits data sums k c) ↔
        Lib.UpTo (fun c ↦ (checkChoice data sums c k).isSome = true) (CheckFits data sums k)
          (List.range' (1 + choicesBefore data k t) (realChoicesPerThread data k t)) := by
    have hhas (c : ℕ) : (searchTask data sums k).Has t c ↔
        c ∈ List.range' (1 + choicesBefore data k t) (realChoicesPerThread data k t) := by
      rw [List.mem_range'_1, Task.Has, searchTask_start sums hwidth]
      rfl
    rw [Lib.upTo_iff List.pairwise_lt_range']
    refine forall_congr' fun c ↦ ?_
    rw [← hhas, Task.Reaches, and_imp]
    refine imp_congr_right fun hc ↦ imp_congr_left ⟨fun h c' hc' hlt ↦ ?_, fun h c' hge hlt ↦ ?_⟩
    · have hnone := h c' ((hhas c').mpr hc').1 hlt
      rw [show checkChoice data sums c' k = none from hnone]
      exact Bool.false_ne_true
    · have hnot := h c' ((hhas c').mp ⟨hge, hlt.trans hc.2⟩) hlt
      exact Option.not_isSome_iff_eq_none.mp hnot
  rw [List.forall_mem_map]
  constructor
  · exact fun h t ht ↦ (hthread ⟨t, List.mem_range.mp ht⟩).mp (h ⟨t, List.mem_range.mp ht⟩)
  · exact fun h t ↦ (hthread t).mpr (h t (List.mem_range.mpr t.isLt))

/-- The choices of the shares are those of the second part. -/
theorem mem_of_mem_shares {share : List ℕ} (hshare : share ∈ shares data k) :
    share.Pairwise (· < ·) ∧ ∀ c ∈ share, 0 < c ∧ c < choicesCnt data k := by
  rw [shares] at hshare
  split at hshare
  · obtain rfl := List.mem_singleton.mp hshare
    exact ⟨List.pairwise_lt_range', fun c hc ↦ mem_choices.mp hc⟩
  · obtain ⟨t, ht, rfl⟩ := List.mem_map.mp hshare
    have hlast := choicesBefore_lt data k (Nat.succ_le_of_lt (List.mem_range.mp ht))
    rw [choicesBefore_succ] at hlast
    refine ⟨List.pairwise_lt_range', fun c hc ↦ ?_⟩
    rw [List.mem_range'_1] at hc
    omega

/-! ## The main result -/

/-- **What is executed, without the code.** -/
theorem noOverflow_iff (hsize : data.length ≤ 60) :
    NoOverflow data ↔ (2 ≤ data.length → SumsFit data (firstPart data)) := by
  refine imp_congr_right fun htwo ↦ ?_
  have hwidth : data.length - firstPart data ≤ 30 := by
    unfold firstPart
    split <;> omega
  have hk : firstPart data ≤ 64 := by
    have := (firstPart_le htwo).2
    omega
  dsimp only
  set k := firstPart data
  have hmap : SumMapFits data (List.range' 1 (2 ^ k - 1)) (fun _ ↦ none) ↔
      UpToFirst 0 (List.range' 1 (2 ^ k - 1)) (Balanced data 0) (Bounded data 0) :=
    (sumMapFits_iff rfl).trans (upToFirst_iff List.pairwise_lt_range').symm
  -- if nothing wraps in the first part, the map is what it should be, and says when the search is
  -- over
  have hsearch (hfits : SumMapFits data (List.range' 1 (2 ^ k - 1)) fun _ ↦ none) :
      (zeroHasTwoGroups (computeSumMap data k) = false → SearchFits data (computeSumMap data k) k) ↔
        ((∀ c ∈ List.range' 1 (2 ^ k - 1), ∀ v ∈ List.range (variants c 0), ¬Balanced data 0 c v) →
          ∀ share ∈ shares data k, UpToFirst k share (Hit data k) (NegBounded data k)) := by
    obtain ⟨hsound, hrecorded⟩ := computeSumMap_spec hfits
    have hzero : zeroHasTwoGroups (computeSumMap data k) = false ↔
        ∀ c ∈ List.range' 1 (2 ^ k - 1), ∀ v ∈ List.range (variants c 0), ¬Balanced data 0 c v := by
      rw [← Bool.not_eq_true, zeroHasTwoGroups_computeSumMap_iff hfits]
      simp only [not_exists, not_and, mem_choices, List.mem_range]
    rw [hzero]
    refine imp_congr_right fun hnot ↦ ?_
    rw [searchFits_iff_shares _ hwidth]
    refine forall₂_congr fun share hshare ↦ ?_
    obtain ⟨hsorted, hmem⟩ := mem_of_mem_shares hshare
    refine upTo_checkFits_iff hk hsound (hrecorded.resolve_left ?_) hsorted fun c hc ↦ ?_
    · rw [hzero.mpr hnot]
      exact Bool.false_ne_true
    · obtain ⟨hpos, hlt⟩ := hmem c hc
      exact makeIndices_ne_nil k hpos (hlt.trans_le (Nat.pow_le_pow_right Nat.two_pos (by omega)))
  constructor
  · rintro ⟨hfits, hrest⟩
    exact ⟨hmap.mp hfits, (hsearch hfits).mp hrest⟩
  · rintro ⟨hfits, hrest⟩
    exact ⟨hmap.mpr hfits, (hsearch (hmap.mpr hfits)).mpr hrest⟩

theorem findSuitableCombination_mono {sums : Sums} {P Q : Option (Combination × Combination) → Prop}
    (h : findSuitableCombination data sums k P) (hPQ : ∀ r, P r → Q r) :
    findSuitableCombination data sums k Q := by
  rw [findSuitableCombination] at h ⊢
  by_cases hfew : choicesPerThread data k < 8
  · rw [if_pos hfew] at h ⊢
    exact hPQ _ h
  · rw [if_neg hfew] at h ⊢
    exact h.trans fun s hs ↦ .now ⟨hs.1, hPQ _ hs.2⟩

theorem findEqualSumSubsets_mono {P Q : Subsets → Prop} (h : findEqualSumSubsets data P)
    (hPQ : ∀ subsets, P subsets → Q subsets) : findEqualSumSubsets data Q := by
  unfold findEqualSumSubsets at h ⊢
  split
  · next hlt =>
    rw [if_pos hlt] at h
    exact hPQ _ h
  · next hlt =>
    rw [if_neg hlt] at h
    dsimp only at h ⊢
    split at h
    · exact hPQ _ h
    · refine findSuitableCombination_mono h fun r hr ↦ ?_
      cases r with
      | none => exact hPQ _ hr
      | some r => exact hPQ _ hr

/-- **When no operation that is executed leaves the range.**  Then the subsets that are returned
have the same sum. -/
theorem equal_sums_iff (data : List ℤ) (hsize : data.length ≤ 60) :
    (NoOverflow data ∧ findEqualSumSubsets data fun subsets ↦ subsets.exists_ = true →
        sumOf data subsets.first_indices = sumOf data subsets.second_indices) ↔
      (2 ≤ data.length → SumsFit data (firstPart data)) := by
  constructor
  · exact fun h ↦ (noOverflow_iff hsize).mp h.1
  · intro hfit
    have hno := (noOverflow_iff hsize).mpr hfit
    refine ⟨hno, findEqualSumSubsets_mono (findEqualSumSubsets_right hsize hno) ?_⟩
    exact fun subsets hright hexists ↦ (hright.2 hexists).sum_eq

/-- The first part has two elements that are the same, and no sum of the others is computed. -/
theorem equal_sums_iff_four : NoOverflow [1, 1, 2 ^ 63 - 1, 2 ^ 63 - 1] ∧
    findEqualSumSubsets [1, 1, 2 ^ 63 - 1, 2 ^ 63 - 1] fun subsets ↦ subsets.exists_ = true →
      sumOf [1, 1, 2 ^ 63 - 1, 2 ^ 63 - 1] subsets.first_indices =
        sumOf [1, 1, 2 ^ 63 - 1, 2 ^ 63 - 1] subsets.second_indices := by
  refine (equal_sums_iff [1, 1, 2 ^ 63 - 1, 2 ^ 63 - 1] (by decide)).mpr fun _ ↦
    ⟨fun c hc v _ _ ↦ ?_, ?_⟩
  · rw [← sumFits_iff_bounded]
    refine sumFits_of_small ?_
    have hsmall : ∀ c ∈ List.range' 1 3, magnitude [1, 1, 2 ^ 63 - 1, 2 ^ 63 - 1]
        (makeIndicesFromChoice c 0) < 2 ^ 63 := by decide
    simpa using hsmall c hc
  · intro hnot
    exact absurd ⟨by decide, by decide⟩ (hnot 3 (by decide) 1 (by decide))

/-- Two subsets with different sums are returned, one of which has wrapped. -/
theorem not_equal_sums : ¬findEqualSumSubsets [-3, 2 ^ 63 - 1, 2 ^ 63 - 2] fun subsets ↦
    subsets.exists_ = true → sumOf [-3, 2 ^ 63 - 1, 2 ^ 63 - 2] subsets.first_indices =
      sumOf [-3, 2 ^ 63 - 1, 2 ^ 63 - 2] subsets.second_indices := by
  intro h
  have hsubsets : (⟨[1, 2], [0], true⟩ : Subsets).exists_ = true →
      sumOf [-3, 2 ^ 63 - 1, 2 ^ 63 - 2] [1, 2] = sumOf [-3, 2 ^ 63 - 1, 2 ^ 63 - 2] [0] := h
  exact absurd (hsubsets rfl) (by decide)

end SubsetSum
end ManyTasks
