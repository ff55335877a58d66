import ManyTasks.SubsetSum.Overflow

/-!
# How far the sums go

A sum takes the element of its last index from what the others come to, as this index is in the
second group.  The others may be in any groups.  So the farthest that the sums of a part go is what
all but its last element come to in absolute value, with the last element taken from it
(`partFits_iff`).  In the second part the sums are negated, too (`partFits_neg_iff`).

If these bounds are kept no sum wraps.  Where there is no solution no loop is left early, and then
they must be kept (`sumsFit_iff_of_not_solvable`).
-/

set_option autoImplicit false

namespace ManyTasks
namespace SubsetSum

variable {data : List ℤ} {l l' : List ℕ} {start_index w i last variant : ℕ} {res : ℤ}

/-! ## Absolute values -/

theorem magnitude_cons (data : List ℤ) (i : ℕ) (l : List ℕ) :
    magnitude data (i :: l) = (data.getD i 0).natAbs + magnitude data l := rfl

theorem magnitude_append (data : List ℤ) (l l' : List ℕ) :
    magnitude data (l ++ l') = magnitude data l + magnitude data l' := by
  rw [magnitude, List.map_append, List.sum_append]
  rfl

theorem magnitude_mono (data : List ℤ) (hl : l.Nodup) (hl' : l'.Nodup) (hsub : l ⊆ l') :
    magnitude data l ≤ magnitude data l' := by
  rw [magnitude, magnitude, ← List.sum_toFinset _ hl, ← List.sum_toFinset _ hl']
  refine Finset.sum_le_sum_of_subset fun i hi ↦ ?_
  exact List.mem_toFinset.mpr (hsub (List.mem_toFinset.mp hi))

/-- A sum with the signs that make all terms positive, or all negative. -/
theorem sum_map_signed {f : ℕ → ℤ} {sign : ℤ} (h : ∀ i ∈ l, f i = sign * (data.getD i 0).natAbs) :
    (l.map f).sum = sign * magnitude data l := by
  induction l with
  | nil => simp [magnitude]
  | cons i l ih =>
    obtain ⟨hi, hl⟩ := List.forall_mem_cons.mp h
    rw [List.map_cons, List.sum_cons, hi, ih hl, magnitude_cons, Nat.cast_add, mul_add]

theorem difference_filter (data : List ℤ) (q : ℕ → Bool) (l : List ℕ) :
    difference data (l.filter q, l.filter fun i ↦ !q i) =
      (l.map fun i ↦ if q i then data.getD i 0 else -data.getD i 0).sum := by
  induction l with
  | nil => rfl
  | cons i l ih =>
    rw [List.map_cons, List.sum_cons, ← ih]
    cases hq : q i with
    | true =>
      simp only [List.filter_cons, hq, difference, sumOf, if_true, Bool.not_true,
        Bool.false_eq_true, if_false, List.map_cons, List.sum_cons]
      ring
    | false =>
      simp only [List.filter_cons, hq, difference, sumOf, if_true, Bool.not_false,
        Bool.false_eq_true, if_false, List.map_cons, List.sum_cons]
      ring

/-! ## One sum -/

/-- A sum whose last index is in the second group, and the others in any groups. -/
theorem sumFits_of_bounds (hvariant : variant < 2 ^ l.length)
    (hothers : res.natAbs + magnitude data l < 2 ^ 63)
    (hhigh : (res.natAbs + magnitude data l : ℤ) - data.getD last 0 < 2 ^ 63)
    (hlow : (res.natAbs + magnitude data l : ℤ) + data.getD last 0 ≤ 2 ^ 63) :
    SumFits data (l ++ [last]) variant res := by
  induction l generalizing variant res with
  | nil =>
    obtain rfl : variant = 0 := by simpa using hvariant
    simp only [magnitude, List.map_nil, List.sum_nil, Nat.cast_zero] at hhigh hlow
    refine ⟨?_, trivial⟩
    rw [Nat.zero_testBit, if_neg Bool.false_ne_true]
    constructor <;> omega
  | cons i l ih =>
    rw [magnitude_cons] at hothers hhigh hlow
    rw [List.length_cons, Nat.pow_succ] at hvariant
    have hnext : (if variant.testBit 0 then res + data.getD i 0 else res - data.getD i 0).natAbs ≤
        res.natAbs + (data.getD i 0).natAbs := by
      split <;> omega
    refine ⟨inInt64_of_natAbs_lt (by omega), ih ?_ (by omega) (by omega) (by omega)⟩
    rw [Nat.shiftRight_one]
    omega

/-! ## The sums of a part -/

/-- All that is added up for the combinations of a part fits. -/
def PartFits (data : List ℤ) (start_index width : ℕ) : Prop :=
  ∀ choice, 0 < choice → choice < 2 ^ width → ∀ variant < variants choice start_index,
    Bounded data start_index choice variant

theorem pairwise_makeIndices (choice start_index : ℕ) :
    (makeIndicesFromChoice choice start_index).Pairwise (· < ·) := by
  rw [makeIndicesFromChoice_eq]
  exact (List.pairwise_lt_range.filter _).map _ fun _ _ h ↦ Nat.add_lt_add_right h _

/-- The indices of the choice that has all of them. -/
theorem makeIndices_all (start_index : ℕ) (hw : w ≤ 64) :
    makeIndicesFromChoice (2 ^ w - 1) start_index = List.range' start_index w := by
  have hsplit : List.range 64 = List.range w ++ (List.range (64 - w)).map (w + ·) := by
    rw [← List.range_add, Nat.add_sub_cancel' hw]
  have hall : (List.range w).filter (2 ^ w - 1).testBit = List.range w := by
    refine List.filter_eq_self.mpr fun j hj ↦ ?_
    rw [Nat.testBit_two_pow_sub_one]
    exact decide_eq_true (List.mem_range.mp hj)
  have hnone : ((List.range (64 - w)).map (w + ·)).filter (2 ^ w - 1).testBit = [] := by
    refine List.filter_eq_nil_iff.mpr fun j hj ↦ ?_
    obtain ⟨j', -, rfl⟩ := List.mem_map.mp hj
    rw [Nat.testBit_two_pow_sub_one, decide_eq_true_eq]
    omega
  rw [makeIndicesFromChoice_eq, hsplit, List.filter_append, hall, hnone, List.append_nil,
    List.range'_eq_map_range]
  exact List.map_congr_left fun j _ ↦ Nat.add_comm j start_index

theorem variants_all (start_index : ℕ) (hw : w + 1 ≤ 64) :
    variants (2 ^ (w + 1) - 1) start_index = 2 ^ w := by
  rw [variants, makeIndices_all start_index hw, sumVariantsCnt, List.length_range',
    Nat.add_sub_cancel]

/-- The last index of a choice, and those before it. -/
theorem exists_last {choice : ℕ} (start_index : ℕ) (hw : w + 1 ≤ 64) (hpos : 0 < choice)
    (hlt : choice < 2 ^ (w + 1)) :
    ∃ l last, makeIndicesFromChoice choice start_index = l ++ [last] ∧
      start_index ≤ last ∧ last ≤ start_index + w ∧
        l ⊆ List.range' start_index (last - start_index) := by
  have hne := makeIndices_ne_nil start_index hpos
      (hlt.trans_le (Nat.pow_le_pow_right Nat.two_pos hw))
  have hsorted := pairwise_makeIndices choice start_index
  obtain ⟨l, last, hl⟩ : ∃ l last, makeIndicesFromChoice choice start_index = l ++ [last] :=
    ⟨_, _, (List.dropLast_append_getLast hne).symm⟩
  have hbounds (i : ℕ) (hi : i ∈ l ++ [last]) := lt_of_mem_makeIndices hlt (hl ▸ hi)
  have hlast := hbounds last (List.mem_append_right _ (List.mem_singleton_self last))
  refine ⟨l, last, hl, hlast.1, by omega, fun i hi ↦ List.mem_range'_1.mpr ?_⟩
  rw [hl] at hsorted
  have hbefore := (List.pairwise_append.mp hsorted).2.2 i hi last (List.mem_singleton_self last)
  have hi' := hbounds i (List.mem_append_left _ hi)
  omega

/-- What the sum of all indices comes to with the signs that make the others positive, or all
negative. -/
theorem exists_signed (data : List ℤ) (start_index w : ℕ) (sign : ℤ)
    (hsign : sign = 1 ∨ sign = -1) :
    ∃ variant < 2 ^ w, difference data
      (splitIndicesIntoTwoGroups (List.range' start_index (w + 1)) variant) =
      sign * magnitude data (List.range' start_index w) - data.getD (start_index + w) 0 := by
  have hrange : List.range' start_index (w + 1) = List.range' start_index w ++
      [start_index + w] := by
    rw [List.range'_concat, Nat.one_mul]
  have hne : List.range' start_index (w + 1) ≠ [] := by
    rw [hrange]
    exact List.append_ne_nil_of_right_ne_nil _ (List.cons_ne_nil _ _)
  let q : ℕ → Bool := fun i ↦ i ≠ start_index + w && decide (0 ≤ sign * data.getD i 0)
  have hlast : q ((List.range' start_index (w + 1)).getLast hne) = false := by
    simp only [hrange, List.getLast_append_singleton, q]
    simp
  have hlt := variantOf_lt hne hlast
  rw [sumVariantsCnt, List.length_range', Nat.add_sub_cancel] at hlt
  refine ⟨_, hlt, ?_⟩
  have hsigned : ∀ i ∈ List.range' start_index w,
      (if q i then data.getD i 0 else -data.getD i 0) = sign * (data.getD i 0).natAbs := by
    intro i hi
    have hi' : i ≠ start_index + w := by
      rw [List.mem_range'_1] at hi
      omega
    simp only [q, hi', ne_eq, not_false_eq_true, decide_true, Bool.true_and, decide_eq_true_eq]
    rcases hsign with rfl | rfl
    · split <;> omega
    · split <;> omega
  have hq : q (start_index + w) = false := by simp [q]
  rw [split_variantOf, difference_filter, hrange, List.map_append, List.sum_append,
    sum_map_signed hsigned, List.map_singleton, List.sum_singleton, hq, if_neg Bool.false_ne_true]
  rfl

/-- **The sums of a part.** -/
theorem partFits_iff (hw : w + 1 ≤ 64) : PartFits data start_index (w + 1) ↔
    (magnitude data (List.range' start_index w) : ℤ) - data.getD (start_index + w) 0 < 2 ^ 63 ∧
      (magnitude data (List.range' start_index w) : ℤ) + data.getD (start_index + w) 0 ≤
        2 ^ 63 := by
  constructor
  · intro hfits
    have hpow : 1 < 2 ^ (w + 1) := Nat.one_lt_two_pow (Nat.succ_ne_zero w)
    have hall (variant : ℕ) (hvariant : variant < 2 ^ w) : InInt64 (difference data
        (splitIndicesIntoTwoGroups (List.range' start_index (w + 1)) variant)) := by
      have hvariant' : variant < variants (2 ^ (w + 1) - 1) start_index := by
        rwa [variants_all start_index hw]
      have hrange := (hfits (2 ^ (w + 1) - 1) (by omega) (by omega) variant hvariant').inInt64
      rwa [groups, makeIndices_all start_index hw] at hrange
    obtain ⟨v, hv, hpositive⟩ := exists_signed data start_index w 1 (.inl rfl)
    obtain ⟨v', hv', hnegative⟩ := exists_signed data start_index w (-1) (.inr rfl)
    have hhigh := (hall v hv).2
    have hlow := (hall v' hv').1
    rw [hpositive] at hhigh
    rw [hnegative] at hlow
    omega
  · rintro ⟨hhigh, hlow⟩ choice hpos hlt variant hvariant
    obtain ⟨l, last, hl, hge, hle, hbefore⟩ := exists_last start_index hw hpos hlt
    have hnodup := nodup_makeIndices choice start_index
    rw [variants] at hvariant
    rw [← sumFits_iff_bounded]
    rw [hl] at hnodup hvariant ⊢
    rw [sumVariantsCnt, List.length_append, List.length_singleton, Nat.add_sub_cancel] at hvariant
    rcases Nat.lt_or_ge last (start_index + w) with hlast | hlast
    · have hothers : (List.range' start_index w).Nodup := List.nodup_range'
      have hmagnitude := magnitude_mono data hnodup hothers fun i hi ↦ by
        rw [List.mem_range'_1]
        rcases List.mem_append.mp hi with hi | hi
        · have hbounds := List.mem_range'_1.mp (hbefore hi)
          omega
        · obtain rfl := List.mem_singleton.mp hi
          omega
      rw [magnitude_append, magnitude_cons, show magnitude data [] = 0 from rfl] at hmagnitude
      refine sumFits_of_bounds hvariant ?_ ?_ ?_ <;> rw [Int.natAbs_zero] <;> omega
    · obtain rfl : last = start_index + w := by omega
      rw [Nat.add_sub_cancel_left] at hbefore
      have hmagnitude := magnitude_mono data hnodup.of_append_left List.nodup_range' hbefore
      refine sumFits_of_bounds hvariant ?_ ?_ ?_ <;> rw [Int.natAbs_zero] <;> omega

/-- **The sums of a part, and their negations.** -/
theorem partFits_neg_iff (hw : w + 1 ≤ 64) :
    (PartFits data start_index (w + 1) ∧ ∀ choice, 0 < choice → choice < 2 ^ (w + 1) →
        ∀ variant < variants choice start_index,
          InInt64 (-difference data (groups choice start_index variant))) ↔
      magnitude data (List.range' start_index (w + 1)) < 2 ^ 63 := by
  have hrange : List.range' start_index (w + 1) = List.range' start_index w ++
      [start_index + w] := by
    rw [List.range'_concat, Nat.one_mul]
  have hmagnitude : magnitude data (List.range' start_index (w + 1)) =
      magnitude data (List.range' start_index w) + (data.getD (start_index + w) 0).natAbs := by
    rw [hrange, magnitude_append]
    rfl
  constructor
  · rintro ⟨hfits, hneg⟩
    obtain ⟨hhigh, -⟩ := (partFits_iff hw).mp hfits
    have hpow : 1 < 2 ^ (w + 1) := Nat.one_lt_two_pow (Nat.succ_ne_zero w)
    obtain ⟨v, hv, hnegative⟩ := exists_signed data start_index w (-1) (.inr rfl)
    have hv' : v < variants (2 ^ (w + 1) - 1) start_index := by rwa [variants_all start_index hw]
    have hrange := hneg (2 ^ (w + 1) - 1) (by omega) (by omega) v hv'
    rw [groups, makeIndices_all start_index hw, hnegative] at hrange
    obtain ⟨-, hlow⟩ := hrange
    rw [hmagnitude]
    omega
  · intro hsmall
    rw [hmagnitude] at hsmall
    have hfits : PartFits data start_index (w + 1) := (partFits_iff hw).mpr ⟨by omega, by omega⟩
    refine ⟨hfits, fun choice hpos hlt variant hvariant ↦ ?_⟩
    refine inInt64_of_natAbs_lt ?_
    have hle : magnitude data (makeIndicesFromChoice choice start_index) ≤
        magnitude data (List.range' start_index (w + 1)) :=
      magnitude_mono data (nodup_makeIndices choice start_index) List.nodup_range' fun i hi ↦
        List.mem_range'_1.mpr (lt_of_mem_makeIndices hlt hi)
    rw [Int.natAbs_neg]
    refine ((natAbs_difference_le _ _ _).trans hle).trans_lt ?_
    rwa [hmagnitude]

/-! ## Where no loop is left early -/

/-- Every choice of the second part is in a share. -/
theorem exists_mem_shares {k c : ℕ} (hpos : 0 < c) (hlt : c < choicesCnt data k) :
    ∃ share ∈ shares data k, c ∈ share := by
  rw [shares]
  split
  · exact ⟨_, List.mem_singleton_self _, mem_choices.mpr ⟨hpos, hlt⟩⟩
  · have hchoice : c - 1 < choicesCnt data k - 1 := by omega
    obtain ⟨t, ht, hfirst, hlast⟩ := Lib.exists_share (k := kThreadCnt) (by decide) hchoice
    rw [← choicesBefore_eq] at hfirst hlast
    rw [choicesBefore_succ] at hlast
    refine ⟨_, List.mem_map.mpr ⟨t, List.mem_range.mpr ht, rfl⟩, List.mem_range'_1.mpr ?_⟩
    omega

/-- What all but the last of the first part come to fits with the last taken from it, and so do all
of the second part. -/
def MagnitudesFit (data : List ℤ) (k : ℕ) : Prop :=
  ((magnitude data (List.range (k - 1)) : ℤ) - data.getD (k - 1) 0 < 2 ^ 63 ∧
      (magnitude data (List.range (k - 1)) : ℤ) + data.getD (k - 1) 0 ≤ 2 ^ 63) ∧
    magnitude data (List.range' k (data.length - k)) < 2 ^ 63

theorem magnitudesFit_iff {k : ℕ} (hpos : 0 < k) (hlt : k < data.length)
    (hlength : data.length ≤ 64) :
    MagnitudesFit data k ↔ PartFits data 0 k ∧ PartFits data k (data.length - k) ∧
      ∀ c, 0 < c → c < 2 ^ (data.length - k) → ∀ v < variants c k,
        InInt64 (-difference data (groups c k v)) := by
  obtain ⟨w, rfl⟩ : ∃ w, k = w + 1 := ⟨k - 1, by omega⟩
  obtain ⟨w', hw'⟩ : ∃ w', data.length - (w + 1) = w' + 1 := ⟨data.length - (w + 1) - 1, by omega⟩
  rw [hw', partFits_neg_iff (by omega), partFits_iff (by omega), MagnitudesFit, hw',
    Nat.add_sub_cancel, Nat.zero_add, ← List.range_eq_range']

/-- The bounds are enough. -/
theorem MagnitudesFit.sumsFit {k : ℕ} (hpos : 0 < k) (hlt : k < data.length)
    (hlength : data.length ≤ 64) (h : MagnitudesFit data k) : SumsFit data k := by
  obtain ⟨hfirst, hsecond, hneg⟩ := (magnitudesFit_iff hpos hlt hlength).mp h
  constructor
  · intro c hc v hv _
    obtain ⟨hpos, hlt⟩ := mem_choices.mp hc
    exact hfirst c hpos hlt v (List.mem_range.mp hv)
  · intro _ share hshare c hc v hv _
    obtain ⟨hpos, hlt⟩ := (mem_of_mem_shares hshare).2 c hc
    refine ⟨hsecond c hpos hlt v (List.mem_range.mp hv), .inr fun heq ↦ ?_⟩
    have hrange := hneg c hpos hlt v (List.mem_range.mp hv)
    rw [heq] at hrange
    exact absurd hrange.2 (by decide)

/-- **Where there is no solution, no sum wraps if and only if the bounds are kept.** -/
theorem sumsFit_iff_of_not_solvable {k : ℕ} (hpos : 0 < k) (hlt : k < data.length)
    (hlength : data.length ≤ 64) (hnot : ¬Solvable data) : SumsFit data k ↔
      MagnitudesFit data k := by
  refine ⟨fun h ↦ (magnitudesFit_iff hpos hlt hlength).mpr ?_, fun h ↦ h.sumsFit hpos hlt hlength⟩
  have hbalanced : ∀ c ∈ List.range' 1 (2 ^ k - 1), ∀ v ∈ List.range (variants c 0),
      ¬Balanced data 0 c v := by
    intro c hc v hv hbalanced
    obtain ⟨hcpos, hclt⟩ := mem_choices.mp hc
    have hentry : Entry data k 0 ⟨c, v, true⟩ :=
      ⟨hcpos, hclt, List.mem_range.mp hv, hbalanced.1, hbalanced.2.symm⟩
    exact hnot (solves_makeSubsets hlt.le hentry rfl).solvable
  have hhit : ∀ c, 0 < c → c < choicesCnt data k →
      ∀ v ∈ List.range (variants c k), ¬Hit data k c v :=
    fun c hcpos hclt v hv hhit ↦
      hnot (solvable_of_hit hlt.le hlength hcpos hclt (List.mem_range.mp hv) hhit)
  have hsecond (c : ℕ) (hcpos : 0 < c) (hclt : c < choicesCnt data k) (v : ℕ)
      (hv : v < variants c k) : NegBounded data k c v := by
    obtain ⟨share, hshare, hc⟩ := exists_mem_shares hcpos hclt
    have hmem := (mem_of_mem_shares hshare).2
    exact h.second hbalanced share hshare c hc v (List.mem_range.mpr hv) fun c' hc' v' hv' _ ↦
      hhit c' (hmem c' hc').1 (hmem c' hc').2 v' hv'
  refine ⟨fun c hcpos hclt v hv ↦ ?_, fun c hcpos hclt v hv ↦ (hsecond c hcpos hclt v hv).1, ?_⟩
  · exact h.first c (mem_choices.mpr ⟨hcpos, hclt⟩) v (List.mem_range.mpr hv) fun c' hc' v' hv' _ ↦
      hbalanced c' hc' v' hv'
  · intro c hcpos hclt v hv
    obtain ⟨hbounded, hneg⟩ := hsecond c hcpos hclt v hv
    have hne := hneg.resolve_left fun hmatched ↦
      hhit c hcpos hclt v (List.mem_range.mpr hv) (.inl hmatched)
    obtain ⟨hlow, hhigh⟩ := hbounded.inInt64
    constructor <;> omega

end SubsetSum
end ManyTasks
