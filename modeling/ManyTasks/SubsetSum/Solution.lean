import ManyTasks.Lib.Shares
import ManyTasks.SubsetSum.Check
import ManyTasks.SubsetSum.Search

/-!
# The subsets are found if there are any

The threads divide the choices among themselves and leave none out (`searchTask_has`), so that
`findSuitableCombination` looks at all of them, by one thread or by eight.  With the map of the
first part this makes the search sound and complete.
-/

set_option autoImplicit false

namespace ManyTasks
namespace SubsetSum

variable {data : List ℤ} {sums : Sums} {k : ℕ}

/-! ## The choices of the threads -/

/-- The choices of the threads before this one. -/
def choicesBefore (data : List ℤ) (k t : ℕ) : ℕ :=
  t * choicesPerThread data k + min t (residial data k)

/-- All choices but the empty one are divided, as evenly as possible. -/
theorem choicesBefore_eq (data : List ℤ) (k t : ℕ) :
    choicesBefore data k t = Lib.sharesBefore (choicesCnt data k - 1) kThreadCnt t := rfl

theorem choicesBefore_succ (data : List ℤ) (k t : ℕ) :
    choicesBefore data k (t + 1) = choicesBefore data k t + realChoicesPerThread data k t :=
  Lib.sharesBefore_succ (choicesCnt data k - 1) kThreadCnt t

theorem choicesBefore_lt (data : List ℤ) (k : ℕ) {t : ℕ} (ht : t ≤ kThreadCnt) :
    choicesBefore data k t < choicesCnt data k := by
  have hpos : 0 < choicesCnt data k := Nat.two_pow_pos _
  have hle := Lib.sharesBefore_le (n := choicesCnt data k - 1) ht (by decide)
  rw [← choicesBefore_eq] at hle
  omega

/-- The `int` does not wrap. -/
theorem currentChoice_eq (hwidth : data.length - k ≤ 30) {t : ℕ} (ht : t ≤ kThreadCnt) :
    currentChoice data k t = 1 + choicesBefore data k t := by
  induction t with
  | zero => simp [currentChoice, choicesBefore]
  | succ t ih =>
    have hlt := choicesBefore_lt data k ht
    have hpow : choicesCnt data k ≤ 2 ^ 30 := Nat.pow_le_pow_right Nat.two_pos hwidth
    have hsucc := choicesBefore_succ data k t
    rw [currentChoice, ih (Nat.le_of_succ_le ht), Int.bmod_eq_of_le] <;> omega

theorem searchTask_start (sums : Sums) (hwidth : data.length - k ≤ 30) (t : Fin kThreadCnt) :
    (searchTask data sums k).choice_start t = 1 + choicesBefore data k t := by
  have hlt := choicesBefore_lt data k t.isLt.le
  have hpow : choicesCnt data k ≤ 2 ^ 30 := Nat.pow_le_pow_right Nat.two_pos hwidth
  change (currentChoice data k t % 2 ^ 64).toNat = _
  rw [currentChoice_eq hwidth t.isLt.le]
  omega

/-- Every choice but the empty one is one of some thread, and no thread has others. -/
theorem searchTask_has (sums : Sums) (hwidth : data.length - k ≤ 30) (c : ℕ) :
    (∃ t, (searchTask data sums k).Has t c) ↔ 0 < c ∧ c < choicesCnt data k := by
  have hrange : ∀ t : Fin kThreadCnt, (searchTask data sums k).Has t c ↔
      1 + choicesBefore data k t ≤ c ∧ c < 1 + choicesBefore data k (t.val + 1) := fun t ↦ by
    rw [Task.Has, searchTask_start sums hwidth, choicesBefore_succ, ← add_assoc]
    rfl
  constructor
  · rintro ⟨t, ht⟩
    rw [hrange] at ht
    have hlt := choicesBefore_lt data k (t := t + 1) t.isLt
    omega
  · rintro ⟨hc, hlt⟩
    have hchoice : c - 1 < choicesCnt data k - 1 := by omega
    obtain ⟨t, ht, hfirst, hlast⟩ := Lib.exists_share (k := kThreadCnt) (by decide) hchoice
    rw [← choicesBefore_eq] at hfirst hlast
    refine ⟨⟨t, ht⟩, (hrange ⟨t, ht⟩).mpr ?_⟩
    dsimp only
    omega

/-- The operations of the threads, by the choices that some run looks at. -/
theorem searchFits_iff (data : List ℤ) (sums : Sums) (k : ℕ) : SearchFits data sums k ↔
    if choicesPerThread data k < 8 then
      Lib.UpTo (fun i ↦ (checkChoice data sums i k).isSome = true) (CheckFits data sums k)
        (List.range' 1 (choicesCnt data k - 1))
    else ∀ t c, (searchTask data sums k).Reaches t c → CheckFits data sums k c := by
  rw [SearchFits]
  split
  · rfl
  · simp only [reaches_iff]
    exact ⟨fun h t c ⟨s, hrun, hplace, hflag⟩ ↦ h s hrun t c hplace hflag,
      fun h s hrun t c hplace hflag ↦ h t c ⟨s, hrun, hplace, hflag⟩⟩

/-! ## The main result -/

/-- By one thread or by eight, all choices are looked at, as long as nothing is found. -/
theorem findSuitableCombination_of {P : Option (Combination × Combination) → Prop}
    (hwidth : data.length - k ≤ 30) (hfits : SearchFits data sums k)
    (hsome : ∀ c r, 0 < c → c < choicesCnt data k → CheckFits data sums k c →
      checkChoice data sums c k = some r → P (some r))
    (hnone : (∀ c, 0 < c → c < choicesCnt data k →
      CheckFits data sums k c ∧ checkChoice data sums c k = none) → P none) :
    findSuitableCombination data sums k P := by
  rw [searchFits_iff] at hfits
  unfold findSuitableCombination
  split
  · rename_i hfew
    rw [if_pos hfew] at hfits
    cases hfind : (List.range' 1 (choicesCnt data k - 1)).findSome? fun i ↦
        checkChoice data sums i k with
    | none =>
      rw [List.findSome?_eq_none_iff] at hfind
      have hall := hfits.forall fun c hc ↦ by simp [hfind c hc]
      exact hnone fun c hpos hlt ↦
        ⟨hall c (mem_choices.mpr ⟨hpos, hlt⟩), hfind c (mem_choices.mpr ⟨hpos, hlt⟩)⟩
    | some r =>
      obtain ⟨c, hc, hcheck, hfits⟩ := hfits.of_findSome? hfind
      obtain ⟨hpos, hlt⟩ := mem_choices.mp hc
      exact hsome c r hpos hlt hfits hcheck
  · rename_i hmany
    rw [if_neg hmany] at hfits
    refine search_finishes (fun t c r hc hcheck ↦ ?_) fun hall ↦ hnone fun c hc hlt ↦ ?_
    · obtain ⟨hpos, hlt⟩ := (searchTask_has sums hwidth c).mp ⟨t, hc.1⟩
      exact hsome c r hpos hlt (hfits t c hc) hcheck
    · obtain ⟨t, ht⟩ := (searchTask_has sums hwidth c).mpr ⟨hc, hlt⟩
      have hreaches : (searchTask data sums k).Reaches t c :=
        ⟨ht, fun c' hge hlt' ↦ hall t c' ⟨hge, hlt'.trans ht.2⟩⟩
      exact ⟨hfits t c hreaches, hall t c ht⟩

/-- What is returned is right. -/
def Right (data : List ℤ) (subsets : Subsets) : Prop :=
  (subsets.exists_ = true ↔ Solvable data) ∧ (subsets.exists_ = true → subsets.Solves data)

theorem right_of_solves {subsets : Subsets} (hexists : subsets.exists_ = true)
    (h : subsets.Solves data) :
    Right data subsets :=
  ⟨⟨fun _ ↦ h.solvable, fun _ ↦ hexists⟩, fun _ ↦ h⟩

theorem right_of_not_solvable (h : ¬Solvable data) : Right data noSubsets :=
  ⟨⟨nofun, fun h' ↦ absurd h' h⟩, nofun⟩

/-- A combination of the first part with two groups and the sum 0 is a solution. -/
theorem solves_makeSubsets (hk : k ≤ data.length) {comb : Combination}
    (hentry : Entry data k 0 comb) (htwo : comb.hasTwoGroups = true) :
    (⟨(makeSubsets comb 0).1, (makeSubsets comb 0).2, true⟩ : Subsets).Solves data := by
  -- it is the same as that combination and none of the second part
  have hmerge : mergeCombinations comb ⟨0, 0, false⟩ k =
      ⟨(makeSubsets comb 0).1, (makeSubsets comb 0).2, true⟩ := by
    rw [mergeCombinations, show makeSubsets ⟨0, 0, false⟩ k = ([], []) from rfl, List.append_nil,
      List.append_nil]
  obtain ⟨hne, hne'⟩ := @merge_ne_nil_of_twoGroups k comb ⟨0, 0, false⟩
    (.inl (hentry.two_eq.symm.trans htwo))
  have hsum : difference data (makeSubsets comb 0) +
      difference data (makeSubsets ⟨0, 0, false⟩ k) = 0 := by
    rw [hentry.sum_eq]
    rfl
  exact hmerge ▸ solves_mergeCombinations hk hentry.lt (Nat.two_pow_pos _) hsum hne hne'

theorem firstPart_le (h : 2 ≤ data.length) : 0 < firstPart data ∧ firstPart data < data.length := by
  unfold firstPart
  split <;> omega

theorem not_solvable_of_short (h : data.length < 2) : ¬Solvable data := by
  rintro ⟨A, B, hA, hB, hdisj, ⟨a, ha⟩, ⟨b, hb⟩, -⟩
  have ha' := Finset.mem_range.mp (hA ha)
  have hb' := Finset.mem_range.mp (hB hb)
  obtain rfl : a = b := by omega
  exact Finset.disjoint_left.mp hdisj ha hb

/-- What is found is a solution, and if nothing is found there is none. -/
theorem findSuitableCombination_right (hk : k ≤ data.length) (hlength : data.length ≤ 64)
    (hwidth : data.length - k ≤ 30) (hsound : Sound data k sums)
    (hrecorded : ∀ c, 0 < c → c < 2 ^ k → ∀ i < variants c 0, Recorded data sums c i)
    (hzero : zeroHasTwoGroups sums = false) (hfits : SearchFits data sums k) :
    findSuitableCombination data sums k fun
      | some (first, second) => Right data (mergeCombinations first second k)
      | none => Right data noSubsets := by
  refine findSuitableCombination_of hwidth hfits (fun c r hpos hlt hfits hcheck ↦ ?_) fun hnone ↦ ?_
  · exact right_of_solves rfl (checkChoice_sound hfits hk hlength hsound hpos hlt hcheck)
  refine right_of_not_solvable (not_solvable hk hlength (fun c hpos hlt i hi hbalanced ↦ ?_) ?_)
  · have hfound := hrecorded c hpos hlt i hi
    rw [Recorded, hbalanced.1, hbalanced.2, ← zeroHasTwoGroups_iff, hzero] at hfound
    cases hfound
  · intro c hpos hlt i hi
    obtain ⟨hfits, hcheck⟩ := hnone c hpos hlt
    rw [checkChoice, List.findSome?_eq_none_iff] at hcheck
    have hall := hfits.forall fun i hi ↦ by simp [hcheck i hi]
    have hindices :=
      makeIndices_ne_nil k hpos (hlt.trans_le (Nat.pow_le_pow_right Nat.two_pos (by omega)))
    rw [← checkVariant_isSome_iff (hk.trans hlength) hsound hrecorded hindices hi
      (hall i (List.mem_range.mpr hi)), hcheck i (List.mem_range.mpr hi)]
    exact Bool.false_ne_true

/-- **If no operation that is executed leaves the range, what is returned is right.** -/
theorem findEqualSumSubsets_right (hsize : data.length ≤ 60) (hno : NoOverflow data) :
    findEqualSumSubsets data (Right data) := by
  unfold findEqualSumSubsets
  split
  · rename_i hshort
    exact right_of_not_solvable (not_solvable_of_short hshort)
  have hwidth : data.length - firstPart data ≤ 30 := by
    unfold firstPart
    split <;> omega
  have hk : firstPart data ≤ data.length := (firstPart_le (by omega)).2.le
  obtain ⟨hmap, hsearch⟩ := hno (by omega)
  have hkeq : firstPart data = if data.length > 2 then data.length / 2 else 1 := rfl
  simp only [← hkeq]
  set k := firstPart data
  have hlength : data.length ≤ 64 := by omega
  obtain ⟨hsound, hrecorded⟩ := computeSumMap_spec hmap
  cases hzero : zeroHasTwoGroups (computeSumMap data k) with
  | false =>
    have hright := findSuitableCombination_right hk hlength hwidth hsound
      (hrecorded.resolve_left (by simp [hzero])) hzero (hsearch hzero)
    split
    · rename_i htrue
      cases htrue
    · exact hright
  | true =>
    obtain ⟨comb, hcomb, htwo⟩ := zeroHasTwoGroups_iff.mp hzero
    rw [hcomb]
    exact right_of_solves rfl (solves_makeSubsets hk (hsound 0 comb hcomb) (htwo rfl))

/-- If all that there is does not come to 2^63, no operation leaves the range. -/
theorem noOverflow_of_small (hsmall : (data.map Int.natAbs).sum < 2 ^ 63) : NoOverflow data := by
  have hsum (choice start_index variant : ℕ) :
      SumFits data (makeIndicesFromChoice choice start_index) variant 0 := by
    have hmagnitude := (magnitude_le (nodup_makeIndices choice start_index)).trans_lt hsmall
    exact sumFits_of_small (by simpa using hmagnitude)
  have hcheck (sums : Sums) (k choice : ℕ) : CheckFits data sums k choice := .of_forall fun i _ ↦ by
    refine ⟨hsum choice k i, fun _ ↦ inInt64_of_natAbs_lt ?_⟩
    rw [computeSum_eq (hsum choice k i), Int.natAbs_neg]
    have hmagnitude : magnitude data (makeIndicesFromChoice choice k) ≤ _ :=
      magnitude_le (nodup_makeIndices choice k)
    exact ((natAbs_difference_le _ _ _).trans hmagnitude).trans_lt hsmall
  have hmap (choices : List ℕ) (sums : Sums) : SumMapFits data choices sums := by
    induction choices generalizing sums with
    | nil => trivial
    | cons c choices ih => exact ⟨.of_forall fun i _ ↦ hsum c 0 i, fun _ ↦ ih _⟩
  refine fun _ ↦ ⟨hmap _ _, fun _ ↦ ?_⟩
  rw [searchFits_iff]
  split
  · exact .of_forall fun c _ ↦ hcheck _ _ c
  · exact fun _ c _ ↦ hcheck _ _ c

/-- **Two subsets with the same sum are found if there are any.**  Whatever the threads do first,
`findEqualSumSubsets` returns, and `exists` says whether there are two disjoint sets of indices, not
empty, with the same sum; and if so it returns two. -/
theorem find_equal_sum_subsets (data : List ℤ) (hsize : data.length ≤ 60)
    (hsum : (data.map Int.natAbs).sum < 2 ^ 63) :
    findEqualSumSubsets data fun subsets ↦
      (subsets.exists_ = true ↔ Solvable data) ∧ (subsets.exists_ = true → subsets.Solves data) :=
  findEqualSumSubsets_right hsize (noOverflow_of_small hsum)

/-- Of three numbers two are the same. -/
theorem find_equal_sum_subsets_three : findEqualSumSubsets [2, 2, 3] fun subsets ↦
    (subsets.exists_ = true ↔ Solvable [2, 2, 3]) ∧
      (subsets.exists_ = true → subsets.Solves [2, 2, 3]) :=
  find_equal_sum_subsets [2, 2, 3] (by decide) (by decide)

end SubsetSum
end ManyTasks
