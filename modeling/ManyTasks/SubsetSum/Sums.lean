import ManyTasks.SubsetSum.Operations

/-!
# The map of sums

What is in the map is a combination of the first part with this sum (`Entry`).  The map only grows,
and a combination with two groups is not given up for one without (`Grows`); so after all
combinations have been gone through there is one for each sum, and one with two groups if there is
any (`Recorded`).  The loops are left early only if there are two groups with the sum 0, and then
the search is over.
-/

set_option autoImplicit false

namespace ManyTasks
namespace SubsetSum

open Function (update update_self update_of_ne)

/-- It is a combination of the first part with this sum. -/
structure Entry (data : List ℤ) (k : ℕ) (sum : ℤ) (comb : Combination) : Prop where
  pos : 0 < comb.choice
  lt : comb.choice < 2 ^ k
  variant : comb.variant < variants comb.choice 0
  sum_eq : difference data (makeSubsets comb 0) = sum
  two_eq : comb.hasTwoGroups = twoGroups (makeSubsets comb 0)

/-- There is a combination at least as good. -/
def Found (sums : Sums) (sum : ℤ) (two : Bool) : Prop :=
  ∃ comb, sums sum = some comb ∧ (two = true → comb.hasTwoGroups = true)

/-- The map has grown. -/
def Grows (sums sums' : Sums) : Prop :=
  ∀ sum comb, sums sum = some comb → Found sums' sum comb.hasTwoGroups

/-- A combination with this sum is in the map, with two groups if this one has. -/
def Recorded (data : List ℤ) (sums : Sums) (choice variant : ℕ) : Prop :=
  Found sums (difference data (groups choice 0 variant)) (twoGroups (groups choice 0 variant))

/-- What is in the map is what should be. -/
def Sound (data : List ℤ) (k : ℕ) (sums : Sums) : Prop :=
  ∀ sum comb, sums sum = some comb → Entry data k sum comb

section Growth

variable {sums sums' sums'' : Sums} {sum : ℤ} {two : Bool} {data : List ℤ}

theorem Grows.refl (sums : Sums) : Grows sums sums := fun _ comb h ↦ ⟨comb, h, id⟩

theorem Found.mono (h : Found sums sum two) (hgrows : Grows sums sums') : Found sums' sum two := by
  obtain ⟨comb, hcomb, htwo⟩ := h
  obtain ⟨comb', hcomb', htwo'⟩ := hgrows sum comb hcomb
  exact ⟨comb', hcomb', fun h ↦ htwo' (htwo h)⟩

theorem Grows.trans (h : Grows sums sums') (h' : Grows sums' sums'') : Grows sums sums'' :=
  fun sum comb hcomb ↦ (h sum comb hcomb).mono h'

theorem zeroHasTwoGroups_iff : zeroHasTwoGroups sums = true ↔ Found sums 0 true := by
  rw [zeroHasTwoGroups, Option.any_eq_true]
  exact ⟨fun ⟨comb, h, htwo⟩ ↦ ⟨comb, h, fun _ ↦ htwo⟩, fun ⟨comb, h, htwo⟩ ↦ ⟨comb, h, htwo rfl⟩⟩

/-- What has been inserted is found. -/
theorem found_insertSum (sums : Sums) (sum : ℤ) (comb : Combination) :
    Found (insertSum sums sum comb) sum comb.hasTwoGroups := by
  unfold insertSum
  cases hold : sums sum with
  | none => exact ⟨comb, update_self _ _ _, id⟩
  | some found =>
    by_cases hbetter : (comb.hasTwoGroups && !found.hasTwoGroups) = true
    · simp only [hbetter, if_true]
      exact ⟨comb, update_self _ _ _, id⟩
    · simp only [hbetter, Bool.false_eq_true, if_false]
      refine ⟨found, hold, fun htwo ↦ ?_⟩
      simpa [htwo] using hbetter

/-- The combination is inserted, or nothing is done. -/
theorem insertSum_eq (sums : Sums) (sum : ℤ) (comb : Combination) :
    insertSum sums sum comb = sums ∨ insertSum sums sum comb = update sums sum (some comb) := by
  unfold insertSum
  split
  · split
    · exact .inr rfl
    · exact .inl rfl
  · exact .inr rfl

theorem grows_insertSum (sums : Sums) (sum : ℤ) (comb : Combination) :
    Grows sums (insertSum sums sum comb) := by
  intro sum' comb' hcomb'
  by_cases hsum : sum' = sum
  · subst hsum
    unfold insertSum
    simp only [hcomb']
    split
    · rename_i hbetter
      exact ⟨comb, update_self _ _ _, fun htwo ↦ by simp [htwo] at hbetter⟩
    · exact ⟨comb', hcomb', id⟩
  · refine ⟨comb', ?_, id⟩
    rcases insertSum_eq sums sum comb with heq | heq
    · rw [heq, hcomb']
    · rw [heq, update_of_ne hsum, hcomb']

theorem zeroHasTwoGroups_insertSum (sums : Sums) (sum : ℤ) (comb : Combination) :
    zeroHasTwoGroups (insertSum sums sum comb) = true ↔
      zeroHasTwoGroups sums = true ∨ balanced (sum, comb.hasTwoGroups) = true := by
  rw [balanced, Bool.and_eq_true, decide_eq_true_eq]
  by_cases hsum : 0 = sum
  · subst hsum
    unfold insertSum zeroHasTwoGroups
    cases hold : sums 0 with
    | none => simp
    | some found =>
      cases hcomb : comb.hasTwoGroups <;> cases hfound : found.hasTwoGroups <;> simp [*]
  · have hother : insertSum sums sum comb 0 = sums 0 := by
      rcases insertSum_eq sums sum comb with heq | heq
      · rw [heq]
      · rw [heq, update_of_ne hsum]
    rw [zeroHasTwoGroups, hother, or_iff_left fun h ↦ hsum h.1.symm]
    rfl

theorem Sound.insertSum {k : ℕ} (h : Sound data k sums) {comb : Combination}
    (hcomb : Entry data k sum comb) : Sound data k (insertSum sums sum comb) := by
  rcases insertSum_eq sums sum comb with heq | heq
  · rw [heq]
    exact h
  · rw [heq]
    intro sum' comb' h'
    by_cases hsum : sum' = sum
    · subst hsum
      rw [update_self, Option.some_inj] at h'
      exact h' ▸ hcomb
    · rw [update_of_ne hsum] at h'
      exact h sum' comb' h'

end Growth

/-! ## The loops -/

section Loops

variable {data : List ℤ} {k choice i : ℕ} {sums : Sums}

/-- The combination has two groups with the same sum. -/
def Balanced (data : List ℤ) (start_index choice variant : ℕ) : Prop :=
  difference data (groups choice start_index variant) = 0 ∧
    twoGroups (groups choice start_index variant) = true

theorem balanced_iff {start_index : ℕ}
    (hfits : SumFits data (makeIndicesFromChoice choice start_index) i 0) :
    balanced (computeSum data (makeIndicesFromChoice choice start_index) i) = true ↔
      Balanced data start_index choice i := by
  rw [computeSum_eq hfits, balanced, Bool.and_eq_true, decide_eq_true_eq]
  rfl

theorem computeChoiceLoop_cons (data : List ℤ) (choice : ℕ) (chosen_indices is : List ℕ) (i : ℕ)
    (sums : Sums) :
    computeChoiceLoop data choice chosen_indices (i :: is) sums =
      if balanced (computeSum data chosen_indices i) then
        insertSum sums (computeSum data chosen_indices i).1
          ⟨choice, i, (computeSum data chosen_indices i).2⟩
      else
        computeChoiceLoop data choice chosen_indices is
          (insertSum sums (computeSum data chosen_indices i).1
          ⟨choice, i, (computeSum data chosen_indices i).2⟩) := rfl

/-- The loop of `computeChoice` is left early if it finds two groups with the sum 0. -/
theorem zeroHasTwoGroups_computeChoiceLoop (data : List ℤ) (choice : ℕ) (chosen_indices is : List ℕ)
    (sums : Sums) :
    zeroHasTwoGroups (computeChoiceLoop data choice chosen_indices is sums) = true ↔
      zeroHasTwoGroups sums = true ∨
        ∃ i ∈ is, balanced (computeSum data chosen_indices i) = true := by
  induction is generalizing sums with
  | nil => simp [computeChoiceLoop]
  | cons i is ih =>
    have hinsert := zeroHasTwoGroups_insertSum sums (computeSum data chosen_indices i).1
      ⟨choice, i, (computeSum data chosen_indices i).2⟩
    rw [computeChoiceLoop_cons, List.exists_mem_cons_iff, ← or_assoc, ← hinsert]
    split
    · rename_i hzero
      have hset := hinsert.mpr (.inr hzero)
      exact iff_of_true hset (.inl hset)
    · exact ih _

/-- What the loop of `computeChoice` does if its operations stay in the range. -/
theorem computeChoiceLoop_spec (hpos : 0 < choice) (hlt : choice < 2 ^ k) (is : List ℕ)
    (his : ∀ i ∈ is, i < variants choice 0)
    (hfits : Lib.UpTo (fun i ↦ balanced (computeSum data (makeIndicesFromChoice choice 0) i) = true)
      (fun i ↦ SumFits data (makeIndicesFromChoice choice 0) i 0) is) (hsound : Sound data k sums) :
    Sound data k (computeChoiceLoop data choice (makeIndicesFromChoice choice 0) is sums) ∧
      Grows sums (computeChoiceLoop data choice (makeIndicesFromChoice choice 0) is sums) ∧
        (zeroHasTwoGroups
            (computeChoiceLoop data choice (makeIndicesFromChoice choice 0) is sums) = true ∨
          ∀ i ∈ is,
            Recorded data (computeChoiceLoop data choice (makeIndicesFromChoice choice 0) is sums)
              choice i) := by
  induction is generalizing sums with
  | nil => exact ⟨hsound, .refl sums, .inr nofun⟩
  | cons i is ih =>
    obtain ⟨hsum, hrest⟩ := hfits
    rw [computeChoiceLoop, computeSum_eq hsum]
    simp only
    set sums' := insertSum sums (difference data (groups choice 0 i))
      ⟨choice, i, twoGroups (groups choice 0 i)⟩ with hsums'
    have hsound' : Sound data k sums' :=
      hsound.insertSum ⟨hpos, hlt, his i List.mem_cons_self, rfl, rfl⟩
    have hgrows : Grows sums sums' := grows_insertSum _ _ _
    have hrecorded : Recorded data sums' choice i := found_insertSum _ _ _
    split
    · rename_i hzero
      rw [Bool.and_eq_true, decide_eq_true_eq] at hzero
      refine ⟨hsound', hgrows, .inl (zeroHasTwoGroups_iff.mpr ?_)⟩
      rwa [Recorded, groups, hzero.1, hzero.2] at hrecorded
    · rename_i hzero
      have hnot : ¬balanced (computeSum data (makeIndicesFromChoice choice 0) i) = true := by
        rwa [computeSum_eq hsum]
      obtain ⟨hsound'', hgrows', hall⟩ :=
        ih (fun j hj ↦ his j (List.mem_cons_of_mem i hj)) (hrest hnot) hsound'
      refine ⟨hsound'', hgrows.trans hgrows', hall.imp_right fun hall j hj ↦ ?_⟩
      rcases List.mem_cons.mp hj with rfl | hj
      · exact hrecorded.mono hgrows'
      · exact hall j hj

theorem computeChoice_spec (hpos : 0 < choice) (hlt : choice < 2 ^ k)
    (hfits : ChoiceFits data choice) (hsound : Sound data k sums) :
    Sound data k (computeChoice data choice sums) ∧ Grows sums (computeChoice data choice sums) ∧
      (zeroHasTwoGroups (computeChoice data choice sums) = true ∨
        ∀ i < variants choice 0, Recorded data (computeChoice data choice sums) choice i) := by
  obtain ⟨hsound', hgrows, hall⟩ := computeChoiceLoop_spec hpos hlt _
    (fun i hi ↦ List.mem_range.mp hi) hfits hsound
  exact ⟨hsound', hgrows, hall.imp_right fun hall i hi ↦ hall i (List.mem_range.mpr hi)⟩

theorem computeSumMapLoop_spec (choices : List ℕ) (hchoices : ∀ c ∈ choices, 0 < c ∧ c < 2 ^ k)
    (hfits : SumMapFits data choices sums) (hsound : Sound data k sums) :
    Sound data k (computeSumMapLoop data choices sums) ∧
      Grows sums (computeSumMapLoop data choices sums) ∧
        (zeroHasTwoGroups (computeSumMapLoop data choices sums) = true ∨
          ∀ c ∈ choices, ∀ i < variants c 0, Recorded data
            (computeSumMapLoop data choices sums) c i) := by
  induction choices generalizing sums with
  | nil => exact ⟨hsound, .refl sums, .inr nofun⟩
  | cons c choices ih =>
    obtain ⟨hpos, hlt⟩ := hchoices c List.mem_cons_self
    obtain ⟨hsound', hgrows, hchoice⟩ := computeChoice_spec hpos hlt hfits.1 hsound
    rw [computeSumMapLoop]
    split
    · rename_i hzero
      exact ⟨hsound', hgrows, .inl hzero⟩
    · rename_i hzero
      obtain ⟨hsound'', hgrows', hall⟩ := ih (fun c' hc' ↦ hchoices c' (List.mem_cons_of_mem c hc'))
        (hfits.2 (Bool.not_eq_true _ ▸ hzero)) hsound'
      refine ⟨hsound'', hgrows.trans hgrows', hall.imp_right fun hall c' hc' i hi ↦ ?_⟩
      rcases List.mem_cons.mp hc' with rfl | hc'
      · exact (hchoice.resolve_left hzero i hi).mono hgrows'
      · exact hall c' hc' i hi

/-- All choices of a part but the empty one. -/
theorem mem_choices {width c : ℕ} : c ∈ List.range' 1 (2 ^ width - 1) ↔ 0 < c ∧ c < 2 ^ width := by
  have hpow : 0 < 2 ^ width := Nat.two_pow_pos width
  rw [List.mem_range'_1]
  omega

/-- **The map is what it should be.** -/
theorem computeSumMap_spec (hfits : SumMapFits data (List.range' 1 (2 ^ k - 1)) fun _ ↦ none) :
    Sound data k (computeSumMap data k) ∧
      (zeroHasTwoGroups (computeSumMap data k) = true ∨
        ∀ c, 0 < c → c < 2 ^ k → ∀ i < variants c 0, Recorded data (computeSumMap data k) c i) := by
  have hempty : Sound data k fun _ ↦ none := nofun
  obtain ⟨hsound, -, hall⟩ := computeSumMapLoop_spec _ (fun c hc ↦ mem_choices.mp hc) hfits hempty
  exact ⟨hsound, hall.imp_right fun hall c hpos hlt ↦ hall c (mem_choices.mpr ⟨hpos, hlt⟩)⟩

/-- **When the search is over after the first part.** -/
theorem zeroHasTwoGroups_computeSumMap_iff
    (hfits : SumMapFits data (List.range' 1 (2 ^ k - 1)) fun _ ↦ none) :
    zeroHasTwoGroups (computeSumMap data k) = true ↔
      ∃ c, (0 < c ∧ c < 2 ^ k) ∧ ∃ i < variants c 0, Balanced data 0 c i := by
  obtain ⟨hsound, hrecorded⟩ := computeSumMap_spec hfits
  rw [zeroHasTwoGroups_iff]
  constructor
  · rintro ⟨comb, hcomb, htwo⟩
    have hentry := hsound 0 comb hcomb
    exact ⟨comb.choice, ⟨hentry.pos, hentry.lt⟩, comb.variant, hentry.variant, hentry.sum_eq,
      hentry.two_eq.symm.trans (htwo rfl)⟩
  · rintro ⟨c, ⟨hpos, hlt⟩, i, hi, hsum, htwo⟩
    rcases hrecorded with hzero | hrecorded
    · exact zeroHasTwoGroups_iff.mp hzero
    · have hfound := hrecorded c hpos hlt i hi
      rwa [Recorded, hsum, htwo] at hfound

end Loops

end SubsetSum
end ManyTasks
