import ManyTasks.Redis.Storage

/-!
# Counters

`Change` adds to the number stored under a key and must not leave `int64_t` on the way.  It tests
the limits before it adds, by subtracting the change from the limit on its side, which could
overflow as well; and it gives an absent key the value `0` before it tests anything, so a test that
failed then would leave the key behind.  `limits_exact` and `overflows_zero` say that neither can
happen, and `change_correct` is the law of `Change` over the integers after any calls of `Set` and
`Change`.
-/

set_option autoImplicit false

namespace ManyTasks
namespace Redis

open Lib (FitsInt64 fitsInt64_toInt toInt_add_of_fits toInt_sub_of_fits)

/-! ## The limits -/

theorem toInt_kIntMax : kIntMax.toInt = 2 ^ 63 - 1 := by decide

theorem toInt_kIntMin : kIntMin.toInt = -2 ^ 63 := by decide

theorem toInt_nonneg_iff {delta : Int64} : 0 ≤ delta ↔ 0 ≤ delta.toInt := by
  rw [Int64.le_iff_toInt_le, Int64.toInt_zero]

/-- The subtraction that the limit test makes for a change stays in `int64_t`. -/
def LimitsExact (delta : Int64) : Prop :=
  (0 ≤ delta → FitsInt64 (kIntMax.toInt - delta.toInt)) ∧
    (¬ 0 ≤ delta → FitsInt64 (kIntMin.toInt - delta.toInt))

theorem limits_exact (delta : Int64) : LimitsExact delta := by
  have hdelta := fitsInt64_toInt delta
  rw [FitsInt64] at hdelta
  constructor
  · intro h
    rw [toInt_nonneg_iff] at h
    rw [FitsInt64, toInt_kIntMax]
    omega
  · intro h
    rw [toInt_nonneg_iff] at h
    rw [FitsInt64, toInt_kIntMin]
    omega

namespace SimpleStorage

/-- The limit test is exact. -/
theorem overflows_iff (num delta : Int64) :
    overflows num delta = true ↔ ¬ FitsInt64 (num.toInt + delta.toInt) := by
  have hnum := fitsInt64_toInt num
  obtain ⟨hmax, hmin⟩ := limits_exact delta
  rw [overflows]
  split
  · rename_i h
    have hsub := toInt_sub_of_fits (hmax h)
    rw [toInt_nonneg_iff] at h
    rw [decide_eq_true_iff, gt_iff_lt, Int64.lt_iff_toInt_lt, hsub, toInt_kIntMax]
    simp only [FitsInt64] at hnum ⊢
    omega
  · rename_i h
    have hsub := toInt_sub_of_fits (hmin h)
    rw [toInt_nonneg_iff] at h
    rw [decide_eq_true_iff, Int64.lt_iff_toInt_lt, hsub, toInt_kIntMin]
    simp only [FitsInt64] at hnum ⊢
    omega

/-- Any change of `0` fits, so the key that `Change` creates is never left behind by a throw. -/
theorem overflows_zero (delta : Int64) : overflows 0 delta = false := by
  rw [← Bool.not_eq_true, overflows_iff, not_not, Int64.toInt_zero, Int.zero_add]
  exact fitsInt64_toInt delta

/-! ## What `Change` does -/

/-- The number under a key: `0` if there is nothing, and none if there is a string. -/
def number (st : SimpleStorage) (key : Bytes) : Option ℤ :=
  match st.kv_storage_ key with
  | some (.int n) => some n.toInt
  | some (.str _) => none
  | none => some 0

/-- A call of `Change` throws: the key holds a string, or the sum is no `int64_t`. -/
def Throws (st : SimpleStorage) (key : Bytes) (delta : Int64) : Prop :=
  (∃ s, st.kv_storage_ key = some (.str s)) ∨
    ∃ old, st.number key = some old ∧ ¬ FitsInt64 (old + delta.toInt)

/-- After a call of `Change` that returns: the sum is returned and stored, and the other keys are
as they were. -/
structure Changed (st : SimpleStorage) (key : Bytes) (delta n : Int64) (st' : SimpleStorage) :
    Prop where
  sum : ∃ old, st.number key = some old ∧ n.toInt = old + delta.toInt
  stored : st'.kv_storage_ key = some (.int n)
  others : ∀ key', key' ≠ key → st'.kv_storage_ key' = st.kv_storage_ key'

theorem insert_of_ne (st : SimpleStorage) {key key' : Bytes} (value : Value) (h : key' ≠ key) :
    (st.insert key value).kv_storage_ key' = st.kv_storage_ key' := by
  simp [insert, h]

theorem changed_insert {st st' : SimpleStorage} {key : Bytes} {old delta : Int64}
    (hold : st.number key = some old.toInt) (hfits : FitsInt64 (old.toInt + delta.toInt))
    (hothers : ∀ key', key' ≠ key → st'.kv_storage_ key' = st.kv_storage_ key') :
    st.Changed key delta (old + delta) (st'.insert key (.int (old + delta))) := by
  refine ⟨⟨old.toInt, hold, toInt_add_of_fits hfits⟩, by simp [insert], fun key' hne ↦ ?_⟩
  rw [insert_of_ne st' _ hne]
  exact hothers key' hne

/-- The two ways a call of `Change` can go. -/
theorem change_cases (st : SimpleStorage) (key : Bytes) (delta : Int64) :
    (st.Throws key delta ∧ ∃ e, st.change key delta = (.error e, st)) ∨
      (¬ st.Throws key delta ∧
        ∃ n st', st.change key delta = (.ok n, st') ∧ st.Changed key delta n st') := by
  rcases hkey : st.kv_storage_ key with - | old | s
  · have hnum : st.number key = some (0 : Int64).toInt := by simp [number, hkey]
    have hfits : FitsInt64 ((0 : Int64).toInt + delta.toInt) := by
      simpa using fitsInt64_toInt delta
    refine .inr ⟨?_, 0 + delta, (st.insert key (.int 0)).insert key (.int (0 + delta)), ?_, ?_⟩
    · simpa [Throws, hkey, hnum] using hfits
    · simp [change, hkey, changeInt, overflows_zero]
    · exact changed_insert hnum hfits fun key' hne ↦ st.insert_of_ne _ hne
  · have hnum : st.number key = some old.toInt := by simp [number, hkey]
    by_cases hfits : FitsInt64 (old.toInt + delta.toInt)
    · have hover : overflows old delta = false := by
        rw [← Bool.not_eq_true, overflows_iff, not_not]
        exact hfits
      refine .inr ⟨?_, old + delta, st.insert key (.int (old + delta)), ?_, ?_⟩
      · simpa [Throws, hkey, hnum] using hfits
      · simp [change, hkey, changeInt, hover]
      · exact changed_insert hnum hfits fun key' _ ↦ rfl
    · have hover : overflows old delta = true := (overflows_iff _ _).2 hfits
      refine .inl ⟨.inr ⟨_, hnum, hfits⟩, .outOfRange, ?_⟩
      simp [change, hkey, changeInt, hover]
  · exact .inl ⟨.inl ⟨s, hkey⟩, .badTypeid, by simp [change, hkey]⟩

theorem change_of_error {st : SimpleStorage} {key : Bytes} {delta : Int64} {e : StorageError}
    (h : (st.change key delta).1 = .error e) : (st.change key delta).2 = st := by
  obtain ⟨-, e', heq⟩ | ⟨-, n, st', heq, -⟩ := st.change_cases key delta
  · rw [heq]
  · simp [heq] at h

/-! ## After any calls -/

/-- A call of one of the two operations that write. -/
inductive Call where
  | set (key value : Bytes)
  | change (key : Bytes) (delta : Int64)
deriving DecidableEq, Repr

/-- The storage after a call.  A `Change` that throws is caught by its caller. -/
def after (st : SimpleStorage) : Call → SimpleStorage
  | .set key value => st.set key value
  | .change key delta => (st.change key delta).2

/-- The storage after some calls. -/
def afterAll (calls : List Call) : SimpleStorage := calls.foldl after empty

/-- What `Change` promises. -/
structure ChangeCorrect (st : SimpleStorage) (key : Bytes) (delta : Int64) : Prop where
  throws_iff : (∃ e, (st.change key delta).1 = .error e) ↔ st.Throws key delta
  /-- The strong guarantee: a call that throws has changed nothing. -/
  unchanged : ∀ e, (st.change key delta).1 = .error e → (st.change key delta).2 = st
  changed : ∀ n, (st.change key delta).1 = .ok n →
    st.Changed key delta n (st.change key delta).2
  limits : LimitsExact delta

/-- **The law of `Change`**, after any calls of `Set` and `Change`. -/
theorem change_correct (calls : List Call) (key : Bytes) (delta : Int64) :
    (afterAll calls).ChangeCorrect key delta := by
  generalize afterAll calls = st
  refine ⟨?_, fun e h ↦ change_of_error h, fun n h ↦ ?_, limits_exact delta⟩
  · obtain ⟨hthrows, e, heq⟩ | ⟨hnot, n, st', heq, -⟩ := st.change_cases key delta
    · simp [heq, hthrows]
    · simp [heq, hnot]
  · obtain ⟨-, e, heq⟩ | ⟨-, n', st', heq, hchanged⟩ := st.change_cases key delta
    · simp [heq] at h
    · rw [heq] at h ⊢
      obtain rfl : n' = n := by simpa using h
      exact hchanged

end SimpleStorage
end Redis
end ManyTasks
