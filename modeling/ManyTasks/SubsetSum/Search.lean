import ManyTasks.Lib.Shares
import ManyTasks.SubsetSum.FindSubsets
import Mathlib.Algebra.BigOperators.Fin
import Mathlib.Algebra.Order.BigOperators.Group.Finset

/-!
# The threads find something if there is anything to find

Each thread goes through its own choices until it has found something or sees that another one has.
Only the first that sets the flag stores what it has found.  So when all have finished, either the
flag is set and something has been stored, or all choices have been looked at in vain (`Inv`,
`Inv.outcome`).  A thread that is left alone comes to every choice before which it finds nothing,
and no run brings it to any other (`reaches_iff`).

All of them finish, as every step brings a thread nearer to its end (`Search.left`).
-/

set_option autoImplicit false

namespace ManyTasks
namespace SubsetSum

open Function (update update_self update_of_ne)

/-- The choice is one of those of the thread. -/
def Task.Has (task : Task) (t : Fin kThreadCnt) (c : ℕ) : Prop :=
  task.choice_start t ≤ c ∧ c < task.choice_start t + task.choices_cnt t

/-- The thread comes to the choice, if no other stops it. -/
def Task.Reaches (task : Task) (t : Fin kThreadCnt) (c : ℕ) : Prop :=
  task.Has t c ∧ ∀ c', task.choice_start t ≤ c' → c' < c → task.check c' = none

/-- What is true of a thread at a place. -/
def Place.Fits (task : Task) (t : Fin kThreadCnt) (combination_exists : Bool) : Place → Prop
  | .testing i => task.Reaches t i
  | .setting found => ∃ c, task.Reaches t c ∧ task.check c = some found
  | .storing found => combination_exists = true ∧ ∃ c, task.Reaches t c ∧ task.check c = some found
  | .finished => combination_exists = false → ∀ c, task.Has t c → task.check c = none

/-- The threads, and what they have found. -/
structure Inv (task : Task) (s : Search) : Prop where
  fits : ∀ t, (s.places t).Fits task t s.combination_exists
  found : ∀ r, s.found_combination = some r → ∃ t c, task.Reaches t c ∧ task.check c = some r
  unset : s.combination_exists = false → s.found_combination = none
  stored : s.combination_exists = true →
    (∃ r, s.found_combination = some r) ∨ ∃ t r, s.places t = .storing r

section Steps

variable {task : Task} {s s' : Search} {t : Fin kThreadCnt} {p : Place}

/-- The condition of the loop leads to where a thread should be. -/
theorem fits_loop {i : ℕ} {combination_exists : Bool} (hi : task.choice_start t ≤ i)
    (hnone : ∀ c, task.choice_start t ≤ c → c < i → task.check c = none) :
    (task.loop t i).Fits task t combination_exists := by
  unfold Task.loop
  split
  · rename_i hlt
    exact ⟨⟨hi, hlt⟩, hnone⟩
  · rename_i hge
    exact fun _ c hc ↦ hnone c hc.1 (hc.2.trans_le (not_lt.mp hge))

theorem inv_start (task : Task) : Inv task task.start where
  fits _ := fits_loop (Nat.le_refl _) fun _ hc hlt ↦ absurd hlt (not_lt.mpr hc)
  found := nofun
  unset _ := rfl
  stored := nofun

/-- A thread goes on, and the flag is as before. -/
theorem Inv.go (hinv : Inv task s) (hp : p.Fits task t s.combination_exists)
    (ht : ∀ r, s.places t ≠ .storing r) : Inv task (s.go t p) := by
  refine ⟨(Function.forall_update_iff s.places fun t q ↦ q.Fits task t s.combination_exists).mpr
    ⟨hp, fun t' _ ↦ hinv.fits t'⟩, hinv.found, hinv.unset,
      fun hflag ↦ (hinv.stored hflag).imp_right ?_⟩
  rintro ⟨t', r, h⟩
  have hne : t' ≠ t := fun heq ↦ ht r (heq ▸ h)
  exact ⟨t', r, (update_of_ne hne _ _).trans h⟩

/-- When the flag is set nobody claims any more that there is nothing. -/
theorem Place.Fits.set {p : Place} {b : Bool} (h : p.Fits task t b) : p.Fits task t true := by
  cases p with
  | testing i => exact h
  | setting found => exact h
  | storing found => exact ⟨rfl, h.2⟩
  | finished => nofun

theorem Inv.step (hinv : Inv task s) (hstep : Step task s s') : Inv task s' := by
  cases hstep with
  | test t i h hflag =>
    have hfits := hinv.fits t
    rw [h] at hfits
    refine hinv.go ?_ (by simp [h])
    unfold Task.checked
    cases hcheck : task.check i with
    | some found => exact ⟨i, hfits, hcheck⟩
    | none =>
      obtain ⟨hhas, hnone⟩ := hfits
      refine fits_loop (hhas.1.trans (Nat.le_succ i)) fun c hc hlt ↦ ?_
      rcases Nat.lt_succ_iff_lt_or_eq.mp hlt with hlt | rfl
      · exact hnone c hc hlt
      · exact hcheck
  | stop t i h hflag => exact hinv.go (fun hnot ↦ by simp [hflag] at hnot) (by simp [h])
  | late t found h hflag => exact hinv.go (fun hnot ↦ by simp [hflag] at hnot) (by simp [h])
  | testAndSet t found h hflag =>
    have hfits := hinv.fits t
    rw [h] at hfits
    exact ⟨(Function.forall_update_iff s.places fun t q ↦ q.Fits task t true).mpr
      ⟨⟨rfl, hfits⟩, fun t' _ ↦ (hinv.fits t').set⟩, hinv.found, nofun,
      fun _ ↦ .inr ⟨t, found, update_self _ _ _⟩⟩
  | store t found h =>
    have hfits := hinv.fits t
    rw [h] at hfits
    obtain ⟨hflag, c, hreaches, hcheck⟩ := hfits
    refine ⟨(Function.forall_update_iff s.places fun t q ↦ q.Fits task t s.combination_exists).mpr
      ⟨fun hnot ↦ ?_, fun t' _ ↦ hinv.fits t'⟩, fun r hr ↦ ?_, fun hnot ↦ ?_,
        fun _ ↦ .inl ⟨found, rfl⟩⟩
    · cases hflag.symm.trans hnot
    · obtain rfl := Option.some.inj hr
      exact ⟨t, c, hreaches, hcheck⟩
    · cases hflag.symm.trans hnot

/-- What has been found when all threads have finished. -/
theorem Inv.outcome (hinv : Inv task s) (hjoined : s.Joined) :
    (∀ r, s.found_combination = some r → ∃ t c, task.Reaches t c ∧ task.check c = some r) ∧
      (s.found_combination = none → ∀ t c, task.Has t c → task.check c = none) := by
  refine ⟨hinv.found, fun hnone t c hc ↦ ?_⟩
  cases hflag : s.combination_exists with
  | false =>
    have hfits := hinv.fits t
    rw [hjoined t] at hfits
    exact hfits hflag c hc
  | true =>
    rcases hinv.stored hflag with ⟨r, hr⟩ | ⟨t', r, hr⟩
    · cases hnone.symm.trans hr
    · cases (hjoined t').symm.trans hr

/-! ## The choices that are looked at -/

/-- A thread that is left alone comes to all choices before which it finds nothing. -/
theorem exists_reach {c : ℕ} (h : task.Reaches t c) :
    ∃ s, Relation.ReflTransGen (Step task) task.start s ∧ s.places t = .testing c ∧
      s.combination_exists = false := by
  obtain ⟨⟨hge, hlt⟩, hnone⟩ := h
  induction c, hge using Nat.le_induction with
  | base => exact ⟨task.start, .refl, if_pos hlt, rfl⟩
  | succ c hge ih =>
    obtain ⟨s, hrun, hplace, hflag⟩ :=
      ih (fun c' hc' hlt' ↦ hnone c' hc' (hlt'.trans (Nat.lt_succ_self c)))
        ((Nat.lt_succ_self c).trans hlt)
    refine ⟨_, hrun.tail (.test t c hplace hflag), ?_, hflag⟩
    have hchecked : task.checked t c = .testing (c + 1) := by
      rw [Task.checked, hnone c hge (Nat.lt_succ_self c)]
      exact if_pos hlt
    exact (update_self _ _ _).trans hchecked

/-- **The choices that some run looks at.** -/
theorem reaches_iff {c : ℕ} : task.Reaches t c ↔
    ∃ s, Relation.ReflTransGen (Step task) task.start s ∧
    s.places t = .testing c ∧ s.combination_exists = false := by
  refine ⟨exists_reach, ?_⟩
  rintro ⟨s, hrun, hplace, -⟩
  have hinv : Inv task s :=
    Lib.invariant_of_step hrun (inv_start task) fun _ _ h hstep ↦ h.step hstep
  have hfits := hinv.fits t
  rwa [hplace] at hfits

/-! ## All threads finish -/

/-- How far a thread is from its end. -/
def Place.left (task : Task) (t : Fin kThreadCnt) : Place → ℕ
  | .testing i => task.choice_start t + task.choices_cnt t - i + 3
  | .setting _ => 2
  | .storing _ => 1
  | .finished => 0

def Search.left (task : Task) (s : Search) : ℕ := ∑ t, (s.places t).left task t

/-- A thread comes nearer to its end, and the others stay where they are. -/
theorem left_lt_of_places (hs' : s'.places = update s.places t p)
    (hp : p.left task t < (s.places t).left task t) : s'.left task < s.left task := by
  rw [Search.left, hs']
  exact Lib.sum_update_lt hp

theorem left_loop_lt (task : Task) (t : Fin kThreadCnt) (i : ℕ) :
    (task.loop t (i + 1)).left task t < (Place.testing i).left task t := by
  unfold Task.loop
  split
  · simp only [Place.left]
    omega
  · simp [Place.left]

theorem Step.left_lt (hstep : Step task s s') : s'.left task < s.left task := by
  cases hstep with
  | test t i h hflag =>
    refine left_lt_of_places rfl ?_
    rw [h, Task.checked]
    split
    · simp [Place.left]
    · exact left_loop_lt task t i
  | stop t i h hflag | testAndSet t found h hflag | late t found h hflag | store t found h =>
    refine left_lt_of_places rfl ?_
    rw [h]
    simp [Place.left]

/-- A thread that has not finished can go on. -/
theorem exists_step (task : Task) {t : Fin kThreadCnt} (ht : s.places t ≠ .finished) :
    ∃ s', Step task s s' := by
  cases h : s.places t with
  | testing i =>
    cases hflag : s.combination_exists with
    | false => exact ⟨_, .test t i h hflag⟩
    | true => exact ⟨_, .stop t i h hflag⟩
  | setting found =>
    cases hflag : s.combination_exists with
    | false => exact ⟨_, .testAndSet t found h hflag⟩
    | true => exact ⟨_, .late t found h hflag⟩
  | storing found => exact ⟨_, .store t found h⟩
  | finished => exact absurd h ht

/-- **Whatever the threads do first, all of them finish**, and something has been found if there was
anything to find. -/
theorem search_finishes {P : Option (Combination × Combination) → Prop}
    (hsome : ∀ t c r, task.Reaches t c → task.check c = some r → P (some r))
    (hnone : (∀ t c, task.Has t c → task.check c = none) → P none) :
    Lib.Inevitable (Step task) (fun s ↦ s.Joined ∧ P s.found_combination) task.start := by
  have hjoined : Lib.Inevitable (Step task) (fun s ↦ s.Joined ∧ Inv task s) task.start :=
    .of_workers (Search.left task) (fun s s' hinv hstep ↦ ⟨hinv.step hstep, hstep.left_lt⟩)
      (fun _ _ _ ht ↦ exists_step task ht) (inv_start task)
  refine hjoined.trans fun s hs ↦ .now ⟨hs.1, ?_⟩
  obtain ⟨hfound, hnothing⟩ := hs.2.outcome hs.1
  cases hr : s.found_combination with
  | none => exact hnone (hnothing hr)
  | some r =>
    obtain ⟨t, c, hc, hcheck⟩ := hfound r hr
    exact hsome t c r hc hcheck

end Steps

end SubsetSum
end ManyTasks
