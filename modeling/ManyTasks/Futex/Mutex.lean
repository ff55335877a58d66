import ManyTasks.Lib.Transition
import ManyTasks.Lib.Waiting
import Mathlib.Algebra.Order.Ring.Int

/-!
# A mutex on a futex

`state_` is 0 if the mutex is free, 1 if it is taken, and 2 if it is taken and somebody may sleep.
`Lock` tries to go from 0 to 1.  If this fails it writes 2, and sleeps until it is the one who
replaced a 0 by it.  `Unlock` takes one off; if this was not the step from 1 to 0 it writes the 0
and wakes somebody.

There is a moment in `Unlock` when `state_` is 1 although the mutex is neither free nor owned, and
the other threads do not wait for it to pass: they may write a 2 that is then overwritten.  So it is
not `state_` alone that says whether somebody has to be woken.  Who sleeps can rely on one of these
(`Guarded`): the mutex is owned and `state_` is 2, so that the owner will wake somebody; or there is
a thread that is `Watchful`, which is about to wake somebody or to write a 2 itself.
-/

set_option autoImplicit false

namespace ManyTasks
namespace Futex

open Function (update update_self update_of_ne)

/-- Where a thread is. -/
inductive Place where
  | outside
  /-- In `Lock`, before `compare_exchange_strong`. -/
  | lock
  /-- In `Lock`, before one of the two `exchange(2)`. -/
  | exchange
  /-- In `Lock`, before `FutexWait`. -/
  | wait
  /-- In `FutexWait`, asleep. -/
  | asleep
  /-- `Lock` has returned and `Unlock` has not done its first step. -/
  | owner
  /-- In `Unlock`, before `store(0)`. -/
  | store
  /-- In `Unlock`, before `FutexWake`. -/
  | wake
deriving DecidableEq, Repr

variable {Θ : Type}

/-- The mutex and the threads. -/
structure State (Θ : Type) where
  state_ : ℤ
  places : Θ → Place

/-- The constructor. -/
def init : State Θ := ⟨0, fun _ ↦ .outside⟩

/-! ## The steps -/

/-- `state_ref_.compare_exchange_strong(state, 1)` with `state = 0`, and what `Lock` makes of it. -/
def compareExchange (state_ : ℤ) : ℤ × Place :=
  if state_ = 0 then (1, .owner)
  else if state_ ≠ 2 then (state_, .exchange)
  else (state_, .wait)

/-- `state = state_ref_.exchange(2)`, and the test of the loop. -/
def exchange (state_ : ℤ) : ℤ × Place := (2, if state_ ≠ 0 then .wait else .owner)

/-- `state_ref_.fetch_sub(1) != 1`. -/
def fetchSub (state_ : ℤ) : ℤ × Place := (state_ - 1, if state_ ≠ 1 then .store else .outside)

/-- What a thread can do on its own: from a place and a value of `state_` to others. -/
inductive Move : ℤ × Place → ℤ × Place → Prop where
  | call (v) : Move (v, .outside) (v, .lock)
  | compareExchange (v) : Move (v, .lock) (compareExchange v)
  | exchange (v) : Move (v, .exchange) (exchange v)
  /-- `FutexWait(&state_, 2)` sleeps only if `state_` is 2. -/
  | futexWait : Move (2, .wait) (2, .asleep)
  /-- `FutexWait` returns at once, also without a reason. -/
  | noWait (v) : Move (v, .wait) (v, .exchange)
  | spurious (v) : Move (v, .asleep) (v, .exchange)
  | fetchSub (v) : Move (v, .owner) (fetchSub v)
  | store (v) : Move (v, .store) (0, .wake)

/-- Who sleeps in `FutexWait` goes on after it. -/
def awaken : Place → Option Place
  | .asleep => some .exchange
  | _ => none

theorem eq_of_awaken {p q : Place} (h : awaken q = some p) : q = .asleep ∧ p = .exchange := by
  cases q <;> cases h
  exact ⟨rfl, rfl⟩

variable [DecidableEq Θ]

/-- One step of one thread. -/
inductive Step : State Θ → State Θ → Prop where
  | move {s} (θ) (r : ℤ × Place) (h : Move (s.state_, s.places θ) r) :
      Step s ⟨r.1, update s.places θ r.2⟩
  /-- `FutexWake(&state_, 1)`. -/
  | futexWake {s} (θ f) (h : s.places θ = .wake)
      (hf : Lib.NotifyOne awaken (update s.places θ .outside) f) : Step s ⟨s.state_, f⟩

/-! ## What holds in every state -/

/-- It has the mutex, or has not given it back completely. -/
def Holds (p : Place) : Prop := p = .owner ∨ p = .store

/-- It will write a 2, or wake somebody. -/
def Watchful (p : Place) : Prop := p = .exchange ∨ p = .store ∨ p = .wake

/-- Somebody will be woken. -/
def Guarded (s : State Θ) : Prop :=
  (s.state_ = 2 ∧ ∃ θ, s.places θ = .owner) ∨ ∃ θ, Watchful (s.places θ)

/-- The mutex belongs to one thread at most, and nobody sleeps without a guard. -/
structure Inv (s : State Θ) : Prop where
  one : ∀ θ θ', Holds (s.places θ) → Holds (s.places θ') → θ = θ'
  free : s.state_ = 0 ↔ ∀ θ, ¬ Holds (s.places θ)
  guarded : ∀ θ, s.places θ = .asleep → Guarded s

omit [DecidableEq Θ] in
theorem inv_init : Inv (init : State Θ) where
  one := by simp [init, Holds]
  free := by simp [init, Holds]
  guarded := by simp [init]

/-- What a move does to who holds the mutex: the thread takes it when it is free, gives it back, or
neither. -/
theorem Move.holds {v : ℤ} {p : Place} {r : ℤ × Place} (h : Move (v, p) r) (hv : Holds p → v ≠ 0) :
    (v = 0 ∧ r.1 ≠ 0 ∧ Holds r.2) ∨ (r.1 = 0 ∧ Holds p ∧ ¬ Holds r.2) ∨
      ((v = 0 ↔ r.1 = 0) ∧ (Holds p ↔ Holds r.2)) := by
  simp only [Holds] at hv ⊢
  cases h with
  | compareExchange => grind [Futex.compareExchange]
  | exchange => grind [Futex.exchange]
  | fetchSub => grind [Futex.fetchSub]
  | store => grind
  | _ => simp

/-- Who goes to sleep sees a 2, and nobody ceases to be a guard except by writing one. -/
theorem Move.guards {v : ℤ} {p : Place} {r : ℤ × Place} (h : Move (v, p) r) :
    r.1 = 2 ∨ Watchful r.2 ∨ (r.2 ≠ .asleep ∧ ¬ Watchful p ∧ v ≠ 2) := by
  simp only [Watchful]
  cases h with
  | compareExchange => grind [Futex.compareExchange]
  | exchange => grind [Futex.exchange]
  | fetchSub => grind [Futex.fetchSub]
  | call => grind
  | _ => simp

omit [DecidableEq Θ] in
/-- Whoever holds the mutex when `state_` is 2 is a guard. -/
theorem guarded_of_two {s : State Θ} (hfree : s.state_ = 0 ↔ ∀ θ, ¬ Holds (s.places θ))
    (htwo : s.state_ = 2) : Guarded s := by
  have hheld : ¬ ∀ θ, ¬ Holds (s.places θ) := by
    rw [← hfree, htwo]
    decide
  push Not at hheld
  obtain ⟨θ, howner | hstore⟩ := hheld
  · exact .inl ⟨htwo, θ, howner⟩
  · exact .inr ⟨θ, .inr (.inl hstore)⟩

theorem inv_move {s : State Θ} {θ : Θ} {r : ℤ × Place} (hinv : Inv s)
    (h : Move (s.state_, s.places θ) r) : Inv ⟨r.1, update s.places θ r.2⟩ := by
  have hholds := h.holds fun hp hv ↦ hinv.free.mp hv θ hp
  have hothers : Holds r.2 → ∀ θ' ≠ θ, ¬ Holds (s.places θ') := by
    intro hp θ' hne hθ'
    rcases hholds with ⟨hzero, -⟩ | ⟨-, -, hnot⟩ | ⟨-, hiff⟩
    · exact hinv.free.mp hzero θ' hθ'
    · exact hnot hp
    · exact hne (hinv.one _ _ hθ' (hiff.mpr hp))
  have hone (θ₁ θ₂ : Θ) (h₁ : Holds (update s.places θ r.2 θ₁))
      (h₂ : Holds (update s.places θ r.2 θ₂)) : θ₁ = θ₂ := by
    by_cases hθ₁ : θ₁ = θ <;> by_cases hθ₂ : θ₂ = θ
    · rw [hθ₁, hθ₂]
    · subst hθ₁
      rw [update_self] at h₁
      rw [update_of_ne hθ₂] at h₂
      exact absurd h₂ (hothers h₁ θ₂ hθ₂)
    · subst hθ₂
      rw [update_self] at h₂
      rw [update_of_ne hθ₁] at h₁
      exact absurd h₁ (hothers h₂ θ₁ hθ₁)
    · rw [update_of_ne hθ₁] at h₁
      rw [update_of_ne hθ₂] at h₂
      exact hinv.one _ _ h₁ h₂
  have hfree : r.1 = 0 ↔ ∀ θ', ¬ Holds (update s.places θ r.2 θ') := by
    rw [Function.forall_update_iff s.places fun _ p ↦ ¬ Holds p]
    rcases hholds with ⟨-, hv, hp⟩ | ⟨hv, hold, hp⟩ | ⟨hv, hp⟩
    · exact ⟨fun h ↦ absurd h hv, fun h ↦ absurd hp h.1⟩
    · exact ⟨fun _ ↦ ⟨hp, fun θ' hne hθ' ↦ hne (hinv.one _ _ hθ' hold)⟩, fun _ ↦ hv⟩
    · rw [← hv, hinv.free]
      refine ⟨fun h ↦ ⟨fun hold ↦ h θ (hp.mpr hold), fun θ' _ ↦ h θ'⟩, fun h θ' ↦ ?_⟩
      by_cases hθ : θ' = θ
      · subst hθ
        exact fun hold ↦ h.1 (hp.mp hold)
      · exact h.2 θ' hθ
  refine ⟨hone, hfree, fun θ' hasleep ↦ ?_⟩
  rcases h.guards with htwo | hwatch | ⟨hnot, hwatch, htwo⟩
  · exact guarded_of_two hfree htwo
  · exact .inr ⟨θ, by simpa using hwatch⟩
  · change update s.places θ r.2 θ' = .asleep at hasleep
    have hne : θ' ≠ θ := by
      rintro rfl
      rw [update_self] at hasleep
      exact hnot hasleep
    rw [update_of_ne hne] at hasleep
    rcases hinv.guarded θ' hasleep with ⟨htwo', -⟩ | ⟨θ₀, hθ₀⟩
    · exact absurd htwo' htwo
    · have hne₀ : θ₀ ≠ θ := fun heq ↦ hwatch (heq ▸ hθ₀)
      exact .inr ⟨θ₀, by simpa [hne₀] using hθ₀⟩

/-- A thread that wakes somebody hands its guard over to it. -/
theorem inv_futexWake {s : State Θ} {θ : Θ} {f : Θ → Place} (hinv : Inv s) (h : s.places θ = .wake)
    (hf : Lib.NotifyOne awaken (update s.places θ .outside) f) : Inv ⟨s.state_, f⟩ := by
  have hholds (θ' : Θ) : Holds (f θ') ↔ Holds (s.places θ') := by
    have houtside : Holds (update s.places θ .outside θ') ↔ Holds (s.places θ') := by
      by_cases hθ : θ' = θ
      · subst hθ
        rw [update_self, h]
        simp [Holds]
      · rw [update_of_ne hθ]
    rw [← houtside]
    rcases hf.apply θ' with heq | hwake
    · rw [heq]
    · obtain ⟨hold, hnew⟩ := eq_of_awaken hwake
      rw [hold, hnew]
      simp [Holds]
  refine ⟨fun θ₁ θ₂ h₁ h₂ ↦ hinv.one _ _ ((hholds θ₁).mp h₁) ((hholds θ₂).mp h₂), ?_, ?_⟩
  · rw [hinv.free]
    exact forall_congr' fun θ' ↦ not_congr (hholds θ').symm
  · intro θ' hasleep
    cases hf with
    | nobody hnobody =>
      simpa [awaken, show update s.places θ .outside θ' = .asleep from hasleep] using hnobody θ'
    | one θ₀ p hp =>
      obtain ⟨-, rfl⟩ := eq_of_awaken hp
      exact .inr ⟨θ₀, .inl (by simp)⟩

theorem inv_step {s s' : State Θ} (hinv : Inv s) (h : Step s s') : Inv s' := by
  cases h with
  | move θ r h => exact inv_move hinv h
  | futexWake θ f h hf => exact inv_futexWake hinv h hf

/-- **One owner, and no lost wake-up.**  No two threads own the mutex.  While some thread sleeps,
another one is about to write a 2 or to wake somebody, unless the mutex is owned and `state_` is
2. -/
theorem one_owner_and_no_lost_wakeup {s : State Θ} (hrun : Relation.ReflTransGen Step init s) :
    (∀ θ θ', s.places θ = .owner → s.places θ' = .owner → θ = θ') ∧
      (∀ θ, (∀ θ', s.places θ' ≠ .owner) → s.places θ = .asleep →
        ∃ θ' ≠ θ, Watchful (s.places θ')) ∧
      ∀ θ θ', s.places θ' = .owner → s.places θ = .asleep →
        s.state_ = 2 ∨ ∃ θ' ≠ θ, Watchful (s.places θ') := by
  have hinv : Inv s := Lib.invariant_of_step hrun inv_init fun _ _ ↦ inv_step
  have hother {θ : Θ} (hasleep : s.places θ = .asleep) (hwatch : ∃ θ', Watchful (s.places θ')) :
      ∃ θ' ≠ θ, Watchful (s.places θ') := by
    obtain ⟨θ', hθ'⟩ := hwatch
    refine ⟨θ', ?_, hθ'⟩
    rintro rfl
    simp [Watchful, hasleep] at hθ'
  refine ⟨fun θ θ' h h' ↦ hinv.one θ θ' (.inl h) (.inl h'), fun θ hnone hasleep ↦ ?_,
    fun θ _ _ hasleep ↦ ?_⟩
  · rcases hinv.guarded θ hasleep with ⟨-, θ', howner⟩ | hwatch
    · exact absurd howner (hnone θ')
    · exact hother hasleep hwatch
  · rcases hinv.guarded θ hasleep with ⟨htwo, -⟩ | hwatch
    · exact .inl htwo
    · exact .inr (hother hasleep hwatch)

/-- The first thread owns the mutex, and the second one has written its 2 and sleeps. -/
theorem no_lost_wakeup_two :
    ∃ s : State (Fin 2), s.places 0 = .owner ∧ s.places 1 = .asleep ∧
      (s.state_ = 2 ∨ ∃ θ' ≠ 1, Watchful (s.places θ')) := by
  have hrun := (Relation.ReflTransGen.refl (r := Step) (a := (init : State (Fin 2))))
    |>.tail (.move 0 (0, .lock) (.call 0))
    |>.tail (.move 0 (1, .owner) (.compareExchange 0))
    |>.tail (.move 1 (1, .lock) (.call 1))
    |>.tail (.move 1 (1, .exchange) (.compareExchange 1))
    |>.tail (.move 1 (2, .wait) (.exchange 1))
    |>.tail (.move 1 (2, .asleep) .futexWait)
  exact ⟨_, rfl, rfl, (one_owner_and_no_lost_wakeup hrun).2.2 1 0 rfl rfl⟩

end Futex
end ManyTasks
