import ManyTasks.Semaphore.Order

/-!
# A permit that nobody is told of

`Release` wakes everybody, but `Acquire`, which makes the next number the one to be served, wakes
nobody.  If there is a permit left for that number, and its owner has looked at the condition before
its turn came, then it sleeps on although it could go on (`Stuck`).

This happens when two permits are released while two threads sleep, and the one with the greater
number is the first to look.  It does not happen if no `Acquire` completes in such a situation
(`HandsOn`).
-/

set_option autoImplicit false

namespace ManyTasks
namespace Semaphore

open Function (update update_self update_of_ne)
open Lib (Trace)

variable {Θ : Type}

/-- It is inside `Acquire` or `Release`, and not asleep. -/
def Place.running : Place → Bool
  | .idle | .asleep _ _ => false
  | _ => true

/-- There is a permit, its owner-to-be sleeps, and nobody is there who could wake it. -/
def Stuck (s : State Θ) : Prop :=
  0 < s.count_ ∧ (∃ θ callback, s.places θ = .asleep callback s.executing_pos_) ∧
    ∀ θ, (s.places θ).running = false

/-- If an `Acquire` completes and leaves a permit, then the owner of the next number does not
sleep. -/
def HandsOn (s : State Θ) (l : Label Θ) : Prop :=
  ∀ θ, l = .acquired θ → 0 < s.count_ →
    ∀ θ' callback, s.places θ' ≠ .asleep callback (s.executing_pos_ + 1)

/-- Who sleeps although its number is served does so for want of a permit. -/
def Served (s : State Θ) : Prop :=
  ∀ θ callback, s.places θ = .asleep callback s.executing_pos_ → s.count_ ≤ 0

variable [DecidableEq Θ]

/-- A thread that does not fall asleep, while the count stays. -/
theorem Served.move {s s' : State Θ} {θ : Θ} {p : Place} (h : Served s)
    (hplaces : s'.places = update s.places θ p) (hp : ∀ callback pos, p ≠ .asleep callback pos)
    (hpos : s'.executing_pos_ = s.executing_pos_) (hcount : s'.count_ = s.count_) : Served s' := by
  intro θ' callback hθ'
  rw [hplaces, hpos] at hθ'
  by_cases hne : θ' = θ
  · subst hne
    rw [update_self] at hθ'
    exact absurd hθ' (hp _ _)
  · rw [update_of_ne hne] at hθ'
    exact hcount.trans_le (h θ' callback hθ')

/-- Nobody sleeps with the number of a thread that is in its callback. -/
theorem Ordered.served {h : List (State Θ × Label Θ)} {s s' : State Θ} {θ : Θ}
    {callback : Callback} {pos : ℕ} {p : Place} (hord : Ordered h s)
    (hθ : s.places θ = .executing callback pos) (hplaces : s'.places = update s.places θ p)
    (hp : ∀ callback pos, p ≠ .asleep callback pos)
    (hpos : s'.executing_pos_ = s.executing_pos_) : Served s' := by
  intro θ' callback' hθ'
  exfalso
  rw [hplaces, hpos] at hθ'
  by_cases hne : θ' = θ
  · subst hne
    rw [update_self] at hθ'
    exact hp _ _ hθ'
  · rw [update_of_ne hne] at hθ'
    have hown := hord.fits θ
    have hother := hord.fits θ'
    rw [hθ] at hown
    rw [hθ', ← hown.2.2] at hother
    exact hne (Option.some.inj (hother.1.symm.trans hown.1))

theorem served_step {h : List (State Θ × Label Θ)} {s s' : State Θ} {l : Label Θ}
    (hord : Ordered h s) (hdown : CountsDown s.places) (hserved : Served s) (hstep : Step s l s')
    (hl : HandsOn s l) : Served s' := by
  cases hstep with
  | callAcquire | callRelease | enter | pass | spurious | relock =>
    exact hserved.move rfl (by simp) rfl rfl
  | callback θ callback pos hθ => exact hord.served hθ rfl nofun rfl
  | throw θ callback pos hθ hr =>
    obtain rfl : callback = countDown := hdown θ callback (congrArg Place.callback? hθ)
    cases hr
  | sleep θ callback pos hθ hr =>
    intro θ' callback' hθ'
    by_cases hne : θ' = θ
    · subst hne
      simp only [update_self, Place.asleep.injEq] at hθ'
      simp only [State.ready, hθ'.2, beq_self_eq_true, Bool.and_true, bne_eq_false_iff_eq] at hr
      exact hr.le
    · simp only [update_of_ne hne] at hθ'
      exact hserved θ' callback' hθ'
  | acquired θ pos hθ =>
    intro θ' callback hθ'
    by_cases hne : θ' = θ
    · subst hne
      simp at hθ'
    · simp only [update_of_ne hne] at hθ'
      exact Int.not_lt.mp fun hpos ↦ hl θ rfl hpos θ' callback hθ'
  | released θ hθ hm =>
    intro θ' callback hθ'
    by_cases hne : θ' = θ
    · subst hne
      simp at hθ'
    · simp only [update_of_ne hne, Lib.notifyAll] at hθ'
      exfalso
      revert hθ'
      cases s.places θ' <;> simp [awaken]

/-- **Nobody is stuck, if permits are handed on.** -/
theorem not_stuck {n : ℤ} {h : List (State Θ × Label Θ)} {s : State Θ}
    (hrun : Trace Step (init n) h s) (hdown : AllCountDown h)
    (hhand : ∀ x ∈ h, HandsOn x.1 x.2) : ¬ Stuck s := by
  have hserved : Served s := by
    induction hrun with
    | nil => exact nofun
    | @snoc h s s' l hrun hstep ih =>
      have hbefore : AllCountDown h := fun x hx ↦ hdown x (List.mem_append_left _ hx)
      have hlast := hhand (s, l) (List.mem_append_right _ List.mem_cons_self)
      exact served_step (ordered_of_trace hrun) (countsDown_of_trace hrun hbefore)
        (ih hbefore fun x hx ↦ hhand x (List.mem_append_left _ hx)) hstep hlast
  rintro ⟨hpos, ⟨θ, callback, hθ⟩, -⟩
  exact absurd (hserved θ callback hθ) (Int.not_le.mpr hpos)

/-- The condition is needed: an `Acquire` that completes without it leaves a thread that is stuck,
unless somebody else is still running. -/
theorem stuck_of_not_handsOn {s s' : State Θ} {θ : Θ} (hstep : Step s (.acquired θ) s')
    (hhand : ¬ HandsOn s (.acquired θ)) (hquiet : ∀ θ' ≠ θ, (s.places θ').running = false) :
    Stuck s' := by
  simp only [HandsOn, ne_eq, not_forall, not_not] at hhand
  obtain ⟨θ₀, hθ₀, hpos, θ', callback, hθ'⟩ := hhand
  cases hstep with
  | acquired θ pos hθ =>
    have hne : θ' ≠ θ := by
      rintro rfl
      simp [hθ] at hθ'
    refine ⟨hpos, ⟨θ', callback, ?_⟩, fun θ₁ ↦ ?_⟩
    · simp only [update_of_ne hne]
      exact hθ'
    · by_cases hne₁ : θ₁ = θ
      · subst hne₁
        simp [Place.running]
      · simp only [update_of_ne hne₁]
        exact hquiet θ₁ hne₁

/-- Two threads sleep, two permits are released, the second thread looks first and sleeps again, the
first one goes on. -/
theorem stuck_two_permits :
    ∃ (h : List (State (Fin 3) × Label (Fin 3))) (s : State (Fin 3)),
      Trace Step (init 0) h s ∧ AllCountDown h ∧ Stuck s := by
  have hrun := (.nil : Trace Step (init 0 : State (Fin 3)) [] (init 0))
    |>.snoc (.callAcquire 0 countDown rfl)
    |>.snoc (.enter 0 countDown rfl rfl)
    |>.snoc (.sleep 0 countDown 0 rfl rfl)
    |>.snoc (.callAcquire 1 countDown rfl)
    |>.snoc (.enter 1 countDown rfl rfl)
    |>.snoc (.sleep 1 countDown 1 rfl rfl)
    |>.snoc (.callRelease 2 rfl)
    |>.snoc (.released 2 rfl rfl)
    |>.snoc (.callRelease 2 rfl)
    |>.snoc (.released 2 rfl rfl)
    |>.snoc (.relock 1 countDown 1 rfl rfl)
    |>.snoc (.sleep 1 countDown 1 rfl rfl)
    |>.snoc (.relock 0 countDown 0 rfl rfl)
    |>.snoc (.pass 0 countDown 0 rfl rfl)
    |>.snoc (.callback 0 countDown 0 rfl rfl)
    |>.snoc (.acquired 0 0 rfl)
  exact ⟨_, _, hrun, by simp [AllCountDown], by decide, ⟨1, countDown, rfl⟩, by decide⟩

/-- One permit for one thread. -/
theorem not_stuck_one : ∃ s : State (Fin 2), s.count_ = 1 ∧ ¬ Stuck s := by
  have hrun := (.nil : Trace Step (init 0 : State (Fin 2)) [] (init 0))
    |>.snoc (.callAcquire 0 countDown rfl)
    |>.snoc (.enter 0 countDown rfl rfl)
    |>.snoc (.sleep 0 countDown 0 rfl rfl)
    |>.snoc (.callRelease 1 rfl)
    |>.snoc (.released 1 rfl rfl)
  exact ⟨_, rfl, not_stuck hrun (by simp [AllCountDown]) (by simp [HandsOn])⟩

end Semaphore
end ManyTasks
