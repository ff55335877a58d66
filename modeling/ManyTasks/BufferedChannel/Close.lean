import ManyTasks.BufferedChannel.Delivery

/-!
# A call that sleeps through the closing

`Close` sets the flag and notifies without the mutex.  A call that has just found that it has to
wait is not asleep yet, so the notification is lost on it; and it does not look at the flag again
before it sleeps.  If this happens to nobody (`HeardBy`), then nobody sleeps any more once a `Close`
has returned.
-/

set_option autoImplicit false

namespace ManyTasks
namespace BufferedChannel

open Function (update update_self update_of_ne)
open Lib (Trace)

variable {C V : Type}

/-- If the step is a notification of `Close`, then nobody whom it should reach is about to sleep. -/
def HeardBy (s : State C V) : Label C V → Prop
  | .notifyReaders _ => ∀ c, s.places c ≠ .tired .recv
  | .notifyWriters _ => ∀ c value, s.places c ≠ .tired (.send value)
  | _ => True

/-- It sleeps, or is about to. -/
def Place.Weary (op : Op V) (p : Place V) : Prop := p = .asleep op ∨ p = .tired op

/-- It is a `Close` that has set the flag. -/
def Place.Closing (p : Place V) : Prop := p = .flagged ∨ p = .notified ∨ p = .closed

/-- A `Close` that has notified has left nobody behind. -/
structure Woken (s : State C V) : Prop where
  flag : ∀ c, (s.places c).Closing → s.is_closed_ = true
  readers : ∀ c, s.places c = .notified ∨ s.places c = .closed → ∀ c', ¬ (s.places c').Weary .recv
  writers : ∀ c, s.places c = .closed → ∀ c' value, ¬ (s.places c').Weary (.send value)

variable [DecidableEq C]

/-- Once the channel is closed nobody gets tired. -/
theorem weary_step {s s' : State C V} {l : Label C V} {c : C} {op : Op V}
    (hclosed : s.is_closed_ = true) (hstep : Step s l s') (hweary : (s'.places c).Weary op) :
    (s.places c).Weary op := by
  by_cases hactor : c = l.actor
  · subst hactor
    cases id hstep with
    | fail c op' h hr => cases op' <;> simp [State.ready, hclosed] at hr
    | sleep c op' h =>
      simp only [Label.actor, update_self, Place.Weary] at hweary
      rw [Label.actor, h]
      simpa [Place.Weary] using hweary
    | accept =>
      rw [Label.actor, hstep.sent] at hweary
      simp [Place.Weary] at hweary
    | receive =>
      rw [Label.actor, hstep.received] at hweary
      simp [Place.Weary] at hweary
    | _ => simp [Label.actor, Place.Weary] at hweary
  · rcases hstep.other hactor with heq | ⟨op', -, hawake⟩
    · rw [← heq]
      exact hweary
    · simp [hawake, Place.Weary] at hweary

/-- How a `Close` comes to where it is. -/
theorem Step.closing {s s' : State C V} {l : Label C V} {c : C} (hstep : Step s l s')
    (hc : (s'.places c).Closing) :
    s'.places c = s.places c ∨ (s'.places c = .flagged ∧ s'.is_closed_ = true) ∨
      (l = .notifyReaders c ∧ s.places c = .flagged ∧ s'.places c = .notified) ∨
        (l = .notifyWriters c ∧ s.places c = .notified ∧ s'.places c = .closed) := by
  by_cases hactor : c = l.actor
  · subst hactor
    cases id hstep with
    | setFlag c hold => exact .inr (.inl ⟨update_self _ _ _, rfl⟩)
    | notifyReaders c hold => exact .inr (.inr (.inl ⟨rfl, hold, update_self _ _ _⟩))
    | notifyWriters c hold => exact .inr (.inr (.inr ⟨rfl, hold, update_self _ _ _⟩))
    | accept =>
      rw [Label.actor, hstep.sent] at hc
      simp [Place.Closing] at hc
    | receive =>
      rw [Label.actor, hstep.received] at hc
      simp [Place.Closing] at hc
    | _ => simp [Label.actor, Place.Closing] at hc
  · rcases hstep.other hactor with heq | ⟨op, -, hawake⟩
    · exact .inl heq
    · simp [hawake, Place.Closing] at hc

/-- The notification of all readers reaches all who are weary, unless they are about to sleep. -/
theorem not_weary_of_notifyReaders {s s' : State C V} {c c' : C}
    (hstep : Step s (.notifyReaders c) s') (hheard : HeardBy s (.notifyReaders c))
    (hclosed : s.is_closed_ = true) : ¬ (s'.places c').Weary .recv := by
  intro hweary
  rcases weary_step hclosed hstep hweary with hasleep | htired
  · cases hstep with
    | notifyReaders c hc =>
      have hne : c' ≠ c := by
        rintro rfl
        simp [hc] at hasleep
      simp only [update_of_ne hne] at hweary
      rw [Lib.notifyAll_of_some (p := .awake .recv) (by rw [hasleep]; rfl)] at hweary
      simp [Place.Weary] at hweary
  · exact hheard c' htired

theorem not_weary_of_notifyWriters {s s' : State C V} {c c' : C} {value : V}
    (hstep : Step s (.notifyWriters c) s') (hheard : HeardBy s (.notifyWriters c))
    (hclosed : s.is_closed_ = true) : ¬ (s'.places c').Weary (.send value) := by
  intro hweary
  rcases weary_step hclosed hstep hweary with hasleep | htired
  · cases hstep with
    | notifyWriters c hc =>
      have hne : c' ≠ c := by
        rintro rfl
        simp [hc] at hasleep
      simp only [update_of_ne hne] at hweary
      rw [Lib.notifyAll_of_some (p := .awake (.send value)) (by rw [hasleep]; rfl)] at hweary
      simp [Place.Weary] at hweary
  · exact hheard c' value htired

theorem woken_step {s s' : State C V} {l : Label C V} (h : Woken s) (hstep : Step s l s')
    (hl : HeardBy s l) : Woken s' := by
  refine ⟨fun c hc ↦ ?_, fun c hc c' hweary ↦ ?_, fun c hc c' value hweary ↦ ?_⟩
  · rcases hstep.closing hc with heq | ⟨-, hclosed⟩ | ⟨-, hold, -⟩ | ⟨-, hold, -⟩
    · exact hstep.shared.2.1 (h.flag c (heq ▸ hc))
    · exact hclosed
    · exact hstep.shared.2.1 (h.flag c (.inl hold))
    · exact hstep.shared.2.1 (h.flag c (.inr (.inl hold)))
  · rcases hstep.closing (.inr hc) with heq | ⟨hnew, -⟩ | ⟨rfl, hold, -⟩ | ⟨-, hold, -⟩
    · rw [heq] at hc
      exact h.readers c hc c' (weary_step (h.flag c (.inr hc)) hstep hweary)
    · simp [hnew] at hc
    · exact not_weary_of_notifyReaders hstep hl (h.flag c (.inl hold)) hweary
    · exact h.readers c (.inl hold) c' (weary_step (h.flag c (.inr (.inl hold))) hstep hweary)
  · rcases hstep.closing (.inr (.inr hc)) with heq | ⟨hnew, -⟩ | ⟨-, -, hnew⟩ | ⟨rfl, hold, -⟩
    · rw [heq] at hc
      exact h.writers c hc c' value (weary_step (h.flag c (.inr (.inr hc))) hstep hweary)
    · simp [hnew] at hc
    · simp [hnew] at hc
    · exact not_weary_of_notifyWriters hstep hl (h.flag c (.inr (.inl hold))) hweary

/-- **Nobody sleeps on, if the notifications are heard.** -/
theorem nobody_asleep {size : ℕ} {h : List (State C V × Label C V)} {s : State C V}
    (hrun : Trace Step (init size) h s) (hheard : ∀ x ∈ h, HeardBy x.1 x.2) {c : C}
    (hc : s.places c = .closed) (c' : C) (op : Op V) : s.places c' ≠ .asleep op := by
  have hwoken : Woken s :=
    hrun.invariant_of_forall hheard ⟨by simp [init, Place.Closing], by simp [init], by simp [init]⟩
      fun s l s' h hstep hl ↦ woken_step h hstep hl
  intro hasleep
  cases op with
  | send value => exact hwoken.writers c hc c' value (.inl hasleep)
  | recv => exact hwoken.readers c (.inr hc) c' (.inl hasleep)

/-- It can sleep after a `Close` that has done its last notification. -/
theorem asleep_of_tired {s : State C V} {c c' : C} {op : Op V} (hc : s.places c = .notified)
    (hc' : s.places c' = .tired op) :
    ∃ h s', Trace Step s h s' ∧ s'.places c = .closed ∧ s'.places c' = .asleep op := by
  have hne : c' ≠ c := by
    rintro rfl
    simp [hc] at hc'
  have htired : update (Lib.notifyAll awakenWriter s.places) c .closed c' = .tired op := by
    rw [update_of_ne hne, Lib.notifyAll_of_none (by rw [hc']; rfl), hc']
  exact ⟨_, _, .cons (.notifyWriters c hc) (.cons (.sleep c' op htired) .nil),
    (update_of_ne hne.symm _ _).trans (update_self _ _ _), update_self _ _ _⟩

/-- The condition is needed: whoever does not hear a notification can still be asleep when `Close`
has returned. -/
theorem asleep_of_not_heardBy {s s' : State C V} {l : Label C V} (hstep : Step s l s')
    (hheard : ¬ HeardBy s l) :
    ∃ h s'' c c' op, Trace Step s' h s'' ∧ s''.places c = .closed ∧ s''.places c' = .asleep op := by
  cases hstep with
  | notifyReaders c hc =>
    simp only [HeardBy, ne_eq, not_forall, not_not] at hheard
    obtain ⟨c', hc'⟩ := hheard
    have hne : c' ≠ c := by
      rintro rfl
      simp [hc] at hc'
    have htired : update (Lib.notifyAll awakenReader s.places) c .notified c' = .tired .recv := by
      rw [update_of_ne hne, Lib.notifyAll_of_none (by rw [hc']; rfl), hc']
    obtain ⟨h, s'', hrun, hclosed, hasleep⟩ := asleep_of_tired
      (s := { s with places := update (Lib.notifyAll awakenReader s.places) c .notified })
      (update_self _ _ _) htired
    exact ⟨h, s'', c, c', .recv, hrun, hclosed, hasleep⟩
  | notifyWriters c hc =>
    simp only [HeardBy, ne_eq, not_forall, not_not] at hheard
    obtain ⟨c', value, hc'⟩ := hheard
    have hne : c' ≠ c := by
      rintro rfl
      simp [hc] at hc'
    have htired : update (Lib.notifyAll awakenWriter s.places) c .closed c' =
        .tired (.send value) := by
      rw [update_of_ne hne, Lib.notifyAll_of_none (by rw [hc']; rfl), hc']
    exact ⟨_, _, c, c', .send value, .cons (.sleep c' _ htired) .nil,
      (update_of_ne hne.symm _ _).trans (update_self _ _ _), update_self _ _ _⟩
  | _ => simp [HeardBy] at hheard

/-- The receiver has looked at the flag before `Close` sets it, and sleeps after `Close` has
notified. -/
theorem asleep_two :
    ∃ (h : List (State (Fin 2) ℕ × Label (Fin 2) ℕ)) (s : State (Fin 2) ℕ),
      Trace Step (init 1) h s ∧ s.places 1 = .closed ∧ s.places 0 = .asleep .recv := by
  have hrun := (.nil : Trace Step (init 1 : State (Fin 2) ℕ) [] (init 1))
    |>.snoc (.call 0 .recv rfl)
    |>.snoc (.enter 0 .recv rfl rfl)
    |>.snoc (.fail 0 .recv rfl rfl)
    |>.snoc (.callClose 1 rfl)
    |>.snoc (.setFlag 1 rfl)
    |>.snoc (.notifyReaders 1 rfl)
    |>.snoc (.notifyWriters 1 rfl)
    |>.snoc (.sleep 0 .recv rfl)
  exact ⟨_, _, hrun, rfl, rfl⟩

/-- The receiver sleeps before it is notified. -/
theorem nobody_asleep_two :
    ∃ s : State (Fin 2) ℕ, s.places 1 = .closed ∧ s.places 0 ≠ .asleep .recv := by
  have hrun := (.nil : Trace Step (init 1 : State (Fin 2) ℕ) [] (init 1))
    |>.snoc (.call 0 .recv rfl)
    |>.snoc (.enter 0 .recv rfl rfl)
    |>.snoc (.fail 0 .recv rfl rfl)
    |>.snoc (.sleep 0 .recv rfl)
    |>.snoc (.callClose 1 rfl)
    |>.snoc (.setFlag 1 rfl)
    |>.snoc (.notifyReaders 1 rfl)
    |>.snoc (.notifyWriters 1 rfl)
  exact ⟨_, rfl, nobody_asleep hrun
    (by simp [HeardBy, Fin.forall_fin_two, init, Lib.notifyAll, awakenReader]) (c := 1) rfl 0 .recv⟩

end BufferedChannel
end ManyTasks
