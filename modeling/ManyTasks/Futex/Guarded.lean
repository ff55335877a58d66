import ManyTasks.Futex.Mutex
import ManyTasks.Lib.Guarded

/-!
# What the mutex on a futex is good for

* `mutex_guards`: an object whose operations run between `Lock` and `Unlock` is linearizable, and
  its data are accessed by one thread at a time, also while others sleep, are woken or write to
  `state_`.
-/

set_option autoImplicit false

namespace ManyTasks
namespace Futex

open Function (update update_self update_of_ne)

/-- The phase of a thread.  It does not matter whether a thread that waits sleeps. -/
def Place.phase : Place → Lib.Phase
  | .outside => .outside
  | .lock | .exchange | .wait | .asleep => .waiting .exclusive
  | .owner => .holding .exclusive
  | .store | .wake => .leaving

theorem Place.of_phase {p : Place} {m : Lib.Mode} (h : p.phase = .holding m) : p = .owner := by
  cases p with
  | owner => rfl
  | _ => cases h

theorem Move.next {v : ℤ} {p : Place} {r : ℤ × Place} (h : Move (v, p) r) :
    p.phase.Next r.2.phase := by
  cases h with
  | call => exact .call .exclusive
  | compareExchange =>
    simp only [Futex.compareExchange]
    split_ifs
    · exact .acquire .exclusive
    · exact .stay _
    · exact .stay _
  | exchange =>
    simp only [Futex.exchange]
    split_ifs
    · exact .stay _
    · exact .acquire .exclusive
  | fetchSub =>
    simp only [Futex.fetchSub]
    split_ifs
    · exact .release .exclusive
    · exact .free .exclusive
  | futexWait | noWait | spurious | store => exact .stay _

variable {Θ : Type} [DecidableEq Θ]

/-- One step of this thread. -/
inductive StepOf (θ : Θ) : State Θ → State Θ → Prop where
  | move {s} (r : ℤ × Place) (h : Move (s.state_, s.places θ) r) :
      StepOf θ s ⟨r.1, update s.places θ r.2⟩
  | futexWake {s} (f) (h : s.places θ = .wake)
      (hf : Lib.NotifyOne awaken (update s.places θ .outside) f) : StepOf θ s ⟨s.state_, f⟩

theorem step_iff {s s' : State Θ} : Step s s' ↔ ∃ θ, StepOf θ s s' := by
  constructor
  · intro h
    cases h with
    | move θ r h => exact ⟨θ, .move r h⟩
    | futexWake θ f h hf => exact ⟨θ, .futexWake f h hf⟩
  · rintro ⟨θ, h⟩
    cases h with
    | move r h => exact .move θ r h
    | futexWake f h hf => exact .futexWake θ f h hf

/-- Who is woken waits as before. -/
theorem phase_of_notifyOne {f f' : Θ → Place} (h : Lib.NotifyOne awaken f f') (θ : Θ) :
    (f' θ).phase = (f θ).phase := by
  rcases h.apply θ with hsame | hwoken
  · rw [hsame]
  · obtain ⟨hbefore, hafter⟩ := eq_of_awaken hwoken
    rw [hbefore, hafter]
    rfl

/-- The mutex is a lock. -/
def lock (Θ : Type) [DecidableEq Θ] : Lib.Lock Θ where
  State := State Θ
  init := init
  Step := StepOf
  phase s θ := (s.places θ).phase
  Inv := Inv
  inv_init := inv_init
  inv_step {s s' θ} hinv hstep := inv_step hinv (step_iff.mpr ⟨θ, hstep⟩)
  outside _ := rfl
  next {s s' θ} _ hstep := by
    cases hstep with
    | move r hmove => simpa using hmove.next
    | futexWake f h hf =>
      rw [phase_of_notifyOne hf, h, update_self]
      exact .exit
  others {s s' θ θ'} hstep hne := by
    cases hstep with
    | move r hmove => simp [update_of_ne hne]
    | futexWake f h hf => rw [phase_of_notifyOne hf, update_of_ne hne]
  alone {s θ θ' m} hinv hθ hθ' :=
    hinv.one θ' θ (.inl (Place.of_phase hθ')) (.inl (Place.of_phase hθ))

variable {C O R D : Type} [DecidableEq C]

/-- **An object behind the mutex is linearizable.**  Its operations may consist of any number of
accesses, and any number of threads may call them; no two of them access the data at a time. -/
theorem mutex_guards (body : O → Lib.Body D R) (d : D) :
    Lib.Linearizable (fun d op ↦ (body op).run d) (Lib.Guarded.Step (lock Θ) (.exclusive body))
        (Lib.Guarded.init (lock Θ) C O R d) d ∧
      ∀ h s, Lib.Trace (Lib.Guarded.Step (lock Θ) (.exclusive body))
        (Lib.Guarded.init (lock Θ) C O R d) h s → Lib.Separate s :=
  Lib.exclusive_linearizable (lock Θ) body d

end Futex
end ManyTasks
