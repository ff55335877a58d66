import ManyTasks.Lib.Guarded

/-!
# A spinlock

`Lock` sets the flag until it was the one to set it, and `Unlock` clears it.  So the flag is set
just if some thread has the lock, and this is one thread (`Inv`).

* `spin_lock_guards`: an object whose operations run between `Lock` and `Unlock` is linearizable,
  and its data are accessed by one thread at a time.
-/

set_option autoImplicit false

namespace ManyTasks
namespace SpinLock

open Function (update update_self update_of_ne)

/-- Where a thread is. -/
inductive Place where
  | outside
  /-- In `Lock`, before `test_and_set`. -/
  | lock
  /-- `Lock` has returned. -/
  | owner
deriving DecidableEq, Repr

variable {Θ : Type}

/-- The flag and the threads. -/
structure State (Θ : Type) where
  atomic_lock_ : Bool
  places : Θ → Place

/-- The constructor. -/
def init : State Θ := ⟨false, fun _ ↦ .outside⟩

/-- What a thread can do: from a flag and a place to others.  After a `test_and_set` that returns
true it yields, and tries again. -/
inductive Move : Bool × Place → Bool × Place → Prop where
  | call (v) : Move (v, .outside) (v, .lock)
  | testAndSet (v) : Move (v, .lock) (true, if v then .lock else .owner)
  | clear (v) : Move (v, .owner) (false, .outside)

/-- The flag says whether somebody has the lock. -/
structure Inv (s : State Θ) : Prop where
  flag : s.atomic_lock_ = true ↔ ∃ θ, s.places θ = .owner
  one : ∀ θ θ', s.places θ = .owner → s.places θ' = .owner → θ = θ'

theorem inv_init : Inv (init : State Θ) where
  flag := by simp [init]
  one := by simp [init]

variable [DecidableEq Θ]

/-- One step of a thread. -/
inductive Step (θ : Θ) : State Θ → State Θ → Prop where
  | move {s} (r : Bool × Place) (h : Move (s.atomic_lock_, s.places θ) r) :
      Step θ s ⟨r.1, update s.places θ r.2⟩

/-- A thread goes to a place where it has the lock just if it has had it, or the flag was clear. -/
theorem Move.owns {v : Bool} {p : Place} {r : Bool × Place} (h : Move (v, p) r) :
    (r.1 = v ∧ p ≠ .owner ∧ r.2 ≠ .owner) ∨ (v = false ∧ r.1 = true ∧ r.2 = .owner) ∨
      (p = .owner ∧ r.1 = false ∧ r.2 ≠ .owner) := by
  cases h with
  | call => simp
  | testAndSet => cases v <;> simp
  | clear => simp

theorem inv_step {s s' : State Θ} {θ : Θ} (hinv : Inv s) (hstep : Step θ s s') : Inv s' := by
  obtain ⟨r, hmove⟩ := hstep
  have hplace (θ' : Θ) (hne : θ' ≠ θ) : update s.places θ r.2 θ' = s.places θ' :=
    update_of_ne hne _ _
  rcases hmove.owns with ⟨hflag, hbefore, hafter⟩ | ⟨hclear, hset, howner⟩ |
    ⟨howner, hclear, hafter⟩
  · -- the same threads have the lock as before
    have hsame (θ' : Θ) : update s.places θ r.2 θ' = .owner ↔ s.places θ' = .owner := by
      by_cases hne : θ' = θ
      · subst hne
        simp [hbefore, hafter]
      · rw [hplace θ' hne]
    refine ⟨?_, fun θ₁ θ₂ h₁ h₂ ↦ hinv.one θ₁ θ₂ ((hsame θ₁).mp h₁) ((hsame θ₂).mp h₂)⟩
    simp only [hflag, hinv.flag, hsame]
  · -- nobody else has it
    have hnobody (θ' : Θ) (hθ' : s.places θ' = .owner) : False := by
      have hset := hinv.flag.mpr ⟨θ', hθ'⟩
      rw [hclear] at hset
      cases hset
    have honly {θ' : Θ} (hθ' : update s.places θ r.2 θ' = .owner) : θ' = θ := by
      by_contra hne
      rw [hplace θ' hne] at hθ'
      exact hnobody θ' hθ'
    exact ⟨⟨fun _ ↦ ⟨θ, by simp [howner]⟩, fun _ ↦ hset⟩,
      fun θ₁ θ₂ h₁ h₂ ↦ (honly h₁).trans (honly h₂).symm⟩
  · -- the only thread gives it back
    have hnobody (θ' : Θ) : update s.places θ r.2 θ' ≠ .owner := by
      intro hθ'
      by_cases hne : θ' = θ
      · subst hne
        simp [hafter] at hθ'
      · rw [hplace θ' hne] at hθ'
        exact hne (hinv.one _ _ hθ' howner)
    refine ⟨?_, fun θ₁ θ₂ h₁ ↦ absurd h₁ (hnobody θ₁)⟩
    simp [hclear, hnobody]

/-! ## As a lock -/

/-- The phase of a thread. -/
def Place.phase : Place → Lib.Phase
  | .outside => .outside
  | .lock => .waiting .exclusive
  | .owner => .holding .exclusive

theorem Place.owner_of_phase {p : Place} {m : Lib.Mode} (h : p.phase = .holding m) :
    p = .owner := by
  cases p with
  | owner => rfl
  | _ => cases h

theorem Move.next {v : Bool} {p : Place} {r : Bool × Place} (h : Move (v, p) r) :
    p.phase.Next r.2.phase := by
  cases h with
  | call => exact .call .exclusive
  | testAndSet =>
    cases v with
    | true => exact .stay _
    | false => exact .acquire .exclusive
  | clear => exact .free .exclusive

/-- The spinlock is a lock. -/
def lock (Θ : Type) [DecidableEq Θ] : Lib.Lock Θ where
  State := State Θ
  init := init
  Step := Step
  phase s θ := (s.places θ).phase
  Inv := Inv
  inv_init := inv_init
  inv_step := inv_step
  outside _ := rfl
  next {s s' θ} _ hstep := by
    obtain ⟨r, hmove⟩ := hstep
    simpa using hmove.next
  others {s s' θ θ'} hstep hne := by
    obtain ⟨r, hmove⟩ := hstep
    simp [update_of_ne hne]
  alone {s θ θ' m} hinv hθ hθ' :=
    hinv.one θ' θ (Place.owner_of_phase hθ') (Place.owner_of_phase hθ)

variable {C O R D : Type} [DecidableEq C]

/-- **An object behind a spinlock is linearizable.**  Its operations may consist of any number of
accesses, and any number of threads may call them; no two of them access the data at a time. -/
theorem spin_lock_guards (body : O → Lib.Body D R) (d : D) :
    Lib.Linearizable (fun d op ↦ (body op).run d) (Lib.Guarded.Step (lock Θ) (.exclusive body))
        (Lib.Guarded.init (lock Θ) C O R d) d ∧
      ∀ h s, Lib.Trace (Lib.Guarded.Step (lock Θ) (.exclusive body))
        (Lib.Guarded.init (lock Θ) C O R d) h s → Lib.Separate s :=
  Lib.exclusive_linearizable (lock Θ) body d

end SpinLock
end ManyTasks
