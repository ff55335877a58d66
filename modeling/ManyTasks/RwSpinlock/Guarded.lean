import ManyTasks.Lib.Guarded
import ManyTasks.RwSpinlock.Lock

/-!
# What the spinlock for readers and writers is good for

Operations that only read run between `LockRead` and `UnlockRead`, several at a time, and the others
between `LockWrite` and `UnlockWrite`.

* `rw_spin_lock_guards`: the object is linearizable, as if every operation were one step, and no
  operation accesses the data while another one may write them.
-/

set_option autoImplicit false

namespace ManyTasks
namespace RwSpinlock

open Function (update update_self update_of_ne)

/-- The phase of a thread.  In `UnlockRead` it is still counted as a reader, but it is done with the
data. -/
def Place.phase : Place → Lib.Phase
  | .outside => .outside
  | .lockRead _ => .waiting .shared
  | .reading => .holding .shared
  | .unlockRead _ => .leaving
  | .lockWrite _ => .waiting .exclusive
  | .writing => .holding .exclusive

theorem Place.of_phase_exclusive {p : Place} (h : p.phase = .holding .exclusive) :
    p.writes = true := by
  cases p with
  | writing => rfl
  | _ => cases h

theorem Place.of_phase_holding {p : Place} {m : Lib.Mode} (h : p.phase = .holding m) :
    p.reads = true ∨ p.writes = true := by
  cases p with
  | reading => exact .inl rfl
  | writing => exact .inr rfl
  | _ => cases h

theorem Move.next {v : UInt32} {p : Place} {r : UInt32 × Place} (h : Move (v, p) r) :
    p.phase.Next r.2.phase := by
  cases h with
  | callLockRead => exact .call .shared
  | lockRead => exact .acquire .shared
  | callUnlockRead => exact .release .shared
  | unlockRead => exact .exit
  | callLockWrite => exact .call .exclusive
  | lockWrite => exact .acquire .exclusive
  | unlockWrite => exact .free .exclusive
  | lockReadFails | unlockReadFails | lockWriteFails => exact .stay _

variable {Θ : Type} [DecidableEq Θ]

/-- One step of this thread. -/
inductive StepOf (θ : Θ) : State Θ → State Θ → Prop where
  | move {s} (r : UInt32 × Place) (h : Move (s.rw_lock_, s.places θ) r) :
      StepOf θ s ⟨r.1, update s.places θ r.2⟩

theorem step_iff {s s' : State Θ} : Step s s' ↔ ∃ θ, StepOf θ s s' := by
  constructor
  · rintro ⟨θ, r, h⟩
    exact ⟨θ, .move r h⟩
  · rintro ⟨θ, r, h⟩
    exact .move θ r h

omit [DecidableEq Θ] in
/-- A writer is alone. -/
theorem Inv.only {s : State Θ} {n m : ℕ} (hinv : Inv s n m) {θ θ' : Θ} {k : Lib.Mode}
    (hθ : (s.places θ).phase = .holding .exclusive) (hθ' : (s.places θ').phase = .holding k) :
    θ' = θ := by
  have hwrites := Place.of_phase_exclusive hθ
  have hpos := hinv.writers.pos hwrites
  have hone := hinv.one
  obtain rfl : n = 0 := hinv.alone (by omega)
  rcases Place.of_phase_holding hθ' with hreads' | hwrites'
  · exact absurd (hinv.readers.pos hreads') (Nat.lt_irrefl 0)
  · exact hinv.writers.unique hone hwrites' hwrites

/-- The spinlock is a lock, for fewer than 2^31 threads. -/
def lock (Θ : Type) [DecidableEq Θ] [Fintype Θ] (hthreads : Fintype.card Θ < 2 ^ 31) :
    Lib.Lock Θ where
  State := State Θ
  init := init
  Step := StepOf
  phase s θ := (s.places θ).phase
  Inv s := ∃ n m, Inv s n m
  inv_init := ⟨0, 0, inv_init⟩
  inv_step {s s' θ} hinv hstep := by
    obtain ⟨n, m, hinv⟩ := hinv
    exact inv_step hthreads hinv (step_iff.mpr ⟨θ, hstep⟩)
  outside _ := rfl
  next {s s' θ} _ hstep := by
    obtain ⟨r, hmove⟩ := hstep
    simpa using hmove.next
  others {s s' θ θ'} hstep hne := by
    obtain ⟨r, hmove⟩ := hstep
    simp [update_of_ne hne]
  alone {s θ θ' k} hinv hθ hθ' := by
    obtain ⟨n, m, hinv⟩ := hinv
    exact hinv.only hθ hθ'

variable {C O R D : Type} [DecidableEq C]

/-- **An object behind the spinlock is linearizable**, whatever its operations do, if those that
share the lock only read; and no operation accesses the data while another one holds the lock that
may write. -/
theorem rw_spin_lock_guards [Fintype Θ] (hthreads : Fintype.card Θ < 2 ^ 31)
    (obj : Lib.Object D O R) (d : D) :
    Lib.Linearizable obj.apply (Lib.Guarded.Step (lock Θ hthreads) obj)
        (Lib.Guarded.init (lock Θ hthreads) C O R d) d ∧
      ∀ h s, Lib.Trace (Lib.Guarded.Step (lock Θ hthreads) obj)
        (Lib.Guarded.init (lock Θ hthreads) C O R d) h s → Lib.RaceFree obj s :=
  Lib.guarded_linearizable (lock Θ hthreads) obj d

/-- A counter.  To add one, a thread reads it first and writes it then. -/
def counter : Lib.Object ℕ Lib.Mode ℕ where
  mode op := op
  body
    | .shared => .access (fun n ↦ n) fun n ↦ .ret n
    | .exclusive => .access (fun n ↦ n) fun n ↦ .access (fun _ ↦ n + 1) fun _ ↦ .ret n
  reads op h := by
    cases op with
    | shared => exact ⟨fun _ ↦ rfl, fun _ ↦ trivial⟩
    | exclusive => cases h

/-- Two threads use a counter. -/
theorem rw_spin_lock_guards_two :
    Lib.Linearizable counter.apply (Lib.Guarded.Step (lock (Fin 2) (by decide)) counter)
        (Lib.Guarded.init (lock (Fin 2) (by decide)) ℕ Lib.Mode ℕ 0) 0 ∧
      ∀ h s, Lib.Trace (Lib.Guarded.Step (lock (Fin 2) (by decide)) counter)
        (Lib.Guarded.init (lock (Fin 2) (by decide)) ℕ Lib.Mode ℕ 0) h s → Lib.RaceFree counter s :=
  rw_spin_lock_guards (by decide) counter 0

end RwSpinlock
end ManyTasks
