import ManyTasks.Lib.Guarded
import ManyTasks.RwLock.Invariant

/-!
# What the callbacks of `Read` and `Write` see

The callbacks of `Read` only read some data, and those of `Write` may write them.

* `rw_lock_guards`: seen from outside, every callback runs in one step, although it consists of many
  accesses and others run at the same time; and a callback of `Write` has the data for itself.
-/

set_option autoImplicit false

namespace ManyTasks
namespace RwLock

open Function (update update_self update_of_ne)

/-- How the lock is held. -/
def Kind.mode : Kind → Lib.Mode
  | .read => .shared
  | .write => .exclusive

/-- The phase of a thread. -/
def Place.phase : Place → Lib.Phase
  | .idle => .outside
  | .called k | .waiting k _ => .waiting k.mode
  | .running k => .holding k.mode
  | .ending _ _ => .leaving

theorem Place.of_phase {p : Place} {m : Lib.Mode} (h : p.phase = .holding m) :
    ∃ k, p = .running k ∧ k.mode = m := by
  cases p with
  | running k => exact ⟨k, rfl, by simpa [Place.phase] using h⟩
  | _ => cases h

/-- A look at the condition lets the thread through, or not. -/
theorem next_test (c : Counts) (k : Kind) : (Lib.Phase.waiting k.mode).Next (c.test k).2.phase := by
  rw [Counts.test]
  split_ifs
  · exact .acquire k.mode
  · exact .stay _

variable {Θ : Type} [DecidableEq Θ]

/-- One step of this thread. -/
inductive StepOf (θ : Θ) : State Θ → State Θ → Prop where
  | call {s} (k) (h : s.places θ = .idle) : StepOf θ s ⟨s.counts, update s.places θ (.called k)⟩
  | enter {s} (k) (h : s.places θ = .called k) :
      StepOf θ s ⟨((s.counts.block k).test k).1, update s.places θ ((s.counts.block k).test k).2⟩
  | recheck {s} (k) (h : s.places θ = .waiting k true) :
      StepOf θ s ⟨(s.counts.test k).1, update s.places θ (s.counts.test k).2⟩
  | spurious {s} (k) (h : s.places θ = .waiting k false) :
      StepOf θ s ⟨s.counts, update s.places θ (.waiting k true)⟩
  | callback {s} (k threw) (h : s.places θ = .running k) :
      StepOf θ s ⟨s.counts, update s.places θ (.ending k threw)⟩
  | finish {s} (k threw f) (h : s.places θ = .ending k threw)
      (hf : Notified (update s.places θ .idle) f (s.counts.end k).2) :
      StepOf θ s ⟨(s.counts.end k).1, f⟩

theorem step_iff {s s' : State Θ} : Step s s' ↔ ∃ θ, StepOf θ s s' := by
  constructor
  · intro h
    cases h with
    | call θ k h => exact ⟨θ, .call k h⟩
    | enter θ k h => exact ⟨θ, .enter k h⟩
    | recheck θ k h => exact ⟨θ, .recheck k h⟩
    | spurious θ k h => exact ⟨θ, .spurious k h⟩
    | callback θ k threw h => exact ⟨θ, .callback k threw h⟩
    | finish θ k threw f h hf => exact ⟨θ, .finish k threw f h hf⟩
  · rintro ⟨θ, h⟩
    cases h with
    | call k h => exact .call θ k h
    | enter k h => exact .enter θ k h
    | recheck k h => exact .recheck θ k h
    | spurious k h => exact .spurious θ k h
    | callback k threw h => exact .callback θ k threw h
    | finish k threw f h hf => exact .finish θ k threw f h hf

/-- Who is woken waits as before. -/
theorem Notified.phase {f f' : Θ → Place} {n : Notify} (h : Notified f f' n) (θ : Θ) :
    (f' θ).phase = (f θ).phase := by
  rcases h.apply θ with hsame | ⟨k, hbefore, hafter⟩
  · rw [hsame]
  · rw [hbefore, hafter]
    rfl

theorem StepOf.next {s s' : State Θ} {θ : Θ} (h : StepOf θ s s') :
    (s.places θ).phase.Next (s'.places θ).phase := by
  cases h with
  | call k h =>
    simp only [update_self, h]
    exact .call k.mode
  | enter k h =>
    simp only [update_self, h]
    exact next_test _ k
  | recheck k h =>
    simp only [update_self, h]
    exact next_test _ k
  | spurious k h =>
    simp only [update_self, h]
    exact .stay _
  | callback k threw h =>
    simp only [update_self, h]
    exact .release k.mode
  | finish k threw f h hf =>
    rw [hf.phase, update_self, h]
    exact .exit

omit [DecidableEq Θ] in
/-- Who runs the callback of `Write` is the only one to run any. -/
theorem Inv.only {s : State Θ} (hinv : Inv s) {θ θ' : Θ} {k : Kind}
    (hθ : s.places θ = .running .write) (hθ' : s.places θ' = .running k) : θ' = θ := by
  have hin : (s.places θ).inside .write = true := by simp [hθ, Place.inside]
  have hin' : (s.places θ').inside k = true := by simp [hθ', Place.inside]
  have hpos := (hinv.tallied.inside .write).pos hin
  have hpos' := (hinv.tallied.inside k).pos hin'
  have hexcl := hinv.exclusive
  simp only [Counts.Exclusive, Counts.inside] at hexcl hpos
  cases k with
  | read =>
    simp only [Counts.inside] at hpos'
    omega
  | write =>
    exact (hinv.tallied.inside .write).unique (by simp only [Counts.inside]; omega) hin' hin

/-- `RWLock` is a lock. -/
def lock (Θ : Type) [DecidableEq Θ] : Lib.Lock Θ where
  State := State Θ
  init := init
  Step := StepOf
  phase s θ := (s.places θ).phase
  Inv := Inv
  inv_init := inv_init
  inv_step {s s' θ} hinv hstep := inv_step hinv (step_iff.mpr ⟨θ, hstep⟩)
  outside _ := rfl
  next _ hstep := hstep.next
  others {s s' θ θ'} hstep hne := by
    cases hstep with
    | finish k threw f h hf => rw [hf.phase, update_of_ne hne]
    | _ => simp [update_of_ne hne]
  alone {s θ θ' m} hinv hθ hθ' := by
    obtain ⟨k, hθ, hk⟩ := Place.of_phase hθ
    obtain ⟨k', hθ', -⟩ := Place.of_phase hθ'
    obtain rfl : k = .write := by
      cases k with
      | read => cases hk
      | write => rfl
    exact hinv.only hθ hθ'

variable {C O R D : Type} [DecidableEq C]

/-- **The callbacks are atomic.**  Seen from outside, each callback of `Read` and `Write` runs in
one step, if those of `Read` do not write; and while a callback of `Write` runs, no other one
does. -/
theorem rw_lock_guards (obj : Lib.Object D O R) (d : D) :
    Lib.Linearizable obj.apply (Lib.Guarded.Step (lock Θ) obj)
        (Lib.Guarded.init (lock Θ) C O R d) d ∧
      ∀ h s, Lib.Trace (Lib.Guarded.Step (lock Θ) obj) (Lib.Guarded.init (lock Θ) C O R d) h s →
        Lib.RaceFree obj s :=
  Lib.guarded_linearizable (lock Θ) obj d

end RwLock
end ManyTasks
