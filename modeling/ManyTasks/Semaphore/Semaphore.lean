import ManyTasks.Lib.Machine
import ManyTasks.Lib.Transition
import ManyTasks.Lib.Waiting
import Mathlib.Algebra.Order.Ring.Int

/-!
# A semaphore that serves in order

`Acquire` draws a number, `jobs_cnt_`, when it has taken the mutex.  It waits until `count_` is not
zero and its number is the one to be served, `executing_pos_`; then it runs its callback on `count_`
and makes the next number the one to be served.  `Release` adds one to `count_` and wakes everybody.
All of them are asleep on one condition variable.

The mutex is held from the drawing of the number to the sleep, and from the end of the sleep to the
next one or to the end of the call.  What is done under it is several steps here, so that it can be
said who does what at the same time.  A wait may also end without a notification.

`count_` is an `int`.  Nothing keeps `++count_` from leaving its range; here it wraps then.
-/

set_option autoImplicit false

namespace ManyTasks
namespace Semaphore

open Function (update update_self update_of_ne)

/-- What is done with `count_`: the new value, and whether it throws. -/
abbrev Callback : Type := ℤ → ℤ × Bool

/-- The callback of `Acquire()`, which counts down. -/
def countDown : Callback := fun value ↦ (Lib.wrap 32 (value - 1), false)

/-- Where a thread is. -/
inductive Place where
  | idle
  /-- In `Acquire`, before the mutex is taken. -/
  | acquiring (callback : Callback)
  /-- Before the wait looks at its condition. -/
  | testing (callback : Callback) (query_pos : ℕ)
  | asleep (callback : Callback) (query_pos : ℕ)
  /-- Woken, before the mutex is taken again. -/
  | awake (callback : Callback) (query_pos : ℕ)
  /-- In the callback. -/
  | executing (callback : Callback) (query_pos : ℕ)
  /-- Before `++executing_pos_`. -/
  | leaving (query_pos : ℕ)
  /-- In `Release`, before the mutex is taken. -/
  | releasing

/-- The semaphore and the threads. -/
structure State (Θ : Type) where
  count_ : ℤ
  executing_pos_ : ℕ
  jobs_cnt_ : ℕ
  /-- Who holds `mutex_`. -/
  mutex_ : Option Θ
  places : Θ → Place

variable {Θ : Type}

/-- The constructor. -/
def init (count : ℤ) : State Θ := ⟨count, 0, 0, none, fun _ ↦ .idle⟩

/-- What a step is. -/
inductive Label (Θ : Type) where
  | callAcquire (θ : Θ) (callback : Callback)
  | callRelease (θ : Θ)
  /-- `Acquire` has taken the mutex and has drawn its number. -/
  | enter (θ : Θ)
  | test (θ : Θ)
  | wakeUp (θ : Θ)
  | relock (θ : Θ)
  | callback (θ : Θ)
  /-- `Acquire` is complete. -/
  | acquired (θ : Θ)
  /-- `Release` is complete. -/
  | released (θ : Θ)

/-- The condition of the wait. -/
def State.ready (s : State Θ) (query_pos : ℕ) : Bool :=
  s.count_ != 0 && query_pos == s.executing_pos_

/-- Who is notified has to take the mutex again. -/
def awaken : Place → Option Place
  | .asleep callback query_pos => some (.awake callback query_pos)
  | _ => none

variable [DecidableEq Θ]

/-- One step of one thread. -/
inductive Step : State Θ → Label Θ → State Θ → Prop where
  | callAcquire {s} (θ callback) (h : s.places θ = .idle) :
      Step s (.callAcquire θ callback)
        { s with places := update s.places θ (.acquiring callback) }
  | callRelease {s} (θ) (h : s.places θ = .idle) :
      Step s (.callRelease θ) { s with places := update s.places θ .releasing }
  | enter {s} (θ callback) (h : s.places θ = .acquiring callback) (hm : s.mutex_ = none) :
      Step s (.enter θ)
        { s with jobs_cnt_ := s.jobs_cnt_ + 1, mutex_ := some θ,
                 places := update s.places θ (.testing callback s.jobs_cnt_) }
  | pass {s} (θ callback pos) (h : s.places θ = .testing callback pos) (hr : s.ready pos = true) :
      Step s (.test θ) { s with places := update s.places θ (.executing callback pos) }
  | sleep {s} (θ callback pos) (h : s.places θ = .testing callback pos) (hr : s.ready pos = false) :
      Step s (.test θ)
        { s with mutex_ := none, places := update s.places θ (.asleep callback pos) }
  /-- A wake-up without a reason. -/
  | spurious {s} (θ callback pos) (h : s.places θ = .asleep callback pos) :
      Step s (.wakeUp θ) { s with places := update s.places θ (.awake callback pos) }
  | relock {s} (θ callback pos) (h : s.places θ = .awake callback pos) (hm : s.mutex_ = none) :
      Step s (.relock θ)
        { s with mutex_ := some θ, places := update s.places θ (.testing callback pos) }
  | callback {s} (θ callback pos) (h : s.places θ = .executing callback pos)
      (hr : (callback s.count_).2 = false) :
      Step s (.callback θ)
        { s with count_ := (callback s.count_).1, places := update s.places θ (.leaving pos) }
  /-- The callback throws, so that `executing_pos_` stays. -/
  | throw {s} (θ callback pos) (h : s.places θ = .executing callback pos)
      (hr : (callback s.count_).2 = true) :
      Step s (.callback θ)
        { s with count_ := (callback s.count_).1, mutex_ := none,
                 places := update s.places θ .idle }
  | acquired {s} (θ pos) (h : s.places θ = .leaving pos) :
      Step s (.acquired θ)
        { s with executing_pos_ := s.executing_pos_ + 1, mutex_ := none,
                 places := update s.places θ .idle }
  | released {s} (θ) (h : s.places θ = .releasing) (hm : s.mutex_ = none) :
      Step s (.released θ)
        { s with count_ := Lib.wrap 32 (s.count_ + 1),
                 places := update (Lib.notifyAll awaken s.places) θ .idle }

end Semaphore
end ManyTasks
