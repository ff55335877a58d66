import ManyTasks.Lib.Transition
import ManyTasks.Lib.Waiting

/-!
# A lock for readers and writers

`Read` waits until there is no writer, `Write` until there is neither a reader nor a writer; then
they run their callback, and `EndRead` or `EndWrite` after it, whether it returned or threw.  The
lock counts who is inside, and who is blocked, from the beginning of the call until the wait is
over.

At the end somebody may have to be woken.  `EndRead` wakes a writer, if it was the last reader.
`EndWrite` wakes all readers, if many more readers than writers are blocked, and a writer otherwise.
Who is blocked need not be asleep: a thread that has been notified, or that wakes up without a
reason, still has to take the mutex again and to look whether it may go on, and others may come
before.

Everything under the mutex is one step.
-/

set_option autoImplicit false

namespace ManyTasks
namespace RwLock

open Function (update)

inductive Kind where
  | read
  | write
deriving DecidableEq, Repr

/-- Where a thread is. -/
inductive Place where
  | idle
  /-- The call has begun; the mutex is not taken yet. -/
  | called (k : Kind)
  /-- In the wait, asleep or not. -/
  | waiting (k : Kind) (awake : Bool)
  /-- In the callback. -/
  | running (k : Kind)
  /-- The callback has returned or has thrown; `EndRead` or `EndWrite` is next. -/
  | ending (k : Kind) (threw : Bool)
deriving DecidableEq, Repr

/-- What the mutex protects. -/
structure Counts where
  readers_cnt_ : ℕ
  writers_cnt_ : ℕ
  blocked_readers_cnt_ : ℕ
  blocked_writers_cnt_ : ℕ
deriving DecidableEq, Repr

/-- The lock and the threads. -/
structure State (Θ : Type) where
  counts : Counts
  places : Θ → Place

variable {Θ : Type}

def init : State Θ := ⟨⟨0, 0, 0, 0⟩, fun _ ↦ .idle⟩

/-! ## What is done under the mutex -/

/-- The condition of the wait. -/
def Counts.canPass (c : Counts) : Kind → Bool
  | .read => c.writers_cnt_ == 0
  | .write => c.readers_cnt_ == 0 && c.writers_cnt_ == 0

/-- Before the wait. -/
def Counts.block (c : Counts) : Kind → Counts
  | .read => { c with blocked_readers_cnt_ := c.blocked_readers_cnt_ + 1 }
  | .write => { c with blocked_writers_cnt_ := c.blocked_writers_cnt_ + 1 }

/-- After the wait. -/
def Counts.pass (c : Counts) : Kind → Counts
  | .read => { c with
    blocked_readers_cnt_ := c.blocked_readers_cnt_ - 1,
    readers_cnt_ := c.readers_cnt_ + 1 }
  | .write => { c with
    blocked_writers_cnt_ := c.blocked_writers_cnt_ - 1,
    writers_cnt_ := c.writers_cnt_ + 1 }

/-- One look at the condition. -/
def Counts.test (c : Counts) (k : Kind) : Counts × Place :=
  if c.canPass k then (c.pass k, .running k) else (c, .waiting k false)

/-- Who is to be notified. -/
inductive Notify where
  | nobody
  /-- `can_write_.notify_one()`. -/
  | writer
  /-- `can_read_.notify_all()`. -/
  | readers
deriving DecidableEq, Repr

def Counts.endRead (c : Counts) : Counts × Notify :=
  let c' := { c with readers_cnt_ := c.readers_cnt_ - 1 }
  (c', if c'.readers_cnt_ = 0 ∧ c'.blocked_writers_cnt_ ≠ 0 then .writer else .nobody)

def Counts.endWrite (c : Counts) : Counts × Notify :=
  let c' := { c with writers_cnt_ := c.writers_cnt_ - 1 }
  (c', if c'.blocked_readers_cnt_ > 3 * c'.blocked_writers_cnt_ then .readers
    else if c'.blocked_writers_cnt_ ≠ 0 then .writer else .nobody)

def Counts.end (c : Counts) : Kind → Counts × Notify
  | .read => c.endRead
  | .write => c.endWrite

/-- Who sleeps in the wait has to take the mutex again. -/
def awaken (k : Kind) : Place → Option Place
  | .waiting k' false => if k' = k then some (.waiting k' true) else none
  | _ => none

/-! ## The steps -/

variable [DecidableEq Θ]

/-- The places after a notification. -/
def Notified (f f' : Θ → Place) : Notify → Prop
  | .nobody => f' = f
  | .writer => Lib.NotifyOne (awaken .write) f f'
  | .readers => f' = Lib.notifyAll (awaken .read) f

/-- One step of one thread. -/
inductive Step : State Θ → State Θ → Prop where
  | call {s} (θ k) (h : s.places θ = .idle) : Step s ⟨s.counts, update s.places θ (.called k)⟩
  /-- The first critical section, up to the wait or through it. -/
  | enter {s} (θ k) (h : s.places θ = .called k) :
      Step s ⟨((s.counts.block k).test k).1, update s.places θ ((s.counts.block k).test k).2⟩
  /-- The wait looks at its condition again. -/
  | recheck {s} (θ k) (h : s.places θ = .waiting k true) :
      Step s ⟨(s.counts.test k).1, update s.places θ (s.counts.test k).2⟩
  /-- A wake-up without a reason. -/
  | spurious {s} (θ k) (h : s.places θ = .waiting k false) :
      Step s ⟨s.counts, update s.places θ (.waiting k true)⟩
  /-- The callback returns or throws. -/
  | callback {s} (θ k threw) (h : s.places θ = .running k) :
      Step s ⟨s.counts, update s.places θ (.ending k threw)⟩
  /-- `EndRead` or `EndWrite`. -/
  | finish {s} (θ k threw f) (h : s.places θ = .ending k threw)
      (hf : Notified (update s.places θ .idle) f (s.counts.end k).2) :
      Step s ⟨(s.counts.end k).1, f⟩

end RwLock
end ManyTasks
