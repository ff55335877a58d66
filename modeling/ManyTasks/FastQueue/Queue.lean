import ManyTasks.Lib.Transition
import Mathlib.Data.Nat.Notation
import Mathlib.Logic.Function.Basic

/-!
# A bounded queue for many threads

The queue is a ring of slots.  `Enqueue` takes a ticket by counting up `tail_`, `Dequeue` by
counting up `head_`, and the slot of a ticket is given by its last bits.  Every slot has a number
`generation`, which says what it is ready for: the value of ticket `t` may be written when it is
`t`, and read when it is `t + 1`; whoever has read it adds what is missing to `t + max_size_`, the
next ticket for the slot.

A call looks at the generation before it takes the ticket, and what it takes then may be another
ticket than the one it has looked for; then it has to look again.  The counters do not wrap here.

What is left in a slot by `std::move` is nothing, and so is what is in it at first.  A call is known
by an identifier of its own.
-/

set_option autoImplicit false

namespace ManyTasks
namespace FastQueue

open Function (update)

/-- Where a call is; in most places it has a ticket, or wants one. -/
inductive Place (V : Type) where
  | idle
  | enqueuing (value : V)
  /-- Before the generation is loaded and compared. -/
  | checkTail (value : V) (tail : ℕ)
  /-- Before `tail_.compare_exchange_weak`. -/
  | claimTail (value : V) (tail : ℕ)
  /-- Before `elem.value = value`. -/
  | writing (value : V) (tail : ℕ)
  /-- Before `elem.generation.fetch_add(1)`. -/
  | publishing (value : V) (tail : ℕ)
  /-- `Enqueue` has returned true. -/
  | enqueued (value : V) (tail : ℕ)
  /-- `Enqueue` has returned false. -/
  | full (value : V)
  | dequeuing
  | checkHead (head : ℕ)
  /-- Before `head_.compare_exchange_weak`. -/
  | claimHead (head : ℕ)
  /-- Before `data = std::move(elem.value)`. -/
  | reading (head : ℕ)
  /-- Before `elem.generation.fetch_add(bit_mask_)`. -/
  | freeing (head : ℕ) (data : Option V)
  /-- `Dequeue` has returned true. -/
  | dequeued (head : ℕ) (data : Option V)
  /-- `Dequeue` has returned false. -/
  | empty
deriving DecidableEq, Repr

/-- The queue and the calls. -/
structure State (C V : Type) where
  max_size_ : ℕ
  head_ : ℕ
  tail_ : ℕ
  /-- Of every slot. -/
  generation : ℕ → ℕ
  value : ℕ → Option V
  places : C → Place V

variable {C V : Type}

/-- The constructor. -/
def init (size : ℕ) : State C V := ⟨size, 0, 0, fun i ↦ i, fun _ ↦ none, fun _ ↦ .idle⟩

def State.bit_mask_ (s : State C V) : ℕ := s.max_size_ - 1

/-- The slot of a ticket. -/
def State.index (s : State C V) (ticket : ℕ) : ℕ := ticket &&& s.bit_mask_

/-- What `Enqueue` makes of the generation. -/
def State.checkTail (s : State C V) (value : V) (tail : ℕ) : Place V :=
  if s.generation (s.index tail) + s.bit_mask_ ≤ tail then .full value else .claimTail value tail

/-- What `Dequeue` makes of the generation. -/
def State.checkHead (s : State C V) (head : ℕ) : Place V :=
  if s.generation (s.index head) < head + 1 then .empty else .claimHead head

variable [DecidableEq C]

/-- One step of one call. -/
inductive Step : State C V → C → State C V → Prop where
  | callEnqueue {s} (c value) (h : s.places c = .idle) :
      Step s c { s with places := update s.places c (.enqueuing value) }
  | loadTail {s} (c value) (h : s.places c = .enqueuing value) :
      Step s c { s with places := update s.places c (.checkTail value s.tail_) }
  | checkTail {s} (c value tail) (h : s.places c = .checkTail value tail) :
      Step s c { s with places := update s.places c (s.checkTail value tail) }
  | claimTail {s} (c value) (h : s.places c = .claimTail value s.tail_) :
      Step s c { s with tail_ := s.tail_ + 1, places := update s.places c (.writing value s.tail_) }
  /-- The exchange fails, because `tail_` has changed or for no reason. -/
  | missTail {s} (c value tail) (h : s.places c = .claimTail value tail) :
      Step s c { s with places := update s.places c (.checkTail value s.tail_) }
  | write {s} (c value tail) (h : s.places c = .writing value tail) :
      Step s c { s with
        value := update s.value (s.index tail) (some value),
        places := update s.places c (.publishing value tail) }
  | publish {s} (c value tail) (h : s.places c = .publishing value tail) :
      Step s c { s with
        generation := update s.generation (s.index tail) (s.generation (s.index tail) + 1),
        places := update s.places c (.enqueued value tail) }
  | callDequeue {s} (c) (h : s.places c = .idle) :
      Step s c { s with places := update s.places c .dequeuing }
  | loadHead {s} (c) (h : s.places c = .dequeuing) :
      Step s c { s with places := update s.places c (.checkHead s.head_) }
  | checkHead {s} (c head) (h : s.places c = .checkHead head) :
      Step s c { s with places := update s.places c (s.checkHead head) }
  | claimHead {s} (c) (h : s.places c = .claimHead s.head_) :
      Step s c { s with head_ := s.head_ + 1, places := update s.places c (.reading s.head_) }
  | missHead {s} (c head) (h : s.places c = .claimHead head) :
      Step s c { s with places := update s.places c (.checkHead s.head_) }
  | read {s} (c head) (h : s.places c = .reading head) :
      Step s c { s with
        value := update s.value (s.index head) none,
        places := update s.places c (.freeing head (s.value (s.index head))) }
  | free {s} (c head data) (h : s.places c = .freeing head data) :
      Step s c { s with
        generation :=
          update s.generation (s.index head) (s.generation (s.index head) + s.bit_mask_),
        places := update s.places c (.dequeued head data) }

/-- A step of any call. -/
def AnyStep (s s' : State C V) : Prop := ∃ c, Step s c s'

end FastQueue
end ManyTasks
