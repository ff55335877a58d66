import ManyTasks.Lib.Chain
import ManyTasks.Lib.Transition

/-!
# A stack without locks

The stack is a linked list of nodes in memory, from `head_` on.  `Push` allocates a node and puts it
at the head, `Pop` takes the node at the head away, `Clear` takes all of them.  Each does so by a
`compare_exchange_weak` of `head_`, and tries again if that fails, which it may do without a reason.

`Pop` has to read `next` of a node that others may have taken away in the meantime.  It gets the
node from `Acquire`, and what is promised of it is that the node is not freed until `Release`;
`Retire` hands a node over to be freed at any time after that (`Step.free`).  What memory that is
not allocated holds is anything, and so is what `std::move` leaves in a node.

A call is known by an identifier of its own.
-/

set_option autoImplicit false

namespace ManyTasks
namespace LockFreeStack

open Function (update)

structure Node (A V : Type) where
  value : V
  next : Option A
deriving DecidableEq, Repr

/-- What an address is used for. -/
inductive Status where
  | free
  | allocated
  | retired
deriving DecidableEq, Repr

/-- Where a call is. -/
inductive Place (A V : Type) where
  | idle
  | pushing (value : V)
  /-- Before the node is allocated. -/
  | allocating (value : V) (old_head : Option A)
  /-- Before `head_.compare_exchange_weak(old_head, new_head)`. -/
  | pushExchange (value : V) (new_head : A) (old_head : Option A)
  /-- Before `new_head->next = old_head`. -/
  | linking (value : V) (new_head : A) (old_head : Option A)
  | pushed
  /-- Before `Acquire(&head_)`. -/
  | popping
  /-- In `Acquire`, which has loaded this. -/
  | acquiring (value : Option A)
  /-- Before `old_head->next` is read. -/
  | reading (old_head : A)
  /-- Before `head_.compare_exchange_weak(old_head, old_head->next)`. -/
  | popExchange (old_head : A) (next : Option A)
  /-- Before `*value = std::move(old_head->value)`. -/
  | moving (old_head : A)
  /-- Before `Release()`. -/
  | releasing (old_head : A) (value : V)
  /-- Before `Retire(old_head)`. -/
  | retiring (old_head : A) (value : V)
  /-- `Pop` has returned true. -/
  | popped (value : V)
  /-- `Pop` has returned false. -/
  | empty
  /-- Before `head_` is loaded by `Clear`. -/
  | clearing
  /-- Before `head_.compare_exchange_weak(old_head, nullptr)`. -/
  | clearExchange (old_head : Option A)
  /-- In the loop over the nodes that `Clear` has taken. -/
  | walking (old_head : Option A)
  /-- Before `Retire(node)`. -/
  | dropping (node : A) (old_head : Option A)
  | cleared
deriving DecidableEq, Repr

/-- The stack, the memory and the calls. -/
structure State (C A V : Type) where
  head_ : Option A
  nodes : A → Node A V
  status : A → Status
  places : C → Place A V

variable {C A V : Type}

/-- The pointer in a node. -/
def State.next (s : State C A V) (a : A) : Option A := (s.nodes a).next

/-- The value in a node. -/
def State.value (s : State C A V) (a : A) : V := (s.nodes a).value

/-- An empty stack, and any memory. -/
def init (nodes : A → Node A V) : State C A V := ⟨none, nodes, fun _ ↦ .free, fun _ ↦ .idle⟩

/-- What `Acquire` has returned, and has not been released. -/
def Place.protects : Place A V → Option A
  | .reading a | .popExchange a _ | .moving a | .releasing a _ => some a
  | _ => none

/-- What a step is, and whose. -/
inductive Label (C A V : Type) where
  /-- `Push` has put its node at the head. -/
  | push (c : C) (value : V)
  /-- `Pop` has taken the node at the head. -/
  | pop (c : C)
  /-- `Clear` has taken all nodes. -/
  | clear (c : C)
  /-- `Pop` returns false. -/
  | empty (c : C)
  /-- `Pop` returns true. -/
  | popped (c : C) (value : V)
  /-- `Clear` retires a node with this value. -/
  | cleared (c : C) (value : V)
  /-- Any other step of a call. -/
  | tau (c : C)
  /-- A node is freed. -/
  | free (a : A)

variable [DecidableEq C] [DecidableEq A]

/-- A call goes on to another place. -/
def State.go (s : State C A V) (c : C) (p : Place A V) : State C A V :=
  { s with places := update s.places c p }

/-- What is in a node changes. -/
def State.write (s : State C A V) (a : A) (n : Node A V) : State C A V :=
  { s with nodes := update s.nodes a n }

/-- What an address is used for changes. -/
def State.mark (s : State C A V) (a : A) (status : Status) : State C A V :=
  { s with status := update s.status a status }

/-- One step. -/
inductive Step : State C A V → Label C A V → State C A V → Prop where
  | callPush {s} (c value) (h : s.places c = .idle) : Step s (.tau c) (s.go c (.pushing value))
  | callPop {s} (c) (h : s.places c = .idle) : Step s (.tau c) (s.go c .popping)
  | callClear {s} (c) (h : s.places c = .idle) : Step s (.tau c) (s.go c .clearing)
  /-- `Node* old_head = head_` -/
  | pushLoad {s} (c value) (h : s.places c = .pushing value) :
      Step s (.tau c) (s.go c (.allocating value s.head_))
  /-- `new Node{value, old_head}` -/
  | allocate {s} (c value old_head a) (h : s.places c = .allocating value old_head)
      (ha : s.status a = .free) :
      Step s (.tau c)
        (((s.mark a .allocated).write a ⟨value, old_head⟩).go c (.pushExchange value a old_head))
  | push {s} (c value a old_head) (h : s.places c = .pushExchange value a old_head)
      (hhead : s.head_ = old_head) :
      Step s (.push c value) ({ s with head_ := some a }.go c .pushed)
  /-- The exchange fails, and loads `head_` into `old_head`. -/
  | pushFail {s} (c value a old_head) (h : s.places c = .pushExchange value a old_head) :
      Step s (.tau c) (s.go c (.linking value a s.head_))
  /-- `new_head->next = old_head` -/
  | link {s} (c value a old_head) (h : s.places c = .linking value a old_head) :
      Step s (.tau c)
        ((s.write a ⟨s.value a, old_head⟩).go c (.pushExchange value a old_head))
  /-- The first load of `Acquire`. -/
  | acquireLoad {s} (c) (h : s.places c = .popping) : Step s (.tau c) (s.go c (.acquiring s.head_))
  /-- The second load of `Acquire` finds another pointer. -/
  | acquireAgain {s} (c value) (h : s.places c = .acquiring value) (hhead : s.head_ ≠ value) :
      Step s (.tau c) (s.go c (.acquiring s.head_))
  | acquired {s} (c a) (h : s.places c = .acquiring (some a)) (hhead : s.head_ = some a) :
      Step s (.tau c) (s.go c (.reading a))
  | empty {s} (c) (h : s.places c = .acquiring none) (hhead : s.head_ = none) :
      Step s (.empty c) (s.go c .empty)
  | read {s} (c a) (h : s.places c = .reading a) :
      Step s (.tau c) (s.go c (.popExchange a (s.next a)))
  | pop {s} (c a next) (h : s.places c = .popExchange a next) (hhead : s.head_ = some a) :
      Step s (.pop c) ({ s with head_ := next }.go c (.moving a))
  | popFail {s} (c a next) (h : s.places c = .popExchange a next) :
      Step s (.tau c) (s.go c .popping)
  | move {s} (c a left) (h : s.places c = .moving a) :
      Step s (.tau c) ((s.write a ⟨left, s.next a⟩).go c (.releasing a (s.value a)))
  | release {s} (c a value) (h : s.places c = .releasing a value) :
      Step s (.tau c) (s.go c (.retiring a value))
  | retire {s} (c a value) (h : s.places c = .retiring a value) :
      Step s (.popped c value) ((s.mark a .retired).go c (.popped value))
  | clearLoad {s} (c) (h : s.places c = .clearing) :
      Step s (.tau c) (s.go c (.clearExchange s.head_))
  | clear {s} (c old_head) (h : s.places c = .clearExchange old_head) (hhead : s.head_ = old_head) :
      Step s (.clear c) ({ s with head_ := none }.go c (.walking old_head))
  | clearFail {s} (c old_head) (h : s.places c = .clearExchange old_head) :
      Step s (.tau c) (s.go c .clearing)
  /-- `node = old_head; old_head = old_head->next` -/
  | walk {s} (c a) (h : s.places c = .walking (some a)) :
      Step s (.tau c) (s.go c (.dropping a (s.next a)))
  | drop {s} (c a old_head) (h : s.places c = .dropping a old_head) :
      Step s (.cleared c (s.value a)) ((s.mark a .retired).go c (.walking old_head))
  | clearEnd {s} (c) (h : s.places c = .walking none) : Step s (.tau c) (s.go c .cleared)
  /-- The deleter is run, and what is left there is anything. -/
  | free {s} (a n) (ha : s.status a = .retired) (hprotected : ∀ c, (s.places c).protects ≠ some a) :
      Step s (.free a) ((s.mark a .free).write a n)

end LockFreeStack
end ManyTasks
