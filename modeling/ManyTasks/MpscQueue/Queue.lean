import ManyTasks.Lib.Chain
import ManyTasks.Lib.Transition

/-!
# A queue with one consumer

The queue is a linked list of nodes in memory, from `head_` on.  Any thread may `Push`, which puts a
new node at the head by a `compare_exchange_weak` of `head_` and tries again if that fails, which it
may do without a reason.  `Pop` and `DequeueAll` are called by one thread only, the `consumer`: the
one takes the node at the head away, the other takes all of them.

Nothing protects the nodes.  The consumer deletes a node as soon as it has its value, and from then
on the address may be given to somebody else and hold anything (`Step.reuse`, `Step.allocate`).

The one null pointer that nobody tests is that of the second round of `Pop`, which goes on to
`old_head->next` whatever it has loaded; `Place.reading none` is a thread that is about to follow
it.
-/

set_option autoImplicit false

namespace ManyTasks
namespace MpscQueue

open Function (update)

/-- `MPSCQueue::Node`. -/
structure Node (A V : Type) where
  value : V
  next : Option A
deriving DecidableEq, Repr

/-- Where a thread is. -/
inductive Place (A V : Type) where
  | idle
  /-- Before `Node* old_head = head_` in `Push`. -/
  | pushing (value : V)
  /-- Before `new Node{std::move(value), old_head}`. -/
  | allocating (value : V) (old_head : Option A)
  /-- Before `head_.compare_exchange_weak(old_head, new_head)`. -/
  | pushExchange (value : V) (new_head : A) (old_head : Option A)
  /-- Before `old_head = head_` in the loop of `Push`. -/
  | reloading (value : V) (new_head : A)
  /-- Before `new_head->next = old_head`. -/
  | linking (value : V) (new_head : A) (old_head : Option A)
  /-- Before `Node* old_head = head_` in `Pop`. -/
  | popping
  /-- Before `old_head = head_` in the loop of `Pop`. -/
  | poppingAgain
  /-- Before `old_head->next` is read. -/
  | reading (old_head : Option A)
  /-- Before `head_.compare_exchange_weak(old_head, old_head->next)`. -/
  | popExchange (old_head : A) (next : Option A)
  /-- Before `res = std::move(old_head->value)`. -/
  | moving (old_head : A)
  /-- Before `delete old_head`. -/
  | deleting (old_head : A) (value : V)
  /-- Before `old_head = head_` in `DequeueAll`. -/
  | dequeuing
  /-- Before `head_.compare_exchange_weak(old_head, nullptr)`. -/
  | takeExchange (old_head : Option A)
  /-- At the test of `while (old_head)`. -/
  | walking (old_head : Option A)
  /-- Before `callback(std::move(node->value))`. -/
  | calling (node : A) (old_head : Option A)
  /-- Before `delete node`. -/
  | dropping (node : A) (old_head : Option A)
deriving DecidableEq, Repr

/-- The queue, the memory and the threads. -/
structure State (Θ A V : Type) where
  head_ : Option A
  nodes : A → Node A V
  /-- Is there a node at the address? -/
  allocated : A → Bool
  places : Θ → Place A V

variable {Θ A V : Type}

/-- The pointer in a node. -/
def State.next (s : State Θ A V) (a : A) : Option A := (s.nodes a).next

/-- The value in a node. -/
def State.value (s : State Θ A V) (a : A) : V := (s.nodes a).value

/-- An empty queue, and any memory. -/
def init (nodes : A → Node A V) : State Θ A V := ⟨none, nodes, fun _ ↦ false, fun _ ↦ .idle⟩

/-- What a step is. -/
inductive Label (Θ V : Type) where
  /-- `Push` has put its node at the head. -/
  | push (θ : Θ) (value : V)
  /-- `Pop` has taken the node at the head. -/
  | pop
  /-- `DequeueAll` has taken all nodes. -/
  | takeAll
  /-- `Pop` returns `std::nullopt`. -/
  | empty
  /-- `Pop` returns a value, or `DequeueAll` gives it to the callback. -/
  | deliver (value : V)
  /-- Any other step. -/
  | tau
deriving DecidableEq, Repr

variable [DecidableEq Θ] [DecidableEq A]

/-- A thread goes on to another place. -/
def State.go (s : State Θ A V) (θ : Θ) (p : Place A V) : State Θ A V :=
  { s with places := update s.places θ p }

/-- What is in a node changes. -/
def State.write (s : State Θ A V) (a : A) (n : Node A V) : State Θ A V :=
  { s with nodes := update s.nodes a n }

/-- An address is given out or given back. -/
def State.mark (s : State Θ A V) (a : A) (b : Bool) : State Θ A V :=
  { s with allocated := update s.allocated a b }

/-- One step. -/
inductive Step (consumer : Θ) : State Θ A V → Label Θ V → State Θ A V → Prop where
  | callPush {s} (θ value) (h : s.places θ = .idle) :
      Step consumer s .tau (s.go θ (.pushing value))
  | callPop {s} (h : s.places consumer = .idle) : Step consumer s .tau (s.go consumer .popping)
  | callDequeueAll {s} (h : s.places consumer = .idle) :
      Step consumer s .tau (s.go consumer .dequeuing)
  /-- `Node* old_head = head_` -/
  | pushLoad {s} (θ value) (h : s.places θ = .pushing value) :
      Step consumer s .tau (s.go θ (.allocating value s.head_))
  /-- `new Node{std::move(value), old_head}` -/
  | allocate {s} (θ value old_head a) (h : s.places θ = .allocating value old_head)
      (ha : s.allocated a = false) :
      Step consumer s .tau
        (((s.mark a true).write a ⟨value, old_head⟩).go θ (.pushExchange value a old_head))
  | push {s} (θ value a old_head) (h : s.places θ = .pushExchange value a old_head)
      (hhead : s.head_ = old_head) :
      Step consumer s (.push θ value) ({ s with head_ := some a }.go θ .idle)
  | pushFail {s} (θ value a old_head) (h : s.places θ = .pushExchange value a old_head) :
      Step consumer s .tau (s.go θ (.reloading value a))
  | reload {s} (θ value a) (h : s.places θ = .reloading value a) :
      Step consumer s .tau (s.go θ (.linking value a s.head_))
  /-- `new_head->next = old_head` -/
  | link {s} (θ value a old_head) (h : s.places θ = .linking value a old_head) :
      Step consumer s .tau
        ((s.write a ⟨s.value a, old_head⟩).go θ (.pushExchange value a old_head))
  | popLoad {s} (a) (h : s.places consumer = .popping) (hhead : s.head_ = some a) :
      Step consumer s .tau (s.go consumer (.reading (some a)))
  | empty {s} (h : s.places consumer = .popping) (hhead : s.head_ = none) :
      Step consumer s .empty (s.go consumer .idle)
  /-- There is no test for a null pointer here. -/
  | popReload {s} (h : s.places consumer = .poppingAgain) :
      Step consumer s .tau (s.go consumer (.reading s.head_))
  | read {s} (a) (h : s.places consumer = .reading (some a)) :
      Step consumer s .tau (s.go consumer (.popExchange a (s.next a)))
  | pop {s} (a next) (h : s.places consumer = .popExchange a next) (hhead : s.head_ = some a) :
      Step consumer s .pop ({ s with head_ := next }.go consumer (.moving a))
  | popFail {s} (a next) (h : s.places consumer = .popExchange a next) :
      Step consumer s .tau (s.go consumer .poppingAgain)
  /-- A value that has been moved from is anything. -/
  | move {s} (a left) (h : s.places consumer = .moving a) :
      Step consumer s .tau
        ((s.write a ⟨left, s.next a⟩).go consumer (.deleting a (s.value a)))
  /-- `delete old_head; return res` -/
  | delete {s} (a value) (h : s.places consumer = .deleting a value) :
      Step consumer s (.deliver value) ((s.mark a false).go consumer .idle)
  | takeLoad {s} (h : s.places consumer = .dequeuing) :
      Step consumer s .tau (s.go consumer (.takeExchange s.head_))
  | takeAll {s} (old_head) (h : s.places consumer = .takeExchange old_head)
      (hhead : s.head_ = old_head) :
      Step consumer s .takeAll ({ s with head_ := none }.go consumer (.walking old_head))
  | takeFail {s} (old_head) (h : s.places consumer = .takeExchange old_head) :
      Step consumer s .tau (s.go consumer .dequeuing)
  /-- `node = old_head; old_head = old_head->next` -/
  | walk {s} (a) (h : s.places consumer = .walking (some a)) :
      Step consumer s .tau (s.go consumer (.calling a (s.next a)))
  | callback {s} (a left old_head) (h : s.places consumer = .calling a old_head) :
      Step consumer s (.deliver (s.value a))
        ((s.write a ⟨left, s.next a⟩).go consumer (.dropping a old_head))
  | drop {s} (a old_head) (h : s.places consumer = .dropping a old_head) :
      Step consumer s .tau ((s.mark a false).go consumer (.walking old_head))
  | walkEnd {s} (h : s.places consumer = .walking none) :
      Step consumer s .tau (s.go consumer .idle)
  /-- Memory that is not allocated is used for something else. -/
  | reuse {s} (a n) (ha : s.allocated a = false) : Step consumer s .tau (s.write a n)

/-- The pointer that the next step of a thread follows: to read a node, to write to it or to delete
it. -/
def Place.follows : Place A V → Option (Option A)
  | .linking _ a _ | .moving a | .deleting a _ | .calling a _ | .dropping a _ => some (some a)
  | .reading old_head => some old_head
  | .walking (some a) => some (some a)
  | _ => none

end MpscQueue
end ManyTasks
