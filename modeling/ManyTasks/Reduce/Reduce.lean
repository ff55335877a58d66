import ManyTasks.Lib.Reduction
import ManyTasks.Lib.Shares
import ManyTasks.Lib.Transition

/-!
# Combining the elements of a sequence by several threads

If there are enough elements they are divided among sixteen threads.  Each combines its own and
writes what they come to into its element of the vector `res`, which is combined with `init` in the
end.

`std::reduce` combines its arguments in some order and grouping.  What it has so far is kept in a
variable, and what `func` returns is converted to the type of this variable.  In the end, and if
there is only one thread, this is the type `T` of `init`.  But in the threads it is the type `E` of
`*(first + start)`, the elements of the sequence, and `T` may be another type (`Conversion`).

A `std::vector` keeps its elements apart, so that threads may write different ones at the same time.
Only `std::vector<bool>` does not: it packs its elements into words, and to write one is to read the
word and to write it back with the bit changed (`Storage`).  So it matters whether `T` is `bool`.
-/

set_option autoImplicit false

namespace ManyTasks
namespace Reduce

open Function (update)

variable {E T : Type}

def kThreadCnt : ℕ := 16

/-- The implicit conversions between the type of the elements and `T`. -/
structure Conversion (E T : Type) where
  toT : E → T
  toE : T → E

/-- The elements are values of `T`. -/
def Conversion.refl (T : Type) : Conversion T T := ⟨id, id⟩

/-- `func` is called with two elements, and the result is kept in a variable of their type. -/
def Conversion.call (conv : Conversion E T) (func : T → T → T) (a b : E) : E :=
  conv.toE (func (conv.toT a) (conv.toT b))

/-- `std::reduce` returns, and what it returns has `P`. -/
def stdReduce (func : T → T → T) (init : T) (elems : List T) (P : T → Prop) : Prop :=
  (∃ y, Lib.Combines func (init ::ₘ (elems : Multiset T)) y) ∧
    ∀ y, Lib.Combines func (init ::ₘ (elems : Multiset T)) y → P y

/-! ## The chunks -/

def lenPerThread (len : ℕ) : ℕ := len / kThreadCnt

def residial (len : ℕ) : ℕ := len % kThreadCnt

def realLenPerThread (len i : ℕ) : ℕ :=
  if i < residial len then lenPerThread len + 1 else lenPerThread len

/-- The variable `start_pos` when thread `i` is started. -/
def startPos (len : ℕ) : ℕ → ℕ
  | 0 => 0
  | i + 1 => startPos len i + realLenPerThread len i

/-- The elements from `start` up to `finish`. -/
def slice (elems : List E) (start finish : ℕ) : List E := (elems.take finish).drop start

/-! ## The threads -/

/-- How a `std::vector` stores its elements. -/
inductive Storage where
  /-- Each by itself. -/
  | separate
  /-- All in one word, as `std::vector<bool>` does it with 16 of them. -/
  | packed
deriving DecidableEq, Repr

/-- Where a thread is in `reduce_func`. -/
inductive Place (E T : Type) where
  /-- Before `std::reduce`. -/
  | reducing
  /-- Before the assignment to its element of `res`. -/
  | assigning (loc : E)
  /-- It has read the word that its element is in. -/
  | storing (loc : E) (word : Fin kThreadCnt → T)
  | finished

/-- The vector, and where the threads are. -/
structure State (E T : Type) where
  res : Fin kThreadCnt → T
  places : Fin kThreadCnt → Place E T

/-- `res.resize(kThreadCnt)`, and the threads are started. -/
def start [Inhabited T] : State E T := ⟨fun _ ↦ default, fun _ ↦ .reducing⟩

def State.go (s : State E T) (t : Fin kThreadCnt) (p : Place E T) : State E T :=
  { s with places := update s.places t p }

/-- One step of one thread in `reduce_func`.  The element at `start` is where the reduction begins,
and what it comes to is converted to `T` when it is assigned. -/
inductive Step (storage : Storage) (conv : Conversion E T) (func : T → T → T) (elems : List E) :
    State E T → State E T → Prop where
  | reduce {s} (t : Fin kThreadCnt) (first loc) (h : s.places t = .reducing)
      (hfirst : elems[startPos elems.length t]? = some first)
      (hloc : Lib.Combines (conv.call func) (first ::ₘ (slice elems (startPos elems.length t + 1)
        (startPos elems.length t + realLenPerThread elems.length t) : Multiset E)) loc) :
      Step storage conv func elems s (s.go t (.assigning loc))
  | assign {s} (t loc) (h : s.places t = .assigning loc) (hstorage : storage = .separate) :
      Step storage conv func elems s
        ({ s with res := update s.res t (conv.toT loc) }.go t .finished)
  | load {s} (t loc) (h : s.places t = .assigning loc) (hstorage : storage = .packed) :
      Step storage conv func elems s (s.go t (.storing loc s.res))
  | store {s} (t loc word) (h : s.places t = .storing loc word) :
      Step storage conv func elems s
        ({ s with res := update word t (conv.toT loc) }.go t .finished)

/-- All threads can be joined. -/
def State.Joined (s : State E T) : Prop := ∀ t, s.places t = .finished

/-- `reduce` returns, whatever the threads do first, and what it returns has `P`. -/
def reduce [Inhabited T] (storage : Storage) (conv : Conversion E T) (elems : List E) (init : T)
    (func : T → T → T) (P : T → Prop) : Prop :=
  if lenPerThread elems.length < 100 then stdReduce func init (elems.map conv.toT) P
  else Lib.Inevitable (Step storage conv func elems)
    (fun s ↦ s.Joined ∧ stdReduce func init (List.ofFn s.res) P) start

end Reduce
end ManyTasks
