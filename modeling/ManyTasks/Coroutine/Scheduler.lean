import ManyTasks.Lib.Heap
import ManyTasks.Lib.Transition
import Mathlib.Algebra.Order.Ring.Int
import Mathlib.Data.Prod.Lex
import Mathlib.Order.BooleanAlgebra.Basic

/-!
# Coroutines that wait for points in time

A `Scheduler` has a vector of coroutines that is kept as a heap by `std::push_heap` and
`std::pop_heap`.  `Step` takes the first one out, resumes it, and puts it back with the time point
it now waits for, unless it is done.  What a coroutine does between two `co_await`s is up to it; it
may also add tasks.

`Compare` looks at whether a coroutine has been started, at the time point it waits for, and at the
reading of the clock when it was added, in this order.  Its readings may be equal, and then
`Compare` does not know which of two coroutines was added first.  To say which was, every coroutine
has a number here: `handle_` counts how many were added before.

Of the heap functions it is only assumed what the standard says of them: which element is taken,
that the others stay, and that the result is a heap.
-/

set_option autoImplicit false

namespace ManyTasks
namespace Coroutine

open Lib (IsHeap)

/-- `Coroutine`.  The handle is the number of coroutines that were added before. -/
structure Task where
  handle_ : ℕ
  is_started : Bool
  added_time : ℤ
  next_time : ℤ
deriving DecidableEq, Repr

/-- The constructor, when the clock reads `now`. -/
def Task.new (handle : ℕ) (now : ℤ) : Task := ⟨handle, false, now, now⟩

/-- `Coroutine::Compare`. -/
def Task.compare (lhr rhr : Task) : Bool :=
  if rhr.is_started < lhr.is_started then true
  else if lhr.is_started < rhr.is_started then false
  else if rhr.next_time < lhr.next_time then true
  else if lhr.next_time < rhr.next_time then false
  else if rhr.added_time < lhr.added_time then true
  else false

/-- What `Compare` looks at. -/
def Task.key (c : Task) : Bool ×ₗ ℤ ×ₗ ℤ := toLex (c.is_started, toLex (c.next_time, c.added_time))

theorem Task.key_le_iff {c c' : Task} :
    c.key ≤ c'.key ↔ c.is_started < c'.is_started ∨ c.is_started = c'.is_started ∧
      (c.next_time < c'.next_time ∨ c.next_time = c'.next_time ∧ c.added_time ≤ c'.added_time) := by
  simp only [Task.key, Prod.Lex.le_iff, ofLex_toLex]

theorem Task.compare_eq_false_iff {c c' : Task} : c.compare c' = false ↔ c.key ≤ c'.key := by
  rw [key_le_iff, compare]
  split_ifs with h₁ h₂ h₃ h₄ h₅
  · simp [h₁.le.not_gt, h₁.ne']
  · simp [h₂]
  · simp [le_antisymm (not_lt.mp h₁) (not_lt.mp h₂), h₃.le.not_gt, h₃.ne']
  · simp [le_antisymm (not_lt.mp h₁) (not_lt.mp h₂), h₄]
  · simp [le_antisymm (not_lt.mp h₁) (not_lt.mp h₂), le_antisymm (not_lt.mp h₃) (not_lt.mp h₄),
      h₅.not_ge]
  · simp [le_antisymm (not_lt.mp h₁) (not_lt.mp h₂), le_antisymm (not_lt.mp h₃) (not_lt.mp h₄),
      not_lt.mp h₅]

/-- `std::is_heap` with `Compare`: no element compares true with one of its children. -/
def StdHeap (coroutines_ : Array Task) : Prop :=
  ∀ c : Fin coroutines_.size,
    coroutines_[(⟨(c.val - 1) / 2, by omega⟩ : Fin coroutines_.size)].compare coroutines_[c] = false

instance (coroutines_ : Array Task) : Decidable (StdHeap coroutines_) :=
  inferInstanceAs (Decidable (∀ _, _))

/-- The heap is one with the least key in front. -/
theorem stdHeap_iff {coroutines_ : Array Task} : StdHeap coroutines_ ↔
    IsHeap Task.key coroutines_ := by
  simp only [StdHeap, Task.compare_eq_false_iff]
  constructor
  · intro h c p hc hp hchild _
    obtain ⟨-, rfl⟩ := Lib.isChild_iff.mp hchild
    exact h ⟨c, hc⟩
  · intro h c
    rcases Nat.eq_zero_or_pos c.val with hzero | hpos
    · simp [hzero]
    · exact h c.val _ c.isLt _ (Lib.isChild_iff.mpr ⟨hpos, rfl⟩) (by simp)

/-- What `std::push_heap` may leave of a vector after `emplace_back`. -/
def PushHeap (coroutines_ : Array Task) (c : Task) (coroutines' : Array Task) : Prop :=
  coroutines'.Perm (coroutines_.push c) ∧ StdHeap coroutines'

/-- What `std::pop_heap` and `pop_back` may take out of a vector and leave of it. -/
def PopHeap (coroutines_ : Array Task) (c : Task) (coroutines' : Array Task) : Prop :=
  coroutines_[0]? = some c ∧ coroutines_.Perm (coroutines'.push c) ∧ StdHeap coroutines'

/-- A scheduler, the clock and the coroutine that is being resumed. -/
structure Scheduler where
  coroutines_ : Array Task
  clock : ℤ
  /-- How many coroutines have been added. -/
  added : ℕ
  /-- The coroutine `c` of `Step`. -/
  resumed : Option Task
  /-- The coroutines that are done. -/
  done : List ℕ

/-- What a step is. -/
inductive Label where
  | tick
  /-- `AddTask`. -/
  | add (handle : ℕ)
  /-- `Step` resumes a coroutine. -/
  | resume (c : Task)
  /-- It waits for a time point, and `Step` returns true. -/
  | suspend (handle : ℕ) (time_point : ℤ)
  /-- It is done, and `Step` returns true. -/
  | finish (handle : ℕ)
  /-- `Step` returns false, and so `Run` returns. -/
  | stop
deriving DecidableEq, Repr

/-- No task has been added. -/
def init (clock : ℤ) : Scheduler := ⟨#[], clock, 0, none, []⟩

/-- One step.  A coroutine may add tasks while it is resumed, and so may others when it is not. -/
inductive Step : Scheduler → Label → Scheduler → Prop where
  | tick {s} (now) (h : s.clock ≤ now) : Step s .tick { s with clock := now }
  | add {s} (now coroutines') (h : s.clock ≤ now)
      (hheap : PushHeap s.coroutines_ (.new s.added now) coroutines') :
      Step s (.add s.added)
        { s with coroutines_ := coroutines', clock := now, added := s.added + 1 }
  /-- `await_resume` sleeps until the time point has come. -/
  | resume {s} (c coroutines' now) (h : s.resumed = none) (hclock : s.clock ≤ now)
      (hheap : PopHeap s.coroutines_ c coroutines')
        (hawait : c.is_started = true → c.next_time ≤ now) :
      Step s (.resume c)
        { s with coroutines_ := coroutines', clock := now
                 resumed := some { c with is_started := true } }
  | suspend {s} (c time_point coroutines') (h : s.resumed = some c)
      (hheap : PushHeap s.coroutines_ { c with next_time := time_point } coroutines') :
      Step s (.suspend c.handle_ time_point)
        { s with coroutines_ := coroutines', resumed := none }
  | finish {s} (c) (h : s.resumed = some c) :
      Step s (.finish c.handle_) { s with resumed := none, done := s.done ++ [c.handle_] }
  | stop {s} (h : s.resumed = none) (hempty : s.coroutines_ = #[]) : Step s .stop s

end Coroutine
end ManyTasks
