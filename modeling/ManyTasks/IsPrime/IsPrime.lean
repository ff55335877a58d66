import ManyTasks.Lib.Shares
import ManyTasks.Lib.Transition
import Mathlib.Algebra.BigOperators.Fin
import Mathlib.Algebra.Order.BigOperators.Group.Finset
import Mathlib.Data.Nat.Prime.Defs

/-!
# Trial division by several threads

`IsPrime` tries the numbers from 2 to a bound a little above the square root.  If there are enough
of them they are divided among sixteen threads, which share a flag: who finds a divisor sets it, and
who sees it set gives up.

A thread that has not seen the flag has looked at its numbers in vain so far, and a thread that has
finished has looked at all of its own in vain, if the flag is still clear then (`Place.Fits`).

The square root is computed by `std::sqrt` and may be inexact; it is a parameter here, `root`.
-/

set_option autoImplicit false

namespace ManyTasks
namespace IsPrime

open Function (update update_self update_of_ne)

def kThreadCnt : ℕ := 16

/-- What is stored in a `uint64_t`. -/
def uint64 (n : ℕ) : ℕ := n % 2 ^ 64

/-! ## The threads -/

/-- Where a thread is in `threadFunc`. -/
inductive Place where
  /-- Before `is_not_prime.test()`, in the turn for a number. -/
  | testing (i : ℕ)
  /-- Before the division by it. -/
  | dividing (i : ℕ)
  /-- Before `is_not_prime.test_and_set()`. -/
  | setting
  | finished
deriving DecidableEq, Repr

/-- The threads that are started, and where the loop of each begins and ends. -/
structure Tasks where
  threads : ℕ
  l_bound : Fin threads → ℕ
  r_bound : Fin threads → ℕ

/-- The flag, and where the threads are. -/
structure State (tasks : Tasks) where
  is_not_prime : Bool
  places : Fin tasks.threads → Place

variable (x : ℕ) {tasks : Tasks}

/-- The condition of the loop of `threadFunc`. -/
def loop (r_bound i : ℕ) : Place := if i < r_bound then .testing i else .finished

/-- The flag is cleared, and then the threads are started. -/
def start (tasks : Tasks) : State tasks := ⟨false, fun t ↦ loop (tasks.r_bound t) (tasks.l_bound t)⟩

def State.go (s : State tasks) (t : Fin tasks.threads) (p : Place) : State tasks :=
  { s with places := update s.places t p }

/-- One step of one thread in `threadFunc`. -/
inductive Step : State tasks → State tasks → Prop where
  | test {s} (t i) (h : s.places t = .testing i) (hflag : s.is_not_prime = false) :
      Step s (s.go t (.dividing i))
  | stop {s} (t i) (h : s.places t = .testing i) (hflag : s.is_not_prime = true) :
      Step s (s.go t .finished)
  | found {s} (t i) (h : s.places t = .dividing i) (hdiv : x % i = 0) : Step s (s.go t .setting)
  | next {s} (t i) (h : s.places t = .dividing i) (hdiv : x % i ≠ 0) :
      Step s (s.go t (loop (tasks.r_bound t) (uint64 (i + 1))))
  | testAndSet {s} (t) (h : s.places t = .setting) :
      Step s ({ s with is_not_prime := true }.go t .finished)

/-- All threads can be joined. -/
def State.Joined (s : State tasks) : Prop := ∀ t, s.places t = .finished

/-! ## What is tried -/

def bound (root x : ℕ) : ℕ := min (uint64 (root + 6)) x

def stdIntervalLen (bound : ℕ) : ℕ := (bound - 2) / kThreadCnt

def fullThreadsCnt (bound : ℕ) : ℕ := (bound - 2) % kThreadCnt

def intervalLen (bound i : ℕ) : ℕ :=
  if i < fullThreadsCnt bound then stdIntervalLen bound + 1 else stdIntervalLen bound

/-- The variable `l_bound` when thread `i` is started. -/
def lBound (bound : ℕ) : ℕ → ℕ
  | 0 => 2
  | i + 1 => uint64 (lBound bound i + intervalLen bound i)

/-- `threadFunc` is called once, or by each of the threads. -/
def tasksUpTo (bound : ℕ) : Tasks :=
  if (bound - 2) / kThreadCnt < 10 then ⟨1, fun _ ↦ 2, fun _ ↦ bound⟩
  else ⟨kThreadCnt, fun t ↦ lBound bound t, fun t ↦ uint64 (lBound bound t + intervalLen bound t)⟩

/-- `isPrime` returns, whatever the threads do first, and what it returns has `P`. -/
def isPrime (root x : ℕ) (P : Bool → Prop) : Prop :=
  if x < 2 then P false
  else Lib.Inevitable (Step x) (fun s ↦ s.Joined ∧ P (!s.is_not_prime))
    (start (tasksUpTo (bound root x)))

end IsPrime
end ManyTasks
