import ManyTasks.Lib.Sorted
import ManyTasks.Lib.Transition
import Mathlib.Algebra.Order.Group.Multiset
import Mathlib.Algebra.Order.Ring.Int
import Mathlib.Data.List.InsertIdx
import Mathlib.Tactic.Abel

/-!
# A queue ordered by time

A `TimerQueue` keeps its values in a `std::map` under the time points at which they are due.  `Add`
puts a value in, `Pop` takes the first one out.  Here are the map and what the two calls do to it;
when `Pop` waits, and for what, is another matter.

A map has one value for each key, and `emplace` does nothing if there is one already.  So a value
that is added at a time point at which another one is queued is lost, and `lossless_iff` says that
this is the only way to lose one.
-/

set_option autoImplicit false

namespace ManyTasks
namespace TimerQueue

open Lib (SortedKeys Trace)

/-- `std::map<std::chrono::system_clock::time_point, T>`, with the time points in nanoseconds. -/
structure Queue (V : Type) where
  entries : List (ℤ × V)
  sorted : SortedKeys entries

variable {V : Type}

namespace Queue

/-- A map with nothing in it. -/
def empty : Queue V := ⟨[], List.Pairwise.nil⟩

def contains (q : Queue V) (time : ℤ) : Bool := q.entries.any fun e ↦ e.1 == time

theorem contains_eq_true {q : Queue V} {time : ℤ} :
    q.contains time = true ↔ ∃ value, (time, value) ∈ q.entries := by
  simp [contains]

theorem contains_eq_false {q : Queue V} {time : ℤ} :
    q.contains time = false ↔ ∀ value, (time, value) ∉ q.entries := by
  rw [← Bool.not_eq_true, contains_eq_true, not_exists]

/-- `queue_.emplace(std::make_pair(at, ...))` -/
def emplace (q : Queue V) (time : ℤ) (value : V) : Queue V :=
  if h : q.contains time = false then
    ⟨q.entries.insertIdx (Lib.lowerBound time q.entries) (time, value),
      q.sorted.insertIdx (contains_eq_false.mp h)⟩
  else q

/-- `*queue_.begin()`, if there is anything. -/
def front (q : Queue V) : Option (ℤ × V) := q.entries.head?

/-- `queue_.erase(queue_.begin())` -/
def eraseFront (q : Queue V) : Queue V :=
  ⟨q.entries.tail, q.sorted.sublist (List.tail_sublist _)⟩

/-- What is queued. -/
def values (q : Queue V) : Multiset V := q.entries.map Prod.snd

theorem values_emplace_of_contains {q : Queue V} {time : ℤ} {value : V}
    (h : q.contains time = true) : (q.emplace time value).values = q.values := by
  rw [emplace, dif_neg (by simp [h])]

theorem values_emplace {q : Queue V} {time : ℤ} {value : V} (h : q.contains time = false) :
    (q.emplace time value).values = q.values + {value} := by
  have hle : Lib.lowerBound time q.entries ≤ q.entries.length := Lib.lowerBound_le_length
  have hperm := (List.perm_insertIdx (time, value) q.entries hle).map Prod.snd
  rw [emplace, dif_pos h, values, Multiset.coe_eq_coe.mpr hperm, List.map_cons, ← Multiset.cons_coe,
    ← Multiset.singleton_add, add_comm, values]

theorem mem_emplace {q : Queue V} {e : ℤ × V} (time : ℤ) (value : V) (h : e ∈ q.entries) :
    e ∈ (q.emplace time value).entries := by
  unfold emplace
  split
  · exact (List.mem_insertIdx Lib.lowerBound_le_length).mpr (.inr h)
  · exact h

theorem entries_of_front {q : Queue V} {e : ℤ × V} (h : q.front = some e) :
    q.entries = e :: q.eraseFront.entries := by
  obtain ⟨rest, hrest⟩ := List.head?_eq_some_iff.mp h
  simp [eraseFront, hrest]

theorem values_of_front {q : Queue V} {e : ℤ × V} (h : q.front = some e) :
    q.values = {e.2} + q.eraseFront.values := by
  rw [values, entries_of_front h, List.map_cons, ← Multiset.cons_coe,
    ← Multiset.singleton_add, values]

/-- The first entry has the least time point. -/
theorem le_of_front {q : Queue V} {e : ℤ × V} (h : q.front = some e) :
    ∀ e' ∈ q.entries, e.1 ≤ e'.1 := by
  intro e' he'
  have hsorted := q.sorted
  rw [entries_of_front h] at hsorted he'
  rcases List.mem_cons.mp he' with rfl | hrest
  · exact le_rfl
  · exact (hsorted.of_cons.1 e' hrest).le

end Queue

/-! ## Sequences of calls -/

/-- A call, and what it has done. -/
inductive Label (V : Type) where
  | add (time : ℤ) (value : V)
  | pop (time : ℤ) (value : V)
  /-- `Pop` reads `*queue_.begin()` of an empty queue. -/
  | readEmpty
deriving DecidableEq, Repr

/-- What a call does to the queue.  After a read of what is not there, it may be anything. -/
inductive Queue.Step : Queue V → Label V → Queue V → Prop where
  | add {q} (time value) : Step q (.add time value) (q.emplace time value)
  | pop {q} (time value) (h : q.front = some (time, value)) :
      Step q (.pop time value) q.eraseFront
  | readEmpty {q} (q') (h : q.front = none) : Step q .readEmpty q'

def Label.added : Label V → Option V
  | .add _ value => some value
  | _ => none

def Label.popped : Label V → Option V
  | .pop _ value => some value
  | _ => none

/-- The value that a call does not put into the queue, although it was to. -/
def Label.lost (q : Queue V) : Label V → Option V
  | .add time value => if q.contains time then some value else none
  | _ => none

/-- The values that have been added. -/
def added (h : List (Queue V × Label V)) : Multiset V := h.filterMap fun x ↦ x.2.added

/-- The values that have been popped. -/
def popped (h : List (Queue V × Label V)) : Multiset V := h.filterMap fun x ↦ x.2.popped

def lost (h : List (Queue V × Label V)) : Multiset V := h.filterMap fun x ↦ x.2.lost x.1

/-- The law of the queue: what has been added has been popped or is queued, and every `Pop` takes a
value with the least time point queued. -/
structure Lossless (h : List (Queue V × Label V)) (q : Queue V) : Prop where
  defined : ∀ x ∈ h, x.2 ≠ .readEmpty
  values : added h = popped h + q.values
  least : ∀ x ∈ h, ∀ time value, x.2 = .pop time value →
    (time, value) ∈ x.1.entries ∧ ∀ e ∈ x.1.entries, time ≤ e.1

/-- No `Add` at a time point that is queued, and no `Pop` when nothing is. -/
structure Distinct (h : List (Queue V × Label V)) : Prop where
  add : ∀ x ∈ h, ∀ time value, x.2 = .add time value → x.1.contains time = false
  nonempty : ∀ x ∈ h, x.2 ≠ .readEmpty

theorem added_snoc (h : List (Queue V × Label V)) (q : Queue V) (l : Label V) :
    added (h ++ [(q, l)]) = added h + (l.added.toList : Multiset V) := by
  rw [added, Lib.filterMap_snoc, ← Multiset.coe_add, added]

theorem popped_snoc (h : List (Queue V × Label V)) (q : Queue V) (l : Label V) :
    popped (h ++ [(q, l)]) = popped h + (l.popped.toList : Multiset V) := by
  rw [popped, Lib.filterMap_snoc, ← Multiset.coe_add, popped]

theorem lost_snoc (h : List (Queue V × Label V)) (q : Queue V) (l : Label V) :
    lost (h ++ [(q, l)]) = lost h + ((l.lost q).toList : Multiset V) := by
  rw [lost, List.filterMap_append, ← Multiset.coe_add, lost]
  cases hl : l.lost q with
  | none => simp [hl]
  | some value => simp [hl]

/-- Where the values are after one more call. -/
theorem Queue.Step.balance {h : List (Queue V × Label V)} {q q' : Queue V} {l : Label V}
    (hstep : Queue.Step q l q') (hl : l ≠ .readEmpty)
    (hbalance : added h = popped h + q.values + lost h) :
    added (h ++ [(q, l)]) = popped (h ++ [(q, l)]) + q'.values + lost (h ++ [(q, l)]) := by
  rw [added_snoc, popped_snoc, lost_snoc, hbalance]
  cases hstep with
  | add time value =>
    cases hcontains : q.contains time with
    | true =>
      rw [Queue.values_emplace_of_contains hcontains]
      simp [Label.added, Label.popped, Label.lost, hcontains, add_assoc]
    | false =>
      rw [Queue.values_emplace hcontains]
      simp only [Label.added, Label.popped, Label.lost, hcontains, Option.toList,
        Multiset.coe_nil, add_zero, Multiset.coe_singleton, Bool.false_eq_true, if_false]
      abel
  | pop time value hfront =>
    rw [Queue.values_of_front hfront]
    simp only [Label.added, Label.popped, Label.lost, Option.toList, Multiset.coe_nil, add_zero,
      Multiset.coe_singleton]
    abel
  | readEmpty q' hfront => exact absurd rfl hl

theorem lost_eq_zero_iff {h : List (Queue V × Label V)} :
    lost h = 0 ↔ ∀ x ∈ h, ∀ time value, x.2 = .add time value → x.1.contains time = false := by
  rw [lost, Multiset.coe_eq_zero, List.filterMap_eq_nil_iff]
  refine forall₂_congr fun x _ ↦ ?_
  constructor
  · intro hlost time value heq
    rw [heq, Label.lost] at hlost
    simpa using hlost
  · intro hadd
    cases hx : x.2 with
    | add time value => simp [Label.lost, hadd time value hx]
    | pop | readEmpty => rfl

/-- **When nothing is lost**: exactly when no value is added at a time point that is queued, and no
`Pop` finds the queue empty. -/
theorem lossless_iff {h : List (Queue V × Label V)} {q : Queue V}
    (hrun : Trace Queue.Step .empty h q) : Lossless h q ↔ Distinct h := by
  have hbalance : (∀ x ∈ h, x.2 ≠ .readEmpty) → added h = popped h + q.values + lost h := by
    induction hrun with
    | nil => exact fun _ ↦ rfl
    | snoc hrun hstep ih =>
      intro hdefined
      refine hstep.balance (hdefined _ (List.mem_append_right _ List.mem_cons_self)) (ih ?_)
      exact fun x hx ↦ hdefined x (List.mem_append_left _ hx)
  have hleast : ∀ x ∈ h, ∀ time value, x.2 = .pop time value →
      (time, value) ∈ x.1.entries ∧ ∀ e ∈ x.1.entries, time ≤ e.1 := by
    refine (hrun.forall_of_step (C := fun _ _ ↦ True) (I := fun _ ↦ True)
      (P := fun q l ↦ ∀ time value, l = .pop time value →
        (time, value) ∈ q.entries ∧ ∀ e ∈ q.entries, time ≤ e.1) (by simp) trivial
      fun s l s' _ hstep _ ↦ ⟨trivial, fun time value heq ↦ ?_⟩).2
    cases hstep with
    | pop _ _ hfront =>
      obtain ⟨rfl, rfl⟩ := Label.pop.inj heq
      exact ⟨by simp [Queue.entries_of_front hfront], Queue.le_of_front hfront⟩
    | add | readEmpty => cases heq
  constructor
  · intro hlaw
    refine ⟨lost_eq_zero_iff.mp ?_, hlaw.defined⟩
    have heq := (hbalance hlaw.defined).symm.trans hlaw.values
    exact add_eq_left.mp heq
  · intro hdistinct
    refine ⟨hdistinct.nonempty, ?_, hleast⟩
    rw [hbalance hdistinct.nonempty, lost_eq_zero_iff.mpr hdistinct.add, add_zero]

/-- A time point may be used again once its value has been popped. -/
theorem lossless_iff_three : ∃ (h : List (Queue ℕ × Label ℕ)) (q : Queue ℕ),
    h.map Prod.snd = [.add 5 1, .add 3 2, .pop 3 2, .add 3 4] ∧ (Lossless h q ↔ Distinct h) := by
  have hrun := (.nil : Trace Queue.Step (.empty : Queue ℕ) [] _)
    |>.snoc (.add 5 1)
    |>.snoc (.add 3 2)
    |>.snoc (.pop 3 2 rfl)
    |>.snoc (.add 3 4)
  exact ⟨_, _, rfl, lossless_iff hrun⟩

/-- The second of two values at one time point is lost. -/
theorem not_lossless_same_time : ∃ (h : List (Queue ℕ × Label ℕ)) (q : Queue ℕ),
    Trace Queue.Step .empty h q ∧ h.map Prod.snd = [.add 0 1, .add 0 2] ∧ ¬ Lossless h q := by
  have hrun := (.nil : Trace Queue.Step (.empty : Queue ℕ) [] _)
    |>.snoc (.add 0 1)
    |>.snoc (.add 0 2)
  refine ⟨_, _, hrun, rfl, fun hlaw ↦ ?_⟩
  have hcard := congrArg Multiset.card hlaw.values
  exact absurd hcard (by decide)

end TimerQueue
end ManyTasks
