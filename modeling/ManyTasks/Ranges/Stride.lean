import Mathlib.Algebra.Order.Floor.Div
import Mathlib.Algebra.Order.Group.Nat
import Mathlib.Tactic.Basic

/-!
# Every so many elements of a range

The constructor of `StrideView` advances an iterator of the range by `step` at a time, not beyond
the end, and stores where it has been.  Iterators of the view go over what is stored.

The first iterator is stored before it is compared with the end.  So the view of an empty range has
one element, which is not there (`construct_nil`).  Otherwise the positions that are stored are the
multiples of `step` in the range (`strideLoop_spec`).

An iterator of the range is a position in it, and the end is its length.
-/

set_option autoImplicit false

namespace ManyTasks
namespace Ranges

variable {α : Type}

/-- `std::ranges::next(it, n, bound)` -/
def next : ℕ → ℕ → ℕ → ℕ
  | it, 0, _ => it
  | it, n + 1, bound => if it = bound then it else next (it + 1) n bound

structure StrideView (α : Type) where
  base_ : List α
  step_ : ℕ
  /-- `std::vector<BaseIteratorType>` -/
  iterators_ : List ℕ

/-- The loop of the constructor, for so many turns at most. -/
def strideLoop (base_ : List α) (step_ : ℕ) : ℕ → ℕ → List ℕ → Option (List ℕ)
  | 0, _, _ => none
  | turns + 1, it, iterators_ =>
    let it := next it step_ base_.length
    if it ≠ base_.length then strideLoop base_ step_ turns it
      (iterators_ ++ [it]) else some iterators_

namespace StrideView

/-- The constructor, for so many turns of its loop at most. -/
def construct (turns : ℕ) (base : List α) (step : ℕ) : Option (StrideView α) :=
  (strideLoop base step turns 0 [0]).map fun iterators_ ↦ ⟨base, step, iterators_⟩

/-- `StrideView::Iterator`, a position in `iterators_`. -/
structure Iterator where
  it_ : ℕ
deriving DecidableEq, Repr

variable (view : StrideView α)

def beginIterator (_view : StrideView α) : Iterator := ⟨0⟩

def endIterator : Iterator := ⟨view.iterators_.length⟩

def size : ℕ := view.iterators_.length

def Iterator.increment (it : Iterator) : Iterator := ⟨it.it_ + 1⟩

/-- `**it_`, which is nothing where there is no element. -/
def deref (it : Iterator) : Option α := view.iterators_[it.it_]?.bind fun pos ↦ view.base_[pos]?

/-- What a loop over the view gets from `it` on, for so many turns at most. -/
def forEach : ℕ → Iterator → Option (List α)
  | 0, _ => none
  | turns + 1, it =>
    if it = view.endIterator then some []
    else (view.deref it).bind fun x ↦ (forEach turns it.increment).map (x :: ·)

/-- The view is what it should be: its elements are those of `base` at the multiples of `step`. -/
structure Strided (base : List α) (step : ℕ) : Prop where
  yields : ∃ turns xs, view.forEach turns view.beginIterator = some xs ∧ ∀ k :
    ℕ, xs[k]? = base[k * step]?
  size_eq : view.size = base.length ⌈/⌉ step
  not_end : ∀ it ∈ view.iterators_, it ≠ base.length

/-! ## The constructor -/

variable {view} {base : List α} {step it n bound k turns : ℕ} {iterators : List ℕ}

theorem next_eq (h : it ≤ bound) : next it n bound = min (it + n) bound := by
  induction n generalizing it with
  | zero => rw [next, Nat.add_zero, min_eq_left h]
  | succ n ih =>
    rw [next]
    split
    · omega
    · rw [ih (by omega)]
      omega

theorem lt_ceilDiv (hstep : 1 ≤ step) : k < n ⌈/⌉ step ↔ k * step < n := by
  rw [← not_le, ceilDiv_le_iff_le_smul hstep, not_le, smul_eq_mul, Nat.mul_comm]

/-- One more turn, or the end: what is stored are the multiples so far, the last of which is before
the end. -/
theorem strideLoop_spec (hstep : 1 ≤ step) (hlt : k * step < base.length)
    (hturns : base.length ≤ k * step + turns) :
    strideLoop base step turns (k * step) ((List.range (k + 1)).map (· * step)) =
      some ((List.range (base.length ⌈/⌉ step)).map (· * step)) := by
  induction turns generalizing k with
  | zero => omega
  | succ turns ih =>
    have hnext : k * step + step = (k + 1) * step := (Nat.succ_mul k step).symm
    rw [strideLoop, next_eq hlt.le, hnext]
    by_cases hend : (k + 1) * step < base.length
    · rw [min_eq_left hend.le, if_pos hend.ne, ← ih hend (by omega),
        show List.range (k + 1 + 1) = List.range (k + 1) ++ [k + 1] from List.range_succ,
          List.map_append]
      rfl
    · rw [min_eq_right (not_lt.mp hend), if_neg fun h ↦ h rfl]
      have hsize : base.length ⌈/⌉ step = k + 1 := by
        have hk := (lt_ceilDiv hstep).mpr hlt
        have hk' := (lt_ceilDiv hstep).not.mpr hend
        omega
      rw [hsize]

/-- The only iterator that is stored for an empty range is the end. -/
theorem construct_nil {v : StrideView α} (h : construct turns [] step = some v) :
    v.iterators_ = [0] := by
  cases turns with
  | zero => exact absurd h (Option.some_ne_none v).symm
  | succ turns =>
    have hend : next 0 step 0 = 0 := (next_eq le_rfl).trans (Nat.min_zero _)
    rw [construct, strideLoop, List.length_nil, hend, if_neg fun h ↦ h rfl] at h
    exact Option.some.inj h ▸ rfl

/-! ## Going over the view -/

/-- What a loop over the view gets, if there is an element at every position that is left. -/
theorem forEach_spec (view : StrideView α) (before after : List ℕ)
    (heq : view.iterators_ = before ++ after) (hafter : ∀ pos ∈ after, pos < view.base_.length) :
    ∃ xs : List α, view.forEach (after.length + 1) ⟨before.length⟩ = some xs ∧
      ∀ k : ℕ, xs[k]? = after[k]?.bind fun pos ↦ view.base_[pos]? := by
  induction after generalizing before with
  | nil =>
    refine ⟨[], ?_, fun k ↦ rfl⟩
    rw [forEach, endIterator, heq, List.append_nil, if_pos rfl]
  | cons pos after ih =>
    obtain ⟨hpos, hafter⟩ := List.forall_mem_cons.mp hafter
    obtain ⟨xs, hxs, hget⟩ := ih (before ++ [pos]) (by rw [heq, List.append_assoc]; rfl) hafter
    refine ⟨view.base_[pos] :: xs, ?_, fun k ↦ ?_⟩
    · have hne : (⟨before.length⟩ : Iterator) ≠ view.endIterator := by
        rw [endIterator, heq, List.length_append, List.length_cons, ne_eq, Iterator.mk.injEq]
        omega
      have hderef : view.deref ⟨before.length⟩ = some view.base_[pos] := by
        rw [deref, heq, List.getElem?_append_right le_rfl, Nat.sub_self]
        exact List.getElem?_eq_getElem hpos
      rw [List.length_append] at hxs
      rw [forEach, if_neg hne, hderef, Option.bind_some, List.length_cons, Iterator.increment]
      rw [show before.length + [pos].length = before.length + 1 from rfl] at hxs
      rw [hxs]
      rfl
    · cases k with
      | zero => exact (List.getElem?_eq_getElem hpos).symm
      | succ k => exact hget k

/-- **The view of a range that is not empty.** -/
theorem construct_spec (hne : base ≠ []) (hstep : 1 ≤ step) :
    ∃ turns v, construct turns base step = some v ∧ v.Strided base step := by
  have hlength : 0 < base.length := List.length_pos_of_ne_nil hne
  have hloop : strideLoop base step base.length 0 [0] =
      some ((List.range (base.length ⌈/⌉ step)).map (· * step)) := by
    have hspec : strideLoop base step base.length (0 * step)
        ((List.range (0 + 1)).map (· * step)) = _ :=
      strideLoop_spec hstep (by rwa [Nat.zero_mul]) (Nat.le_add_left _ _)
    have hfirst : (List.range (0 + 1)).map (· * step) = [0] := by
      rw [show List.range (0 + 1) = [0] from rfl, List.map_singleton, Nat.zero_mul]
    rwa [hfirst, Nat.zero_mul] at hspec
  refine ⟨base.length, ⟨base, step, (List.range (base.length ⌈/⌉ step)).map (· * step)⟩, ?_, ?_⟩
  · rw [construct, hloop, Option.map_some]
  have hpos : ∀ pos ∈ (List.range (base.length ⌈/⌉ step)).map (· * step), pos < base.length := by
    intro pos hpos
    obtain ⟨k, hk, rfl⟩ := List.mem_map.mp hpos
    exact (lt_ceilDiv hstep).mp (List.mem_range.mp hk)
  refine ⟨?_, ?_, fun it hit ↦ (hpos it hit).ne⟩
  · obtain ⟨xs, hxs, hget⟩ := forEach_spec
      (⟨base, step, (List.range (base.length ⌈/⌉ step)).map (· * step)⟩ : StrideView α)
        [] _ rfl hpos
    refine ⟨_, xs, hxs, fun k ↦ ?_⟩
    rw [hget, List.getElem?_map]
    rcases Nat.lt_or_ge k (base.length ⌈/⌉ step) with hk | hk
    · rw [List.getElem?_range hk]
      rfl
    · rw [List.getElem?_eq_none (by rwa [List.length_range]), List.getElem?_eq_none]
      · rfl
      · exact not_lt.mp ((lt_ceilDiv hstep).not.mp (not_lt.mpr hk))
  · rw [size, List.length_map, List.length_range]

/-- **When the view is what it should be.**  The range must have an element. -/
theorem construct_correct_iff (base : List α) (step : ℕ) (hstep : 1 ≤ step) :
    (∃ turns v, construct turns base step = some v ∧ v.Strided base step) ↔ base ≠ [] := by
  refine ⟨?_, fun hne ↦ construct_spec hne hstep⟩
  rintro ⟨turns, v, hv, hstrided⟩ rfl
  exact hstrided.not_end 0 (by rw [construct_nil hv]; exact List.mem_singleton_self 0) rfl

theorem construct_correct_iff_three :
    ((∃ turns v, construct turns [10, 20, 30, 40] 3 = some v ∧ v.Strided [10, 20, 30, 40] 3) ↔
      [10, 20, 30, 40] ≠ ([] : List ℕ)) :=
  construct_correct_iff [10, 20, 30, 40] 3 (by decide)

/-- The view of an empty range has an element. -/
theorem not_strided_nil : ¬∃ turns v, construct turns ([] : List ℕ) 1 = some v ∧
    v.Strided [] 1 := by
  rintro ⟨turns, v, hv, hstrided⟩
  exact hstrided.not_end 0 (by rw [construct_nil hv]; exact List.mem_singleton_self 0) rfl

end StrideView

end Ranges
end ManyTasks
