import Mathlib.Algebra.BigOperators.Group.Finset.Basic
import Mathlib.Algebra.Order.Group.Nat
import Mathlib.Data.List.Basic
import Mathlib.Logic.Function.Basic

/-!
# Pipelines

A pipeline is a row of queues.  Elements leave a queue at its front and enter the next one at its
end (`move`), any number at a time.

Reading the queues from the last one back to the first gives the elements in the order in which they
entered (`flow`), and no move changes that.  What is still to go is measured by `distance`, the
number of queues that the elements have before them all together: a move makes it smaller by the
number of the elements moved.
-/

set_option autoImplicit false

namespace ManyTasks
namespace Lib
namespace Pipeline

open Function (update update_self update_of_ne)

variable {α : Type}

/-- `m` elements of queue `i` go on to the next one. -/
def move (q : ℕ → List α) (i m : ℕ) : ℕ → List α :=
  update (update q i ((q i).drop m)) (i + 1) (q (i + 1) ++ (q i).take m)

/-- What is in queue `n` and in those before it, the first to leave first. -/
def flow (q : ℕ → List α) : ℕ → List α
  | 0 => q 0
  | n + 1 => q (n + 1) ++ flow q n

/-- How far the elements have to go to queue `n`. -/
def distance (q : ℕ → List α) (n : ℕ) : ℕ := ∑ j ∈ Finset.range n, (flow q j).length

variable {q : ℕ → List α} {i j m n : ℕ}

@[simp]
theorem move_self : move q i m i = (q i).drop m := by
  rw [move, update_of_ne (Nat.succ_ne_self i).symm, update_self]

@[simp]
theorem move_succ : move q i m (i + 1) = q (i + 1) ++ (q i).take m := update_self _ _ _

theorem move_of_ne (hi : j ≠ i) (hi' : j ≠ i + 1) : move q i m j = q j := by
  rw [move, update_of_ne hi', update_of_ne hi]

/-! ## The flow -/

theorem flow_move_of_lt (hj : j < i) : flow (move q i m) j = flow q j := by
  induction j with
  | zero => exact move_of_ne hj.ne (by omega)
  | succ j ih => rw [flow, flow, ih (by omega), move_of_ne (by omega) (by omega)]

/-- From the queue that is left, the elements are gone. -/
theorem flow_move_self (hm : m ≤ (q i).length) : flow (move q i m) i = (flow q i).drop m := by
  cases i with
  | zero => exact move_self
  | succ i =>
    rw [flow, flow, flow_move_of_lt (Nat.lt_succ_self i), move_self,
      List.drop_append_of_le_length hm]

/-- **Nothing is lost, and nothing overtakes.** -/
theorem flow_move_of_gt (hm : m ≤ (q i).length) (hj : i < j) : flow (move q i m) j = flow q j := by
  induction j, hj using Nat.le_induction with
  | base =>
    change move q i m (i + 1) ++ flow (move q i m) i = q (i + 1) ++ flow q i
    have htake : (q i).take m ++ (flow q i).drop m = flow q i := by
      cases i with
      | zero => exact List.take_append_drop m (q 0)
      | succ i =>
        rw [flow, List.drop_append_of_le_length hm, ← List.append_assoc, List.take_append_drop]
    rw [move_succ, flow_move_self hm, List.append_assoc, htake]
  | succ j hj ih => rw [flow, flow, ih, move_of_ne (by omega) (by omega)]

/-- What is empty up to some queue stays empty, if nothing comes in. -/
theorem flow_move_eq_nil (hm : m ≤ (q i).length) (h : flow q j = []) :
    flow (move q i m) j = [] := by
  rcases Nat.lt_trichotomy j i with hlt | rfl | hgt
  · rw [flow_move_of_lt hlt, h]
  · rw [flow_move_self hm, h, List.drop_nil]
  · rw [flow_move_of_gt hm hgt, h]

theorem length_le_flow : (q n).length ≤ (flow q n).length := by
  cases n with
  | zero => exact le_rfl
  | succ n =>
    rw [flow, List.length_append]
    exact Nat.le_add_right _ _

/-- **Every move brings its elements nearer to the end.** -/
theorem distance_move (hm : m ≤ (q i).length) (hi : i < n) :
    distance (move q i m) n + m = distance q n := by
  have hmem : i ∈ Finset.range n := Finset.mem_range.mpr hi
  rw [distance, distance, ← Finset.sum_erase_add _ _ hmem, ← Finset.sum_erase_add _ _ hmem]
  have hother : ∀ j ∈ (Finset.range n).erase i,
      (flow (move q i m) j).length = (flow q j).length := by
    intro j hj
    rcases lt_or_gt_of_ne (Finset.ne_of_mem_erase hj) with hlt | hgt
    · rw [flow_move_of_lt hlt]
    · rw [flow_move_of_gt hm hgt]
  have hself : (flow (move q i m) i).length + m = (flow q i).length := by
    rw [flow_move_self hm, List.length_drop]
    exact Nat.sub_add_cancel (hm.trans length_le_flow)
  rw [Finset.sum_congr rfl hother, Nat.add_assoc, hself]

end Pipeline
end Lib
end ManyTasks
