import Mathlib.Algebra.Order.Group.Nat
import Mathlib.Data.List.Perm.Basic
import Mathlib.Tactic.Basic

/-!
# Sorting by exchanging neighbours

A position of a list is settled if everything before it is before it in the order, too (`Settled`).
A list is sorted if all its positions are settled.

Exchanging an element with its neighbour keeps what is settled after the two (`Settled.exchange`).
If the first was settled, and the two were not in order, then the second is settled afterwards
(`Settled.exchange_next`); if they were in order, the second is settled anyway (`Settled.next`).
-/

set_option autoImplicit false

namespace ManyTasks
namespace Lib

variable {α : Type}

/-- The elements at `j` and `j + 1` are exchanged. -/
def exchange (l : List α) (j : ℕ) : List α :=
  match l[j]?, l[j + 1]? with
  | some x, some y => (l.set j y).set (j + 1) x
  | _, _ => l

/-- Everything before position `p` is related to what is there. -/
def Settled (r : α → α → Prop) (l : List α) (p : ℕ) : Prop :=
  ∀ q x y, q < p → l[q]? = some x → l[p]? = some y → r x y

variable {r : α → α → Prop} {l : List α} {j k p : ℕ} {x y : α}

theorem exchange_perm (l : List α) (j : ℕ) : (exchange l j).Perm l := by
  rw [exchange]
  split
  · next x y hx hy =>
    obtain ⟨hj, rfl⟩ := List.getElem?_eq_some_iff.mp hx
    obtain ⟨hj', rfl⟩ := List.getElem?_eq_some_iff.mp hy
    exact List.set_set_perm hj hj'
  · exact .refl l

theorem getElem?_exchange (hj : j + 1 < l.length) :
    (exchange l j)[k]? = if k = j then l[j + 1]? else if k = j + 1 then l[j]? else l[k]? := by
  have hx := List.getElem?_eq_getElem (Nat.lt_of_succ_lt hj)
  have hy := List.getElem?_eq_getElem hj
  rw [exchange, hx, hy]
  dsimp only
  rw [List.getElem?_set, List.getElem?_set, List.length_set]
  rcases Nat.lt_trichotomy k j with hk | rfl | hk
  · rw [if_neg (by omega), if_neg (by omega), if_neg (by omega), if_neg (by omega)]
  · rw [if_neg (by omega), if_pos rfl, if_pos (by omega), if_pos rfl]
  · rw [if_neg (show ¬k = j by omega)]
    by_cases hk' : k = j + 1
    · rw [if_pos hk'.symm, if_pos (by omega), if_pos hk']
    · rw [if_neg (Ne.symm hk'), if_neg (by omega), if_neg hk']

theorem settled_zero (r : α → α → Prop) (l : List α) : Settled r l 0 :=
  fun _ _ _ h ↦ absurd h (Nat.not_lt_zero _)

/-- What is settled stays so if the exchange is before it. -/
theorem Settled.exchange (h : Settled r l p) (hj : j + 1 < l.length) (hp : j + 1 < p) :
    Settled r (exchange l j) p := by
  intro q x y hq hx hy
  rw [getElem?_exchange hj] at hx hy
  rw [if_neg (by omega), if_neg (by omega)] at hy
  split at hx
  · exact h (j + 1) x y hp hx hy
  split at hx
  · exact h j x y (by omega) hx hy
  · exact h q x y hq hx hy

/-- The second is settled if it was the first. -/
theorem Settled.exchange_next (h : Settled r l j) (hj : j + 1 < l.length)
    (hr : ∀ x y, l[j]? = some x → l[j + 1]? = some y → r y x) :
    Settled r (Lib.exchange l j) (j + 1) := by
  intro q x y hq hx hy
  rw [getElem?_exchange hj] at hx hy
  rw [if_neg (by omega), if_pos rfl] at hy
  split at hx
  · exact hr y x hy hx
  · rw [if_neg (by omega)] at hx
    exact h q x y (by omega) hx hy

/-- The second is settled if it comes after the first. -/
theorem Settled.next [IsTrans α r] (h : Settled r l j) (hj : j + 1 < l.length)
    (hr : ∀ x y, l[j]? = some x → l[j + 1]? = some y → r x y) : Settled r l (j + 1) := by
  intro q x y hq hx hy
  have hmid := List.getElem?_eq_getElem (Nat.lt_of_succ_lt hj)
  have hy' := hr _ y hmid hy
  rcases Nat.lt_succ_iff_lt_or_eq.mp hq with hq | rfl
  · exact Trans.trans (h q x _ hq hx hmid) hy'
  · rwa [← Option.some.inj (hmid.symm.trans hx)]

/-- **Sorted.**  All positions are settled. -/
theorem pairwise_of_settled (h : ∀ p, Settled r l p) : l.Pairwise r := by
  rw [List.pairwise_iff_getElem]
  intro i j hi hj hij
  exact h j i _ _ hij (List.getElem?_eq_getElem hi) (List.getElem?_eq_getElem hj)

end Lib
end ManyTasks
