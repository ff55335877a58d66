import Mathlib.Algebra.Group.Defs
import Mathlib.Order.Lattice.Nat
import Mathlib.Data.List.Range
import Mathlib.Order.Bounds.Basic

/-!
# Parenthesizations of a chain

The factors of a product are numbered, and `Paren b e` are the ways to put parentheses into the
product of the factors from `b` to `e`, so that every multiplication has two operands.

* In a semigroup all of them have the same value, that of the product from left to right
  (`Paren.eval_eq`).
* If a multiplication has a cost, which depends on where its operands begin and end, they differ
  in their costs.  The least cost satisfies the recurrence of dynamic programming
  (`isLeast_leastCost`): the last multiplication is somewhere, and both of its operands have been
  computed with the least cost.
-/

set_option autoImplicit false

namespace ManyTasks
namespace Lib

/-- A full parenthesization of the factors from `b` to `e`. -/
inductive Paren : ℕ → ℕ → Type where
  | one (i : ℕ) : Paren i i
  | mul {b i e : ℕ} (l : Paren b i) (r : Paren (i + 1) e) : Paren b e

namespace Paren

theorem le {b e : ℕ} (p : Paren b e) : b ≤ e := by
  induction p with
  | one i => exact Nat.le_refl i
  | mul l r hl hr => exact hl.trans (Nat.le_of_succ_le hr)

/-- Multiply from left to right. -/
def fromLeft (b : ℕ) : (k : ℕ) → Paren b (b + k)
  | 0 => .one b
  | k + 1 => .mul (fromLeft b k) (.one (b + k + 1))

theorem nonempty {b e : ℕ} (h : b ≤ e) : Nonempty (Paren b e) := by
  obtain ⟨k, rfl⟩ := Nat.exists_eq_add_of_le h
  exact ⟨fromLeft b k⟩

/-! ## Values -/

section Values

variable {M : Type}

/-- The value of a product. -/
def eval [Mul M] (f : ℕ → M) {b e : ℕ} : Paren b e → M
  | one i => f i
  | mul l r => l.eval f * r.eval f

/-- The product of the factors from `b` to `e`, from left to right. -/
def leftProduct [Mul M] (f : ℕ → M) (b e : ℕ) : M :=
  (List.range' (b + 1) (e - b)).foldl (fun acc i ↦ acc * f i) (f b)

variable [Semigroup M]

theorem foldl_mul (f : ℕ → M) (x y : M) (is : List ℕ) :
    is.foldl (fun acc i ↦ acc * f i) (x * y) = x * is.foldl (fun acc i ↦ acc * f i) y := by
  induction is generalizing y with
  | nil => rfl
  | cons i is ih => rw [List.foldl_cons, List.foldl_cons, mul_assoc, ih]

theorem leftProduct_mul (f : ℕ → M) {b i e : ℕ} (hb : b ≤ i) (he : i + 1 ≤ e) :
    leftProduct f b i * leftProduct f (i + 1) e = leftProduct f b e := by
  have hrange : List.range' (b + 1) (e - b) =
      List.range' (b + 1) (i - b) ++ (i + 1) :: List.range' (i + 1 + 1) (e - (i + 1)) := by
    rw [← List.range'_succ, show i + 1 = b + 1 + 1 * (i - b) by omega, List.range'_append]
    congr 1
    omega
  rw [leftProduct, leftProduct, leftProduct, hrange, List.foldl_append, List.foldl_cons, foldl_mul]

/-- **All parenthesizations have the same value.** -/
theorem eval_eq (f : ℕ → M) {b e : ℕ} (p : Paren b e) : p.eval f = leftProduct f b e := by
  induction p with
  | one i => rw [leftProduct, Nat.sub_self]; rfl
  | mul l r hl hr => rw [eval, hl, hr, leftProduct_mul f l.le r.le]

end Values

/-! ## Costs -/

variable (w : ℕ → ℕ → ℕ → ℕ)

/-- The cost of all multiplications, if that of `b .. i` by `i + 1 .. e` is `w b i e`. -/
def cost {b e : ℕ} : Paren b e → ℕ
  | one _ => 0
  | mul (b := b) (i := i) (e := e) l r => w b i e + (l.cost + r.cost)

end Paren

variable (w : ℕ → ℕ → ℕ → ℕ)

/-- The least cost of the product from `b` to `e`. -/
noncomputable def leastCost (b e : ℕ) : ℕ := sInf (Set.range (Paren.cost w : Paren b e → ℕ))

variable {w}

theorem leastCost_le {b e : ℕ} (p : Paren b e) : leastCost w b e ≤ p.cost w := Nat.sInf_le ⟨p, rfl⟩

theorem exists_cost_eq {b e : ℕ} (h : b ≤ e) : ∃ p : Paren b e, p.cost w = leastCost w b e := by
  have hne : (Set.range (Paren.cost w : Paren b e → ℕ)).Nonempty := by
    obtain ⟨p⟩ := Paren.nonempty h
    exact ⟨_, p, rfl⟩
  exact Nat.sInf_mem hne

theorem isLeast_range_cost {b e : ℕ} (h : b ≤ e) :
    IsLeast (Set.range (Paren.cost w : Paren b e → ℕ)) (leastCost w b e) := by
  refine ⟨exists_cost_eq h, ?_⟩
  rintro n ⟨p, rfl⟩
  exact leastCost_le p

@[simp] theorem leastCost_self (i : ℕ) : leastCost w i i = 0 :=
  Nat.le_zero.mp (leastCost_le (.one i))

/-- The cost, if the last multiplication is after `i` and its operands have the least cost. -/
theorem leastCost_le_split {b i e : ℕ} (hb : b ≤ i) (he : i < e) :
    leastCost w b e ≤ w b i e + (leastCost w b i + leastCost w (i + 1) e) := by
  obtain ⟨l, hl⟩ := exists_cost_eq (w := w) hb
  obtain ⟨r, hr⟩ := exists_cost_eq (w := w) he
  rw [← hl, ← hr]
  exact leastCost_le (.mul l r)

/-- **Optimal substructure.**  The least cost is the least among those of the places for the last
multiplication. -/
theorem isLeast_leastCost {b e : ℕ} (h : b < e) :
    IsLeast {n | ∃ i, b ≤ i ∧ i < e ∧ n = w b i e + (leastCost w b i + leastCost w (i + 1) e)}
      (leastCost w b e) := by
  constructor
  · obtain ⟨p, hp⟩ := exists_cost_eq (w := w) h.le
    cases p with
    | one => exact absurd h (Nat.lt_irrefl b)
    | @mul _ i _ l r =>
      refine ⟨i, l.le, r.le, (leastCost_le_split l.le r.le).antisymm ?_⟩
      rw [← hp]
      exact Nat.add_le_add_left (Nat.add_le_add (leastCost_le l) (leastCost_le r)) _
  · rintro n ⟨i, hb, he, rfl⟩
    exact leastCost_le_split hb he

end Lib
end ManyTasks
