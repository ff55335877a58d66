import ManyTasks.Matrix2.Product
import Mathlib.Tactic.IntervalCases

/-!
# The order of multiplications is optimal

If the numbers of scalar multiplications do not wrap, then the table has the least number for every
interval (`opt_op_num_plan`), by the recurrence that this number satisfies.  The multiplications
that are made then cost as much as the table says, since their parentheses are where it says.
-/

set_option autoImplicit false

namespace ManyTasks
namespace Matrix2

open Lib (Paren leastCost)

variable {T : Type} {matrices : List (DenseMatrix T)} {op_nums : OpNums} {b e i : ℕ}

/-- No number of multiplications that is computed wraps. -/
def NoOverflow (matrices : List (DenseMatrix T)) : Prop :=
  ∀ b i e, b ≤ i → i < e → e < matrices.length →
    weight matrices b i e
      + (leastCost (weight matrices) b i + leastCost (weight matrices) (i + 1) e) < 2 ^ 64

/-- The sums and products wrap only once, so to speak. -/
theorem overallOps_eq (b i e l r : ℕ) :
    overallOps matrices b i e l r = (weight matrices b i e + (l + r)) % 2 ^ 64 := by
  simp only [overallOps, size_t, weight, Nat.mod_mul_mod, Nat.add_mod_mod, Nat.mod_add_mod]

/-- **The table has the least number of multiplications.** -/
theorem opt_op_num_plan (hfit : NoOverflow matrices) (hle : b ≤ e) (he : e < matrices.length) :
    (plan matrices b e).opt_op_num = leastCost (weight matrices) b e := by
  induction hn : e - b using Nat.strong_induction_on generalizing b e with
  | _ n ih =>
    subst hn
    rcases hle.eq_or_lt with rfl | hlt
    · rw [plan_self, Lib.leastCost_self]
    have hops (j : ℕ) (hbj : b ≤ j) (hje : j < e) : planOps matrices b e j =
        weight matrices b j e
          + (leastCost (weight matrices) b j + leastCost (weight matrices) (j + 1) e) := by
      rw [planOps, overallOps_eq, ih (j - b) (by omega) hbj (hje.trans he) rfl,
        ih (e - (j + 1)) (by omega) hje he rfl]
      exact Nat.mod_eq_of_lt (hfit b j e hbj hje he)
    obtain ⟨i, hbi, hie, hplan, hall⟩ := exists_plan_eq matrices hlt
    obtain ⟨⟨j, hbj, hje, hj⟩, hlower⟩ := Lib.isLeast_leastCost (w := weight matrices) hlt
    rw [hplan]
    refine (le_antisymm ?_ ?_ : planOps matrices b e i = _)
    · rw [hj, ← hops j hbj hje]
      exact hall j hbj hje
    · rw [hops i hbi hie]
      exact hlower ⟨i, hbi, hie, rfl⟩

/-- What is made costs what the table says. -/
theorem cost_of_follows (hfit : NoOverflow matrices) (hknown : Known matrices op_nums b e)
    (he : e < matrices.length) (p : Paren b e) (hp : Follows op_nums p) :
    p.cost (weight matrices) = leastCost (weight matrices) b e := by
  induction p with
  | one i => rw [Lib.leastCost_self]; rfl
  | @mul b i e l r hl hr =>
    obtain ⟨hcut, hpl, hpr⟩ := hp
    have hlt : b < e := l.le.trans_lt r.le
    obtain ⟨j, hbj, hje, hplan, -⟩ := exists_plan_eq matrices hlt
    have hcut' : i = j := by rw [← hcut, hknown b e (Nat.le_refl b) hlt (Nat.le_refl e), hplan]
    subst hcut'
    have hleast := opt_op_num_plan hfit hlt.le he
    rw [hplan] at hleast
    change planOps matrices b e i = _ at hleast
    rw [planOps, overallOps_eq, opt_op_num_plan hfit l.le (hje.trans he),
      opt_op_num_plan hfit r.le he,
      Nat.mod_eq_of_lt (hfit b i e l.le r.le he)] at hleast
    have hl' := hl (fun b' e' hb hlt he ↦ hknown b' e' hb hlt (he.trans hje.le)) (hje.trans he) hpl
    have hr' := hr (fun b' e' hb hlt he ↦ hknown b' e' (by omega) hlt he) he hpr
    rw [← hleast, Paren.cost, hl', hr']

/-- **The fewest scalar multiplications.**  For a chain of matrices that can be multiplied, if no
number of multiplications wraps: the table has the least number among all parenthesizations for
every interval, and `MultiplicateMatrices` makes as many as the least number for the whole chain. -/
theorem fewest_multiplications [Semiring T] (htwo : 2 ≤ matrices.length)
    (hmatch : Matching matrices)
    (hfit : NoOverflow matrices) :
    (∀ b e, b < e → e < matrices.length →
      IsLeast (Set.range fun p : Paren b e ↦ p.cost (weight matrices))
        (computeOptMultNum matrices 0 (matrices.length - 1) .empty b e).opt_op_num) ∧
      ∃ product muls, multiplicateMatrices matrices
          (computeOptMultNum matrices 0 (matrices.length - 1) .empty) 0 (matrices.length - 1) =
          some (product, muls) ∧
        IsLeast (Set.range fun p : Paren 0 (matrices.length - 1) ↦ p.cost (weight matrices))
          muls := by
  have hlt : 0 < matrices.length - 1 := by omega
  have hknown := (computeOptMultNum_spec hlt (memory_empty matrices)).known
  constructor
  · intro b e hbe he
    rw [hknown b e (Nat.zero_le b) hbe (by omega), opt_op_num_plan hfit hbe.le he]
    exact Lib.isLeast_range_cost hbe.le
  · obtain ⟨p, hp, heq⟩ := multiplied hmatch hknown hlt.le (by omega)
    rw [if_pos hlt.ne] at heq
    refine ⟨_, _, heq, ?_⟩
    rw [cost_of_follows hfit hknown (by omega) p hp]
    exact Lib.isLeast_range_cost hlt.le

/-- Three matrices for which the order matters. -/
def threeMatrices : List (DenseMatrix ℕ) := [.zeros 50 5, .zeros 5 100, .zeros 100 10]

theorem noOverflow_threeMatrices : NoOverflow threeMatrices := by
  have hfirst : leastCost (weight threeMatrices) 0 1 ≤ 25000 :=
    Lib.leastCost_le (.mul (.one 0) (.one 1))
  have hsecond : leastCost (weight threeMatrices) 1 2 ≤ 5000 :=
    Lib.leastCost_le (.mul (.one 1) (.one 2))
  intro b i e hb hi he
  change e < 3 at he
  have hweight : weight threeMatrices b i e ≤ 500000 := by
    interval_cases e <;> interval_cases i <;> interval_cases b <;> decide
  have hleft : leastCost (weight threeMatrices) b i ≤ 25000 := by
    interval_cases e <;> interval_cases i <;> interval_cases b <;> simp [hfirst]
  have hright : leastCost (weight threeMatrices) (i + 1) e ≤ 5000 := by
    interval_cases e <;> interval_cases i <;> simp [hsecond]
  omega

theorem fewest_multiplications_three :
    (∀ b e, b < e → e < 3 → IsLeast (Set.range fun p : Paren b e ↦ p.cost (weight threeMatrices))
        (computeOptMultNum threeMatrices 0 2 .empty b e).opt_op_num) ∧
      ∃ product muls, multiplicateMatrices threeMatrices
        (computeOptMultNum threeMatrices 0 2 .empty) 0 2 =
          some (product, muls) ∧
        IsLeast (Set.range fun p : Paren 0 2 ↦ p.cost (weight threeMatrices)) muls :=
  @fewest_multiplications ℕ threeMatrices _ (by decide)
    (wrongSizes_eq_false_iff.mp (by decide)) noOverflow_threeMatrices

end Matrix2
end ManyTasks
