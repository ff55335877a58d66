import Mathlib.Order.Bounds.Defs
import Mathlib.Tactic.Linarith
import ManyTasks.CompileEval.Constant

/-!
# The square root at compile time

`BinSearchSqrt` is a binary search by templates that are instantiated within each other.  A template
has one argument list and two specializations, and the one that is most special is taken; where two
match that are not comparable the program is wrong.  All arguments are constant expressions, also
those of the template that `If` does not choose.

The search never squares: that the root is above `mid` is `mid < (N - 1) / mid + 1`.
-/

set_option autoImplicit false

namespace ManyTasks
namespace CompileEval

/-! ## The templates -/

/-- `If<C, T, F>::kValue`; only the type that is chosen is instantiated. -/
def ifValue (C : Bool) (T F : Except Fault ℤ) : Except Fault ℤ :=
  if C then T else F

/-- `BinSearchSqrt<L, R, N>::kValue`, with at most `depth` templates within each other. -/
def binSearchSqrt : ℕ → ℤ → ℤ → ℤ → Except Fault ℤ
  | 0, _, _, _ => .error .depth
  | depth + 1, L, R, N =>
    -- `BinSearchSqrt<L, L, N>` and `BinSearchSqrt<L, R, 1>`
    if L = R ∧ N = 1 then .error .ambiguous
    else if L = R then .ok L
    else if N = 1 then .ok 1
    else do
      let mid ← div (← int (L + R)) 2
      let quotient ← div (← int (N - 1)) mid
      let above ← int (quotient + 1)
      let next ← int (mid + 1)
      ifValue (mid < above) (binSearchSqrt depth next R N) (binSearchSqrt depth L mid N)

/-- `Sqrt<N>::kValue` -/
def sqrt (depth : ℕ) (N : ℤ) : Except Fault ℤ := binSearchSqrt depth 0 N N

/-! ## The search -/

/-- The interval has the root, and its ends are not far from each other once the lower one has
moved. -/
structure Searching (N L R : ℤ) : Prop where
  nonneg : 0 ≤ L
  le : L ≤ R
  bound : R ≤ N
  root : N ≤ R * R
  below : 0 < L → (L - 1) * (L - 1) < N
  near : 0 < L → R < 2 * L

variable {N L R mid : ℤ} {depth k : ℕ}

theorem searching_start (hN : 2 ≤ N) : Searching N 0 N where
  nonneg := Int.le_refl 0
  le := by omega
  bound := Int.le_refl N
  root := by nlinarith
  below h := absurd h (Int.lt_irrefl 0)
  near h := absurd h (Int.lt_irrefl 0)

/-- The upper end is not `1`, so that the interval from `0` to `1` is never searched. -/
theorem Searching.two_le (h : Searching N L R) (hN : 2 ≤ N) : 2 ≤ R := by
  have hroot := h.root
  have hnonneg : 0 ≤ R := h.nonneg.trans h.le
  by_contra hlt
  obtain rfl | rfl : R = 0 ∨ R = 1 := by omega
  · omega
  · omega

/-- The sum of the ends is an `int`. -/
theorem Searching.add_lt (h : Searching N L R) (hN : N < 2 ^ 31) : L + R < 2 ^ 31 := by
  have hbound := h.bound
  rcases h.nonneg.eq_or_lt with hzero | hpos
  · omega
  · have hroot := h.below hpos
    have hnear := h.near hpos
    -- `46341` is the least number whose square is not an `int`
    have hsmall : L - 1 < 46341 := by
      by_contra hlarge
      have hsquare : 46341 * 46341 ≤ (L - 1) * (L - 1) :=
        mul_le_mul (not_lt.mp hlarge) (not_lt.mp hlarge) (by omega) (by omega)
      omega
    omega

/-- What the comparison says. -/
theorem lt_quotient_iff (N : ℤ) (hmid : 0 < mid) : mid < (N - 1) / mid + 1 ↔ mid * mid < N := by
  rw [Int.lt_add_one_iff, Int.le_ediv_iff_mul_le hmid]
  omega

/-- The upper half is searched. -/
theorem Searching.upper (h : Searching N L R) (hlt : L < R)
    (hroot : (L + R) / 2 * ((L + R) / 2) < N) :
    Searching N ((L + R) / 2 + 1) R where
  nonneg := by have := h.nonneg; omega
  le := by omega
  bound := h.bound
  root := h.root
  below _ := by rwa [Int.add_sub_cancel]
  near _ := by have := h.nonneg; omega

/-- The lower half is searched. -/
theorem Searching.lower (h : Searching N L R) (hlt : L < R)
    (hroot : N ≤ (L + R) / 2 * ((L + R) / 2)) :
    Searching N L ((L + R) / 2) where
  nonneg := h.nonneg
  le := by omega
  bound := by have := h.bound; omega
  root := hroot
  below := h.below
  near hpos := by have := h.near hpos; omega

/-- One instantiation: nothing goes wrong, and a half of the interval is searched. -/
theorem binSearchSqrt_succ (h : Searching N L R) (hlt : L < R) (hN : 2 ≤ N) (hmax : N < 2 ^ 31) :
    binSearchSqrt (depth + 1) L R N =
      if (L + R) / 2 * ((L + R) / 2) < N then binSearchSqrt depth ((L + R) / 2 + 1) R N
      else binSearchSqrt depth L ((L + R) / 2) N := by
  have hnonneg := h.nonneg
  have hsum := h.add_lt hmax
  have htwo := h.two_le hN
  have hmid : 0 < (L + R) / 2 := by omega
  have hquotient : (N - 1) / ((L + R) / 2) ≤ N - 1 := Int.ediv_le_self _ (by omega)
  have hpos : 0 ≤ (N - 1) / ((L + R) / 2) := Int.ediv_nonneg (by omega) hmid.le
  rw [binSearchSqrt, if_neg (by omega), if_neg (by omega), if_neg (by omega),
    int_eq ⟨by omega, hsum⟩, Lib.ok_bind, div_eq (by omega) (by omega) hsum, Lib.ok_bind,
    int_eq ⟨by omega, by omega⟩, Lib.ok_bind, div_eq (by omega) hmid (by omega), Lib.ok_bind,
    int_eq ⟨by omega, by omega⟩, Lib.ok_bind, int_eq ⟨by omega, by omega⟩, Lib.ok_bind, ifValue]
  simp only [decide_eq_true_eq, lt_quotient_iff N hmid]

/-- When the interval is a point, that is the root. -/
theorem Searching.isLeast (h : Searching N L L) (hN : 2 ≤ N) :
    IsLeast {x | 0 ≤ x ∧ N ≤ x * x} L := by
  refine ⟨⟨h.nonneg, h.root⟩, fun x ⟨hx, hroot⟩ ↦ ?_⟩
  by_contra hlt
  have htwo := h.two_le hN
  have hbelow := h.below (by omega)
  have hle : x * x ≤ (L - 1) * (L - 1) := mul_le_mul (by omega) (by omega) hx (by omega)
  omega

/-- The search finds the root, one instantiation for each bit of the length of the interval. -/
theorem binSearchSqrt_isLeast (h : Searching N L R) (hN : 2 ≤ N) (hmax : N < 2 ^ 31)
    (hwidth : R - L < 2 ^ k) (hdepth : k < depth) :
    ∃ x, binSearchSqrt depth L R N = .ok x ∧ IsLeast {x | 0 ≤ x ∧ N ≤ x * x} x := by
  induction depth generalizing L R k with
  | zero => exact absurd hdepth (Nat.not_lt_zero k)
  | succ depth ih =>
    rcases h.le.eq_or_lt with rfl | hlt
    · refine ⟨L, ?_, h.isLeast hN⟩
      rw [binSearchSqrt, if_neg (by omega), if_pos rfl]
    · rw [binSearchSqrt_succ h hlt hN hmax]
      obtain ⟨k, rfl⟩ : ∃ j, k = j + 1 := by
        refine Nat.exists_eq_succ_of_ne_zero ?_
        rintro rfl
        omega
      rw [pow_succ] at hwidth
      split
      · rename_i hroot
        exact ih (k := k) (h.upper hlt hroot) (by omega) (by omega)
      · rename_i hroot
        exact ih (k := k) (h.lower hlt (not_lt.mp hroot)) (by omega) (by omega)

/-- **`Sqrt<N>` is the least number whose square is at least `N`.**  On the way nothing is divided
by zero, no operation leaves the range, two specializations never match at once, and no more than 32
templates are within each other. -/
theorem sqrt_isLeast (hN : 0 ≤ N) (hmax : N ≤ 2 ^ 31 - 1) (hdepth : 32 ≤ depth) :
    ∃ x, sqrt depth N = .ok x ∧ IsLeast {x | 0 ≤ x ∧ N ≤ x * x} x := by
  rcases Int.lt_or_le N 2 with hsmall | hlarge
  · obtain ⟨depth, rfl⟩ : ∃ d, depth = d + 1 := ⟨depth - 1, by omega⟩
    obtain rfl | rfl : N = 0 ∨ N = 1 := by omega
    · exact ⟨0, rfl, ⟨Int.le_refl 0, Int.le_refl 0⟩, fun x hx ↦ hx.1⟩
    · refine ⟨1, rfl, ⟨Int.zero_le_ofNat 1, Int.le_refl 1⟩, fun x ⟨hx, hroot⟩ ↦ ?_⟩
      by_contra hlt
      obtain rfl : x = 0 := by omega
      omega
  · have hwidth : N - 0 < 2 ^ 31 := by omega
    exact binSearchSqrt_isLeast (searching_start hlarge) hlarge (by omega) hwidth (by omega)

theorem sqrt_isLeast_int_max :
    ∃ x, sqrt 32 2147483647 = .ok x ∧ IsLeast {x | 0 ≤ x ∧ 2147483647 ≤ x * x} x :=
  sqrt_isLeast (by omega) (by omega) (Nat.le_refl 32)

end CompileEval
end ManyTasks
