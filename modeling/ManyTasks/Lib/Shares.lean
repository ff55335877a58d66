import ManyTasks.Lib.Transition
import Mathlib.Algebra.Order.BigOperators.Group.Finset
import Mathlib.Algebra.Order.Group.Nat

/-!
# Dividing a row of things among workers

`n` things in a row are divided among `k` workers, as evenly as possible: each gets `n / k` of them,
and the first `n % k` workers get one more (`share`).  They take them in their order, so that worker
`i` begins where `sharesBefore n k i` things have been taken.

The workers then do their work in any order.  If each step of one of them brings it nearer to its
end, all of them finish (`Inevitable.of_workers`).
-/

set_option autoImplicit false

namespace ManyTasks
namespace Lib

/-- How many worker `i` gets. -/
def share (n k i : ℕ) : ℕ := if i < n % k then n / k + 1 else n / k

/-- How many the workers before `i` get. -/
def sharesBefore (n k i : ℕ) : ℕ := i * (n / k) + min i (n % k)

variable {n k i j c : ℕ}

@[simp] theorem sharesBefore_zero (n k : ℕ) : sharesBefore n k 0 = 0 := by
  rw [sharesBefore, Nat.zero_mul, Nat.zero_min]

theorem sharesBefore_succ (n k i : ℕ) : sharesBefore n k (i + 1) = sharesBefore n k i +
    share n k i := by
  rw [sharesBefore, sharesBefore, share, Nat.succ_mul]
  split <;> omega

theorem sharesBefore_mono (n k : ℕ) (h : i ≤ j) : sharesBefore n k i ≤ sharesBefore n k j := by
  have hmul := Nat.mul_le_mul_right (n / k) h
  simp only [sharesBefore]
  omega

/-- Nothing is left over. -/
theorem sharesBefore_self (n : ℕ) (hk : 0 < k) : sharesBefore n k k = n := by
  have hdiv := Nat.div_add_mod n k
  rw [sharesBefore, Nat.min_eq_right (Nat.mod_lt n hk).le]
  exact hdiv

theorem sharesBefore_le (h : i ≤ k) (hk : 0 < k) : sharesBefore n k i ≤ n :=
  (sharesBefore_mono n k h).trans (sharesBefore_self n hk).le

/-- Nobody goes away empty-handed if there is enough. -/
theorem share_pos (h : k ≤ n) (hk : 0 < k) : 0 < share n k i := by
  have hdiv := Nat.div_pos h hk
  rw [share]
  split <;> omega

/-- **Every thing is taken.** -/
theorem exists_share (hk : 0 < k) (hc : c < n) :
    ∃ i < k, sharesBefore n k i ≤ c ∧ c < sharesBefore n k (i + 1) := by
  have hfirst : ∀ m ≤ k, c < sharesBefore n k m →
      ∃ i < k, sharesBefore n k i ≤ c ∧ c < sharesBefore n k (i + 1) := by
    intro m hm hcm
    induction m with
    | zero => simp at hcm
    | succ m ih =>
      by_cases hbefore : c < sharesBefore n k m
      · exact ih (Nat.le_of_succ_le hm) hbefore
      · exact ⟨m, hm, not_lt.mp hbefore, hcm⟩
  exact hfirst k (Nat.le_refl k) (by rwa [sharesBefore_self n hk])

/-- **Nothing is taken twice.** -/
theorem share_unique (hi : sharesBefore n k i ≤ c ∧ c < sharesBefore n k (i + 1))
    (hj : sharesBefore n k j ≤ c ∧ c < sharesBefore n k (j + 1)) : i = j := by
  rcases Nat.lt_trichotomy i j with hlt | heq | hlt
  · have hle : sharesBefore n k (i + 1) ≤ sharesBefore n k j := sharesBefore_mono n k hlt
    omega
  · exact heq
  · have hle : sharesBefore n k (j + 1) ≤ sharesBefore n k i := sharesBefore_mono n k hlt
    omega

/-! ## All workers finish -/

section Workers

variable {W P S : Type}

/-- A worker comes nearer to its end, and the others stay where they are. -/
theorem sum_update_lt [Fintype W] [DecidableEq W] {μ : W → P → ℕ} {places : W → P} {w : W} {p : P}
    (hp : μ w p < μ w (places w)) :
    ∑ w', μ w' (Function.update places w p w') < ∑ w', μ w' (places w') := by
  have hupdate : (fun w' ↦ μ w' (Function.update places w p w'))
      = Function.update (fun w' ↦ μ w' (places w')) w (μ w p) :=
    funext fun w' ↦ Function.apply_update μ places w p w'
  rw [hupdate]
  exact Fintype.sum_strictMono (update_lt_self_iff.mpr hp)

/-- **All workers finish** if every step brings them nearer to that, and whoever has not finished
can go on.  What all steps keep holds then. -/
theorem Inevitable.of_workers {step : S → S → Prop} {Finished : S → W → Prop} {I : S → Prop}
    (μ : S → ℕ) (hstep : ∀ s s', I s → step s s' → I s' ∧ μ s' < μ s)
    (hcan : ∀ s w, I s → ¬Finished s w → ∃ s', step s s') {s : S} (hs : I s) :
    Inevitable step (fun s ↦ (∀ w, Finished s w) ∧ I s) s := by
  refine .of_measure μ hstep (fun s hs ↦ ?_) hs
  by_cases hjoined : ∀ w, Finished s w
  · exact .inl ⟨hjoined, hs⟩
  · obtain ⟨w, hw⟩ := not_forall.mp hjoined
    exact .inr (hcan s w hs hw)

end Workers

end Lib
end ManyTasks
