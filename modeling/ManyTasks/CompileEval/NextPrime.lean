import Mathlib.Data.Nat.Prime.Basic
import Mathlib.Order.Bounds.Defs
import Mathlib.Tactic.Linarith
import ManyTasks.CompileEval.Constant

/-!
# The next prime at compile time

`IsPrime` divides an odd number by `3`, `5` and so on, up to the square root, and `NextPrime` asks
it about one odd number after the other.

To see that a prime has no divisor the loop needs the first square of an odd number that is above
the prime.  From `46339 ^ 2` on this is `46341 ^ 2`, which is not an `int`.  And for arguments that
are not positive the search begins below `2`, where the loop has nothing to divide by and finds that
the number is a prime.
-/

set_option autoImplicit false

namespace ManyTasks
namespace CompileEval

/-! ## The functions -/

/-- The loop of `IsPrime`.  The divisors are positive. -/
def isPrimeLoop (x i : ℤ) : Except Fault Bool :=
  if InInt (i * i) then
    if i * i ≤ x then
      if x.tmod i = 0 then .ok false
      else if InInt (i + 2) then isPrimeLoop x (i + 2)
      else .error .overflow
    else .ok true
  else .error .overflow
termination_by (2 ^ 31 - i).toNat
decreasing_by
  rename_i hnext
  have hlt := hnext.2
  omega

def isPrime (x : ℤ) : Except Fault Bool := isPrimeLoop x 3

/-- The loop of `NextPrimeImpl`, which has no condition. -/
def nextPrimeLoop (i : ℤ) : Except Fault ℤ := do
  if ← isPrime i then .ok i
  else if InInt (i + 2) then nextPrimeLoop (i + 2)
  else .error .overflow
termination_by (2 ^ 31 - i).toNat
decreasing_by
  rename_i hnext
  have hlt := hnext.2
  omega

def nextPrimeImpl (x : ℤ) : Except Fault ℤ :=
  if x = 0 then .ok 2
  else if x = 1 then .ok 2
  else if x = 2 then .ok 3
  else do
    let i ← int (if x.tmod 2 = 0 then x + 1 else x + 2)
    nextPrimeLoop i

/-- `NextPrime` -/
def nextPrime (x : ℤ) : Except Fault ℤ := do
  nextPrimeImpl (← int (x - 1))

/-! ## The loops -/

section Loops

variable {x i p : ℤ}

theorem isPrimeLoop_stop (hint : InInt (i * i)) (hlt : x < i * i) : isPrimeLoop x i = .ok true := by
  rw [isPrimeLoop, if_pos hint, if_neg (not_le.mpr hlt)]

theorem isPrimeLoop_divides (hx : x < 2 ^ 31) (hle : i * i ≤ x) (hdvd : i ∣ x) :
    isPrimeLoop x i = .ok false := by
  have hnonneg : 0 ≤ i * i := mul_self_nonneg i
  rw [isPrimeLoop, if_pos ⟨by omega, by omega⟩, if_pos hle, if_pos (Int.tmod_eq_zero_of_dvd hdvd)]

theorem isPrimeLoop_overflow (hlarge : 46341 ≤ i) : isPrimeLoop x i = .error .overflow := by
  have hsquare : 46341 * 46341 ≤ i * i := mul_le_mul hlarge hlarge (by omega) (by omega)
  rw [isPrimeLoop, if_neg]
  rintro ⟨-, hlt⟩
  omega

theorem isPrimeLoop_next (hx : x < 2 ^ 31) (hi : 3 ≤ i) (hle : i * i ≤ x) (hdvd : ¬i ∣ x) :
    isPrimeLoop x i = isPrimeLoop x (i + 2) := by
  have hself : 3 * i ≤ i * i := mul_le_mul_of_nonneg_right hi (by omega)
  rw [isPrimeLoop, if_pos ⟨by omega, by omega⟩, if_pos hle,
    if_neg fun h ↦ hdvd (Int.dvd_of_tmod_eq_zero h), if_pos ⟨by omega, by omega⟩]

/-- Odd numbers that do not divide `x` are passed over. -/
theorem isPrimeLoop_skip (hx : x < 2 ^ 31) (k : ℕ)
    (h : ∀ j : ℕ, j < k → ((3 + 2 * j : ℕ) : ℤ) * (3 + 2 * j : ℕ) ≤ x ∧
      ¬((3 + 2 * j : ℕ) : ℤ) ∣ x) :
    isPrime x = isPrimeLoop x (3 + 2 * k : ℕ) := by
  induction k with
  | zero => rfl
  | succ k ih =>
    obtain ⟨hle, hdvd⟩ := h k (Nat.lt_succ_self k)
    rw [ih fun j hj ↦ h j (by omega), isPrimeLoop_next hx (by omega) hle hdvd]
    congr 1

theorem nextPrimeLoop_found (h : isPrime i = .ok true) : nextPrimeLoop i = .ok i := by
  rw [nextPrimeLoop, h]
  rfl

theorem nextPrimeLoop_error {e : Fault} (h : isPrime i = .error e) :
    nextPrimeLoop i = .error e := by
  rw [nextPrimeLoop, h]
  rfl

theorem nextPrimeLoop_next (h : isPrime i = .ok false) (hint : InInt (i + 2)) :
    nextPrimeLoop i = nextPrimeLoop (i + 2) := by
  rw [nextPrimeLoop, h, Lib.ok_bind, if_neg Bool.false_ne_true, if_pos hint]

/-- Odd numbers that are found not to be primes are passed over. -/
theorem nextPrimeLoop_skip (hi : 0 ≤ i) (k : ℕ) (hint : i + 2 * k < 2 ^ 31)
    (h : ∀ j : ℕ, j < k → isPrime (i + 2 * j) = .ok false) :
    nextPrimeLoop i = nextPrimeLoop (i + 2 * k) := by
  induction k with
  | zero => rw [Nat.cast_zero, mul_zero, add_zero]
  | succ k ih =>
    rw [ih (by omega) fun j hj ↦ h j (by omega),
      nextPrimeLoop_next (h k (Nat.lt_succ_self k)) ⟨by omega, by omega⟩]
    congr 1
    omega

/-- What is returned is an `int`. -/
theorem nextPrimeLoop_lt (hi : i < 2 ^ 31) (h : nextPrimeLoop i = .ok p) : p < 2 ^ 31 := by
  induction i using nextPrimeLoop.induct with
  | case1 i ih =>
    rw [nextPrimeLoop] at h
    obtain ⟨b, -, hrest⟩ := Lib.bind_eq_ok.mp h
    split at hrest
    · rw [← Except.ok.inj hrest]
      exact hi
    · split at hrest
      · rename_i hnext
        exact ih hnext hnext.2 hrest
      · cases hrest

end Loops

/-! ## Odd numbers -/

section Odd

variable {n : ℕ}

theorem not_two_dvd (hodd : n % 2 = 1) : ¬2 ∣ n := by omega

/-- A number that is not a prime has a divisor up to its square root. -/
theorem isPrime_composite (hodd : n % 2 = 1) (h3 : 3 ≤ n) (hint : n < 2 ^ 31) (hn : ¬n.Prime) :
    isPrime n = .ok false := by
  have hdvd := Nat.minFac_dvd n
  have hsquare := Nat.minFac_sq_le_self (by omega) hn
  have hprime : n.minFac.Prime := Nat.minFac_prime (by omega)
  have hne : n.minFac ≠ 2 := fun h ↦ not_two_dvd hodd (h ▸ hdvd)
  obtain ⟨k, hk⟩ : ∃ k, n.minFac = 3 + 2 * k := by
    have htwo := hprime.two_le
    have hfac := hprime.eq_two_or_odd.resolve_left hne
    exact ⟨(n.minFac - 3) / 2, by omega⟩
  rw [sq, hk] at hsquare
  rw [hk] at hdvd
  rw [isPrimeLoop_skip (by omega) k fun j hj ↦ ?_]
  · exact isPrimeLoop_divides (by omega) (by exact_mod_cast hsquare) (by exact_mod_cast hdvd)
  · have hle : (3 + 2 * j) * (3 + 2 * j) ≤ (3 + 2 * k) * (3 + 2 * k) :=
      Nat.mul_le_mul (by omega) (by omega)
    refine ⟨by exact_mod_cast hle.trans hsquare, fun h ↦ ?_⟩
    have hmin := Nat.minFac_le_of_dvd (by omega) (Int.natCast_dvd_natCast.mp h)
    omega

/-- The numbers up to the square root do not divide a prime. -/
theorem passed_of_prime (hn : n.Prime) {d : ℕ} (h3 : 3 ≤ d) (hle : d * d ≤ n) :
    (d : ℤ) * d ≤ n ∧ ¬(d : ℤ) ∣ n := by
  refine ⟨by exact_mod_cast hle, fun h ↦ ?_⟩
  rcases (Nat.dvd_prime hn).mp (Int.natCast_dvd_natCast.mp h) with hone | rfl
  · omega
  · have hself : 3 * d ≤ d * d := Nat.mul_le_mul_right d h3
    omega

/-- The loop gets to an odd number whose square is above the prime. -/
theorem isPrime_prime (hn : n.Prime) (hsmall : n < 46339 ^ 2) : isPrime n = .ok true := by
  have hex : ∃ k, n < (3 + 2 * k) * (3 + 2 * k) := ⟨n, by nlinarith⟩
  classical
  have habove := Nat.find_spec hex
  have hbelow (j : ℕ) (hj : j < Nat.find hex) : (3 + 2 * j) * (3 + 2 * j) ≤ n :=
    not_lt.mp (Nat.find_min hex hj)
  generalize Nat.find hex = k at habove hbelow
  have hk : 3 + 2 * k ≤ 46339 := by
    by_contra hlarge
    have hlast := hbelow (k - 1) (by omega)
    have hle : 46339 * 46339 ≤ (3 + 2 * (k - 1)) * (3 + 2 * (k - 1)) :=
      Nat.mul_le_mul (by omega) (by omega)
    omega
  have hsquare : (3 + 2 * k) * (3 + 2 * k) ≤ 46339 * 46339 := Nat.mul_le_mul hk hk
  rw [isPrimeLoop_skip (by omega) k fun j hj ↦ passed_of_prime hn (by omega) (hbelow j hj)]
  refine isPrimeLoop_stop ⟨?_, ?_⟩ (by exact_mod_cast habove)
  · have hnonneg := mul_self_nonneg ((3 + 2 * k : ℕ) : ℤ)
    omega
  · have hcast : ((3 + 2 * k : ℕ) : ℤ) * (3 + 2 * k : ℕ) ≤ 46339 * 46339 := by
      exact_mod_cast hsquare
    omega

/-- The square of `46341` is not an `int`. -/
theorem isPrime_large (hn : n.Prime) (hlarge : 46339 ^ 2 ≤ n) (hint : n < 2 ^ 31) :
    isPrime n = .error .overflow := by
  rw [isPrimeLoop_skip (by omega) 23169 fun j hj ↦ passed_of_prime hn (by omega) ?_]
  · exact isPrimeLoop_overflow (by omega)
  · have hle : (3 + 2 * j) * (3 + 2 * j) ≤ 46339 * 46339 := Nat.mul_le_mul (by omega) (by omega)
    omega

/-- A number below `3` is taken for a prime. -/
theorem isPrime_small {x : ℤ} (hx : x < 9) : isPrime x = .ok true :=
  isPrimeLoop_stop (by decide) hx

end Odd

/-! ## The next prime -/

section Next

variable {x p : ℤ}

/-- The primes that are not below `x`. -/
def primesFrom (x : ℤ) : Set ℤ := {y | x ≤ y ∧ y.toNat.Prime}

theorem natCast_mem_primesFrom {n : ℕ} : (n : ℤ) ∈ primesFrom x ↔ x ≤ n ∧ n.Prime := Iff.rfl

/-- A prime among the integers is one of the natural numbers. -/
theorem exists_of_mem_primesFrom (h : p ∈ primesFrom x) : ∃ n : ℕ, p = n ∧ x ≤ n ∧ n.Prime := by
  have htwo := h.2.two_le
  have hp : p = p.toNat := by omega
  exact ⟨p.toNat, hp, hp ▸ h.1, h.2⟩

theorem nextPrime_eq (h : InInt (x - 1)) : nextPrime x = nextPrimeImpl (x - 1) := by
  rw [nextPrime, int_eq h, Lib.ok_bind]

theorem nextPrimeImpl_eq {i : ℤ} (h0 : x ≠ 0) (h1 : x ≠ 1) (h2 : x ≠ 2)
    (hi : (if x.tmod 2 = 0 then x + 1 else x + 2) = i) (hint : InInt i) :
    nextPrimeImpl x = nextPrimeLoop i := by
  rw [nextPrimeImpl, if_neg h0, if_neg h1, if_neg h2, hi, int_eq hint, Lib.ok_bind]

/-- What is returned is an `int`. -/
theorem nextPrime_lt (h : nextPrime x = .ok p) : p < 2 ^ 31 := by
  obtain ⟨x', -, himpl⟩ := Lib.bind_eq_ok.mp h
  rw [nextPrimeImpl] at himpl
  split at himpl
  · rw [← Except.ok.inj himpl]
    decide
  split at himpl
  · rw [← Except.ok.inj himpl]
    decide
  split at himpl
  · rw [← Except.ok.inj himpl]
    decide
  · obtain ⟨i, hi, hloop⟩ := Lib.bind_eq_ok.mp himpl
    exact nextPrimeLoop_lt (inInt_of_int_eq_ok hi).2 hloop

/-- An argument that is not positive leads to a number that is below the primes. -/
theorem nextPrime_nonpos (hx : x ≤ 0) (h : nextPrime x = .ok p) : p ≤ 1 := by
  by_cases hint : InInt (x - 1)
  · have hlow := hint.1
    obtain ⟨i, hi⟩ : ∃ i, (if (x - 1).tmod 2 = 0 then x - 1 + 1 else x - 1 + 2) = i := ⟨_, rfl⟩
    have hle : i ≤ 1 ∧ x ≤ i := by
      rw [← hi]
      split <;> omega
    rw [nextPrime_eq hint, nextPrimeImpl_eq (by omega) (by omega) (by omega) hi
      ⟨by omega, by omega⟩, nextPrimeLoop_found (isPrime_small (by omega))] at h
    rw [← Except.ok.inj h]
    exact hle.1
  · rw [nextPrime, int_eq_error hint] at h
    cases h

/-- The search begins with an odd number. -/
theorem nextPrime_start {m : ℕ} (hm : 4 ≤ m) (hint : m < 2 ^ 31) :
    ∃ c : ℕ, nextPrime m = nextPrimeLoop c ∧ c % 2 = 1 ∧ m ≤ c ∧ c ≤ m + 1 := by
  have htmod : ((m : ℤ) - 1).tmod 2 = ((m - 1 : ℕ) % 2 : ℕ) := by
    rw [Int.tmod_eq_emod_of_nonneg (by omega)]
    omega
  rcases Nat.mod_two_eq_zero_or_one m with heven | hodd
  · refine ⟨m + 1, ?_, by omega, by omega, le_rfl⟩
    rw [nextPrime_eq ⟨by omega, by omega⟩]
    refine nextPrimeImpl_eq (by omega) (by omega) (by omega) ?_ ⟨by omega, by omega⟩
    rw [if_neg (by omega)]
    omega
  · refine ⟨m, ?_, hodd, le_rfl, by omega⟩
    rw [nextPrime_eq ⟨by omega, by omega⟩]
    refine nextPrimeImpl_eq (by omega) (by omega) (by omega) ?_ ⟨by omega, by omega⟩
    rw [if_pos (by omega)]
    omega

/-- From `4` on, the search ends at the next prime, if it is an `int`, and the square is one,
too. -/
theorem nextPrime_of_least {m n : ℕ} (hm : 4 ≤ m) (hn : n.Prime) (hle : m ≤ n) (hint : n < 2 ^ 31)
    (hmin : ∀ q, m ≤ q → q < n → ¬q.Prime) :
    nextPrime m = if n < 46339 ^ 2 then .ok (n : ℤ) else .error .overflow := by
  obtain ⟨c, hstart, hodd, hmc, hcm⟩ := nextPrime_start hm (by omega)
  have hnodd : n % 2 = 1 := hn.eq_two_or_odd.resolve_left (by omega)
  obtain ⟨k, rfl⟩ : ∃ k, n = c + 2 * k := ⟨(n - c) / 2, by omega⟩
  have hcomposite (j : ℕ) (hj : j < k) : isPrime ((c : ℤ) + 2 * j) = .ok false := by
    have h := isPrime_composite (n := c + 2 * j) (by omega) (by omega) (by omega)
        (hmin _ (by omega) (by omega))
    exact_mod_cast h
  rw [hstart, nextPrimeLoop_skip (by omega) k (by omega) hcomposite]
  have hcast : (c : ℤ) + 2 * k = (c + 2 * k : ℕ) := by push_cast; rfl
  rw [hcast]
  split
  · rename_i hsmall
    exact nextPrimeLoop_found (isPrime_prime hn hsmall)
  · rename_i hlarge
    exact nextPrimeLoop_error (isPrime_large hn (not_lt.mp hlarge) hint)

/-- For the first few numbers the result is written down. -/
theorem nextPrime_few (h1 : 1 ≤ x) (h3 : x ≤ 3) :
    ∃ p, nextPrime x = .ok p ∧ IsLeast (primesFrom x) p ∧ p ≤ 3 := by
  rw [nextPrime_eq ⟨by omega, by omega⟩]
  obtain rfl | rfl | rfl : x = 1 ∨ x = 2 ∨ x = 3 := by omega
  · refine ⟨2, rfl, ⟨⟨by omega, Nat.prime_two⟩, fun y hy ↦ ?_⟩, by omega⟩
    have htwo := hy.2.two_le
    omega
  · exact ⟨2, rfl, ⟨⟨by omega, Nat.prime_two⟩, fun y hy ↦ hy.1⟩, by omega⟩
  · exact ⟨3, rfl, ⟨⟨by omega, Nat.prime_three⟩, fun y hy ↦ hy.1⟩, by omega⟩

/-- **`NextPrime` finds the next prime if its argument is positive and the prime is below
`46339 ^ 2`, and for no other argument.** -/
theorem nextPrime_iff (x : ℤ) :
    (∃ p, nextPrime x = .ok p ∧ IsLeast (primesFrom x) p) ↔
      1 ≤ x ∧ ∃ y ∈ primesFrom x, y < 46339 ^ 2 := by
  constructor
  · rintro ⟨p, hp, hleast⟩
    have hpos : 1 ≤ x := by
      by_contra hx
      have hone := nextPrime_nonpos (by omega) hp
      have htwo := hleast.1.2.two_le
      omega
    refine ⟨hpos, p, hleast.1, ?_⟩
    rcases Int.lt_or_le 3 x with hlarge | hfew
    · obtain ⟨m, rfl⟩ := Int.eq_ofNat_of_zero_le (show 0 ≤ x by omega)
      obtain ⟨n, rfl, hle, hn⟩ := exists_of_mem_primesFrom hleast.1
      have hlt := nextPrime_lt hp
      have hmin (q : ℕ) (hq : m ≤ q) (hqn : q < n) : ¬q.Prime := fun hprime ↦ by
        have h := hleast.2 (natCast_mem_primesFrom.mpr ⟨by omega, hprime⟩)
        omega
      rw [nextPrime_of_least (by omega) hn (by omega) (by omega) hmin] at hp
      split at hp
      · rename_i hsmall
        exact_mod_cast hsmall
      · cases hp
    · obtain ⟨q, hq, -, hle⟩ := nextPrime_few hpos hfew
      have heq : p = q := Except.ok.inj (hp.symm.trans hq)
      omega
  · rintro ⟨hpos, y, hy, hsmall⟩
    rcases Int.lt_or_le 3 x with hlarge | hfew
    · obtain ⟨m, rfl⟩ := Int.eq_ofNat_of_zero_le (show 0 ≤ x by omega)
      obtain ⟨n', rfl, hle', hn'⟩ := exists_of_mem_primesFrom hy
      have hex : ∃ n, m ≤ n ∧ n.Prime := ⟨n', by omega, hn'⟩
      classical
      have hspec := Nat.find_spec hex
      have hfind := Nat.find_min' hex ⟨(show m ≤ n' by omega), hn'⟩
      have hbelow (q : ℕ) (hq : m ≤ q) (hlt : q < Nat.find hex) : ¬q.Prime := fun hprime ↦
        Nat.find_min hex hlt ⟨hq, hprime⟩
      generalize Nat.find hex = n at hspec hfind hbelow
      have hn : n < 46339 ^ 2 := by omega
      refine ⟨n, ?_, natCast_mem_primesFrom.mpr ⟨by omega, hspec.2⟩, fun q hq ↦ ?_⟩
      · rw [nextPrime_of_least (by omega) hspec.2 hspec.1 (by omega) hbelow, if_pos hn]
      · obtain ⟨q, rfl, hle, hprime⟩ := exists_of_mem_primesFrom hq
        by_contra hlt
        exact hbelow q (by omega) (by omega) hprime
    · obtain ⟨p, hp, hleast, -⟩ := nextPrime_few hpos hfew
      exact ⟨p, hp, hleast⟩

/-- From `0` the search comes to `1`, and `1` has no divisor. -/
theorem nextPrime_zero :
    nextPrime 0 = .ok 1 ∧ (∃ y ∈ primesFrom 0, y < 2 ^ 31) ∧
      ¬∃ p, nextPrime 0 = .ok p ∧ IsLeast (primesFrom 0) p := by
  refine ⟨?_, ⟨2, ⟨by omega, Nat.prime_two⟩, by omega⟩, ?_⟩
  · rw [nextPrime_eq (by decide), nextPrimeImpl_eq (by decide) (by decide) (by decide) rfl
      (by decide)]
    exact nextPrimeLoop_found (isPrime_small (by decide))
  · rintro ⟨p, hp, hleast⟩
    have hone := nextPrime_nonpos (Int.le_refl 0) hp
    have htwo := hleast.1.2.two_le
    omega

end Next

end CompileEval
end ManyTasks
