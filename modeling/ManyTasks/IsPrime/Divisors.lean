import ManyTasks.IsPrime.IsPrime

/-!
# A divisor is found if there is one

Every number up to the bound is one of exactly one thread (`exists_unique_has`), and when all
threads have finished the flag says whether one of the numbers divides `x` (`Inv.outcome`).  All of
them finish, as every step brings a thread nearer to its end (`State.left`).

The bound is above the square root, so a number without a divisor below it is a prime; and it is not
above `x`, so that a divisor is not `x` itself.
-/

set_option autoImplicit false

namespace ManyTasks
namespace IsPrime

open Function (update update_self update_of_ne)

variable {x root : ℕ} {tasks : Tasks}

/-- The number is one of those of the thread. -/
def Tasks.Has (tasks : Tasks) (t : Fin tasks.threads) (c : ℕ) : Prop :=
  tasks.l_bound t ≤ c ∧ c < tasks.r_bound t

/-- The numbers the thread has before `i` have been tried in vain. -/
def Tasks.InVain (tasks : Tasks) (x : ℕ) (t : Fin tasks.threads) (i : ℕ) : Prop :=
  ∀ c, tasks.l_bound t ≤ c → c < i → ¬c ∣ x

/-- What is true of a thread at a place. -/
def Place.Fits (x : ℕ) (t : Fin tasks.threads) (is_not_prime : Bool) : Place → Prop
  | .testing i | .dividing i => tasks.Has t i ∧ (is_not_prime = false → tasks.InVain x t i)
  | .setting => ∃ c, tasks.Has t c ∧ c ∣ x
  | .finished => is_not_prime = false → tasks.InVain x t (tasks.r_bound t)

/-- The threads, and what the flag says. -/
structure Inv (x : ℕ) (s : State tasks) : Prop where
  fits : ∀ t, (s.places t).Fits x t s.is_not_prime
  found : s.is_not_prime = true → ∃ t c, tasks.Has t c ∧ c ∣ x

section Steps

variable {s s' : State tasks} {t : Fin tasks.threads} {p : Place}

/-- The condition of the loop leads to where a thread should be. -/
theorem fits_loop {i : ℕ} {is_not_prime : Bool} (hi : tasks.l_bound t ≤ i)
    (hvain : is_not_prime = false → tasks.InVain x t i) :
    (loop (tasks.r_bound t) i).Fits x t is_not_prime := by
  unfold loop
  split
  · rename_i hlt
    exact ⟨⟨hi, hlt⟩, hvain⟩
  · rename_i hge
    exact fun hflag c hc hlt ↦ hvain hflag c hc (hlt.trans_le (not_lt.mp hge))

theorem inv_start (x : ℕ) (tasks : Tasks) : Inv x (start tasks) where
  fits _ := fits_loop (Nat.le_refl _) fun _ _ hc hlt ↦ absurd hlt (not_lt.mpr hc)
  found h := by cases h

/-- A thread goes on, and the flag is as before. -/
theorem Inv.go (hinv : Inv x s) (hp : p.Fits x t s.is_not_prime) : Inv x (s.go t p) where
  fits := (Function.forall_update_iff s.places fun t q ↦ q.Fits x t s.is_not_prime).mpr
    ⟨hp, fun t' _ ↦ hinv.fits t'⟩
  found := hinv.found

/-- When the flag is set nobody claims any more that there is nothing. -/
theorem Place.Fits.set {b : Bool} (h : p.Fits x t b) : p.Fits x t true := by
  cases p with
  | testing i => exact ⟨h.1, fun hflag ↦ by cases hflag⟩
  | dividing i => exact ⟨h.1, fun hflag ↦ by cases hflag⟩
  | setting => exact h
  | finished => exact fun hflag ↦ by cases hflag

/-- The counter of the loop does not wrap. -/
theorem uint64_succ {i r : ℕ} (hlt : i < r) (hr : r < 2 ^ 64) : uint64 (i + 1) = i + 1 :=
  Nat.mod_eq_of_lt (by omega)

theorem Inv.step (hr : ∀ t, tasks.r_bound t < 2 ^ 64) (hinv : Inv x s) (hstep : Step x s s') :
    Inv x s' := by
  cases hstep with
  | test t i h hflag =>
    have hfits := hinv.fits t
    rw [h] at hfits
    exact hinv.go hfits
  | stop t i h hflag =>
    refine hinv.go fun hnot ↦ ?_
    cases hflag.symm.trans hnot
  | found t i h hdiv =>
    have hfits := hinv.fits t
    rw [h] at hfits
    exact hinv.go ⟨i, hfits.1, Nat.dvd_of_mod_eq_zero hdiv⟩
  | next t i h hdiv =>
    have hfits := hinv.fits t
    rw [h] at hfits
    obtain ⟨hhas, hvain⟩ := hfits
    rw [uint64_succ hhas.2 (hr t)]
    refine hinv.go (fits_loop (hhas.1.trans (Nat.le_succ i)) fun hflag c hc hlt ↦ ?_)
    rcases Nat.lt_succ_iff_lt_or_eq.mp hlt with hlt | rfl
    · exact hvain hflag c hc hlt
    · exact fun hdvd ↦ hdiv (Nat.mod_eq_zero_of_dvd hdvd)
  | testAndSet t h =>
    have hfits := hinv.fits t
    rw [h] at hfits
    have hset : Inv x { s with is_not_prime := true } :=
      ⟨fun t' ↦ (hinv.fits t').set, fun _ ↦ ⟨t, hfits⟩⟩
    exact hset.go fun hnot ↦ by cases hnot

/-- What the flag says when all threads have finished. -/
theorem Inv.outcome (hinv : Inv x s) (hjoined : s.Joined) :
    s.is_not_prime = true ↔ ∃ t c, tasks.Has t c ∧ c ∣ x := by
  refine ⟨hinv.found, fun ⟨t, c, hc, hdvd⟩ ↦ ?_⟩
  cases hflag : s.is_not_prime with
  | true => rfl
  | false =>
    have hfits := hinv.fits t
    rw [hjoined t] at hfits
    exact absurd hdvd (hfits hflag c hc.1 hc.2)

/-! ## All threads finish -/

/-- How far a thread is from its end. -/
def Place.left (r_bound : ℕ) : Place → ℕ
  | .testing i => 2 * (r_bound - i) + 3
  | .dividing i => 2 * (r_bound - i) + 2
  | .setting => 1
  | .finished => 0

def State.left (s : State tasks) : ℕ := ∑ t, (s.places t).left (tasks.r_bound t)

/-- A thread comes nearer to its end, and the others stay where they are. -/
theorem left_lt_of_places (hs' : s'.places = update s.places t p)
    (hp : p.left (tasks.r_bound t) < (s.places t).left (tasks.r_bound t)) : s'.left < s.left := by
  rw [State.left, hs']
  exact Lib.sum_update_lt (μ := fun t ↦ Place.left (tasks.r_bound t)) hp

theorem left_loop_lt (r i : ℕ) : (loop r (i + 1)).left r < (Place.dividing i).left r := by
  unfold loop
  split
  · simp only [Place.left]
    omega
  · simp [Place.left]

theorem Step.left_lt (hr : ∀ t, tasks.r_bound t < 2 ^ 64) (hinv : Inv x s) (hstep : Step x s s') :
    s'.left < s.left := by
  cases hstep with
  | next t i h hdiv =>
    have hfits := hinv.fits t
    rw [h] at hfits
    refine left_lt_of_places rfl ?_
    rw [h, uint64_succ hfits.1.2 (hr t)]
    exact left_loop_lt _ i
  | test t i h hflag | stop t i h hflag | found t i h hdiv | testAndSet t h =>
    refine left_lt_of_places rfl ?_
    rw [h]
    simp [Place.left]

/-- A thread that has not finished can go on. -/
theorem exists_step (x : ℕ) (ht : s.places t ≠ .finished) : ∃ s', Step x s s' := by
  cases h : s.places t with
  | testing i =>
    cases hflag : s.is_not_prime with
    | false => exact ⟨_, .test t i h hflag⟩
    | true => exact ⟨_, .stop t i h hflag⟩
  | dividing i =>
    by_cases hdiv : x % i = 0
    · exact ⟨_, .found t i h hdiv⟩
    · exact ⟨_, .next t i h hdiv⟩
  | setting => exact ⟨_, .testAndSet t h⟩
  | finished => exact absurd h ht

/-- **Whatever the threads do first, all of them finish**, and the flag says whether a divisor is
among the numbers they have. -/
theorem search_finishes (hr : ∀ t, tasks.r_bound t < 2 ^ 64) :
    Lib.Inevitable (Step x)
      (fun s ↦ s.Joined ∧ (s.is_not_prime = true ↔ ∃ t c, tasks.Has t c ∧ c ∣ x))
        (start tasks) := by
  have hjoined : Lib.Inevitable (Step x) (fun s ↦ s.Joined ∧ Inv x s) (start tasks) :=
    .of_workers State.left (fun s s' hinv hstep ↦ ⟨hinv.step hr hstep, hstep.left_lt hr hinv⟩)
      (fun _ _ _ ht ↦ exists_step x ht) (inv_start x tasks)
  exact hjoined.trans fun s hs ↦ .now ⟨hs.1, hs.2.outcome hs.1⟩

end Steps

/-! ## What the threads have -/

theorem lBound_eq {bound i : ℕ} (hbound : 2 ≤ bound) (hfits : bound < 2 ^ 64)
    (hi : i ≤ kThreadCnt) :
    lBound bound i = 2 + Lib.sharesBefore (bound - 2) kThreadCnt i := by
  induction i with
  | zero => simp [lBound]
  | succ i ih =>
    have hle := Lib.sharesBefore_le (n := bound - 2) hi (by decide)
    have hsucc := Lib.sharesBefore_succ (bound - 2) kThreadCnt i
    have hlen : intervalLen bound i = Lib.share (bound - 2) kThreadCnt i := rfl
    rw [lBound, ih (Nat.le_of_succ_le hi), hlen, uint64, Nat.mod_eq_of_lt] <;> omega

/-- The interval of a thread is its share of the numbers from 2 to the bound. -/
theorem has_iff {bound : ℕ} (hbound : 2 ≤ bound) (hfits : bound < 2 ^ 64) (i c : ℕ)
    (hi : i < kThreadCnt) :
    (lBound bound i ≤ c ∧ c < uint64 (lBound bound i + intervalLen bound i)) ↔
      2 ≤ c ∧ Lib.sharesBefore (bound - 2) kThreadCnt i ≤ c - 2 ∧
        c - 2 < Lib.sharesBefore (bound - 2) kThreadCnt (i + 1) := by
  have hnext : uint64 (lBound bound i + intervalLen bound i) = lBound bound (i + 1) := rfl
  rw [hnext, lBound_eq hbound hfits hi.le, lBound_eq (i := i + 1) hbound hfits hi]
  omega

/-- There is one thread, or there are sixteen. -/
theorem tasksUpTo_cases (bound : ℕ) : tasksUpTo bound = ⟨1, fun _ ↦ 2, fun _ ↦ bound⟩ ∨
    tasksUpTo bound = ⟨kThreadCnt, fun t ↦ lBound bound t,
      fun t ↦ uint64 (lBound bound t + intervalLen bound t)⟩ := by
  unfold tasksUpTo
  split
  · exact .inl rfl
  · exact .inr rfl

theorem r_bound_lt {bound : ℕ} (hfits : bound < 2 ^ 64) (t : Fin (tasksUpTo bound).threads) :
    (tasksUpTo bound).r_bound t < 2 ^ 64 := by
  revert t
  rcases tasksUpTo_cases bound with h | h
  · rw [h]
    exact fun _ ↦ hfits
  · rw [h]
    exact fun _ ↦ Nat.mod_lt _ (by decide)

/-- **The intervals are disjoint and cover the numbers from 2 to the bound.** -/
theorem exists_unique_has (bound : ℕ) (hbound : 2 ≤ bound) (hfits : bound < 2 ^ 64) (c : ℕ) :
    (2 ≤ c ∧ c < bound → ∃! t, (tasksUpTo bound).Has t c) ∧
      ∀ t, (tasksUpTo bound).Has t c → 2 ≤ c ∧ c < bound := by
  rcases tasksUpTo_cases bound with h | h
  · rw [h]
    exact ⟨fun hc ↦ ⟨0, hc, fun t _ ↦ Subsingleton.elim t 0⟩, fun _ hc ↦ hc⟩
  · rw [h]
    constructor
    · rintro ⟨htwo, hlt⟩
      obtain ⟨i, hi, hc⟩ := Lib.exists_share (k := kThreadCnt) (c := c - 2) (n := bound - 2)
        (by decide) (by omega)
      refine ⟨⟨i, hi⟩, (has_iff hbound hfits i c hi).mpr ⟨htwo, hc⟩, fun t ht ↦ Fin.ext ?_⟩
      exact Lib.share_unique ((has_iff hbound hfits t c t.isLt).mp ht).2 hc
    · intro t ht
      obtain ⟨htwo, -, hlt⟩ := (has_iff hbound hfits t c t.isLt).mp ht
      have hle : Lib.sharesBefore (bound - 2) kThreadCnt (t + 1) ≤ bound - 2 :=
        Lib.sharesBefore_le t.isLt (by decide)
      exact ⟨htwo, by omega⟩

/-! ## The main result -/

/-- A number without divisors below the bound is a prime. -/
theorem prime_iff (hx : 2 ≤ x) (hroot : Nat.sqrt x ≤ root + 5) (hfits : root + 6 < 2 ^ 64) :
    x.Prime ↔ ∀ c, 2 ≤ c → c < bound root x → ¬c ∣ x := by
  have hbound : bound root x = min (root + 6) x := by rw [bound, uint64, Nat.mod_eq_of_lt hfits]
  constructor
  · intro hprime c htwo hlt
    exact (Nat.prime_def_lt'.mp hprime).2 c htwo (by omega)
  · intro hnone
    by_contra hcomposite
    -- the least divisor is not above the square root, and it is not `x`
    have hpos : 0 < x := by omega
    have hsq := Nat.minFac_sq_le_self hpos hcomposite
    have hle : x.minFac ≤ Nat.sqrt x := Nat.le_sqrt'.mpr hsq
    have hprime : x.minFac.Prime := Nat.minFac_prime (by omega)
    have hlt : x.minFac < x := (Nat.not_prime_iff_minFac_lt hx).mp hcomposite
    exact hnone _ hprime.two_le (by omega) (Nat.minFac_dvd x)

/-- Whoever divides has a number of its own to divide by. -/
theorem Inv.has_of_dividing {s : State tasks} (hinv : Inv x s) {t : Fin tasks.threads} {i : ℕ}
    (ht : s.places t = .dividing i) : tasks.Has t i := by
  have hfits := hinv.fits t
  rw [ht] at hfits
  exact hfits.1

/-- **Whatever the threads do first, `isPrime` says whether `x` is a prime.**  The intervals of the
threads are disjoint and cover the numbers from 2 to the bound, and no thread divides by 0 or by
`x`. -/
theorem isPrime_correct (root x : ℕ) (hx : x < 2 ^ 64) (hroot : Nat.sqrt x ≤ root + 5)
    (hfits : root + 6 < 2 ^ 64) :
    isPrime root x (fun b ↦ b = true ↔ x.Prime) ∧
      (2 ≤ x → ∀ c, (2 ≤ c ∧ c < bound root x → ∃! t, (tasksUpTo (bound root x)).Has t c) ∧
        ∀ t, (tasksUpTo (bound root x)).Has t c → 2 ≤ c ∧ c < bound root x) ∧
      (2 ≤ x → ∀ s, Relation.ReflTransGen (Step x) (start (tasksUpTo (bound root x))) s →
        ∀ t i, s.places t = .dividing i → i ≠ 0 ∧ i ≠ x) := by
  have hbound : bound root x = min (root + 6) x := by rw [bound, uint64, Nat.mod_eq_of_lt hfits]
  have hlt : bound root x < 2 ^ 64 := by omega
  have hcover (htwo : 2 ≤ x) (c : ℕ) := exists_unique_has (bound root x) (by omega) hlt c
  refine ⟨?_, hcover, fun htwo s hrun t i ht ↦ ?_⟩
  · unfold isPrime
    split
    · rename_i hsmall
      have hnot : ¬x.Prime := fun hprime ↦ by
        have := hprime.two_le
        omega
      simp [hnot]
    · rename_i hge
      have htwo : 2 ≤ x := not_lt.mp hge
      refine (search_finishes (r_bound_lt hlt)).trans fun s hs ↦ .now ⟨hs.1, ?_⟩
      change (!s.is_not_prime) = true ↔ x.Prime
      rw [Bool.not_eq_true', ← Bool.not_eq_true, hs.2, prime_iff htwo hroot hfits]
      constructor
      · intro hnone c hc hclt hdvd
        obtain ⟨t, ht, -⟩ := (hcover htwo c).1 ⟨hc, hclt⟩
        exact hnone ⟨t, c, ht, hdvd⟩
      · rintro hnone ⟨t, c, hc, hdvd⟩
        obtain ⟨hge, hclt⟩ := (hcover htwo c).2 t hc
        exact hnone c hge hclt hdvd
  · have hinv : Inv x s :=
      Lib.invariant_of_step hrun (inv_start x _) fun _ _ hinv ↦ hinv.step (r_bound_lt hlt)
    have hi := (hcover htwo i).2 t (hinv.has_of_dividing ht)
    omega

/-- The square of 167, with a root that is too small: sixteen threads divide, and the only divisor
is the last number of the last one. -/
theorem isPrime_correct_square : (tasksUpTo (bound 162 27889)).threads = 16 ∧
    isPrime 162 27889 (fun b ↦ b = true ↔ Nat.Prime 27889) := by
  have hsqrt : Nat.sqrt 27889 ≤ 162 + 5 := Nat.le_of_lt_succ (Nat.sqrt_lt.mpr (by decide))
  exact ⟨rfl, (isPrime_correct 162 27889 (by decide) hsqrt (by decide)).1⟩

end IsPrime
end ManyTasks
