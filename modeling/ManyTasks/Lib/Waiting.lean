import Mathlib.Data.Set.Card
import Mathlib.Logic.Function.Basic

/-!
# Threads that sleep and are woken

A system of threads is described by the place in the code at which each of them is, `at θ`.  Some
places are those of a thread that sleeps.  What wakes it is a function `wake : P → Option P`, the
place where a thread goes on that is asleep there; other places it leaves alone.  There is one such
function for every condition variable.

* `NotifyOne` wakes one of the threads that sleep, any of them, and nobody if none does.
* `notifyAll` wakes them all.

A mutex is held by the threads at certain places, and says by which one (`Owned`).

The number of threads at certain places is the cardinality of a set, which is finite in every state
that matters; `Counted` says which number it is.

Where there are several mutexes, everybody takes them in the same order.  Then not everybody waits
(`exists_unblocked`).
-/

set_option autoImplicit false

namespace ManyTasks
namespace Lib

open Function (update)

variable {Θ P : Type}

/-- All that sleep go on. -/
def notifyAll (wake : P → Option P) (f : Θ → P) : Θ → P := fun θ ↦ (wake (f θ)).getD (f θ)

/-- One of those that sleep goes on, if there are any. -/
inductive NotifyOne [DecidableEq Θ] (wake : P → Option P) (f : Θ → P) : (Θ → P) → Prop where
  | nobody (h : ∀ θ, wake (f θ) = none) : NotifyOne wake f f
  | one (θ : Θ) (p : P) (h : wake (f θ) = some p) : NotifyOne wake f (update f θ p)

theorem notifyAll_of_none {wake : P → Option P} {f : Θ → P} {θ : Θ} (h : wake (f θ) = none) :
    notifyAll wake f θ = f θ := by
  rw [notifyAll, h, Option.getD_none]

theorem notifyAll_of_some {wake : P → Option P} {f : Θ → P} {θ : Θ} {p : P}
    (h : wake (f θ) = some p) : notifyAll wake f θ = p := by
  rw [notifyAll, h, Option.getD_some]

/-- Nobody does anything else by a notification than to wake up. -/
theorem NotifyOne.apply [DecidableEq Θ] {wake : P → Option P} {f f' : Θ → P}
    (h : NotifyOne wake f f') (θ : Θ) : f' θ = f θ ∨ wake (f θ) = some (f' θ) := by
  cases h with
  | nobody => exact .inl rfl
  | one θ' p hp =>
    by_cases hθ : θ = θ'
    · subst hθ
      rw [Function.update_self]
      exact .inr hp
    · exact .inl (Function.update_of_ne hθ _ _)

theorem notifyAll_apply (wake : P → Option P) (f : Θ → P) (θ : Θ) :
    notifyAll wake f θ = f θ ∨ wake (f θ) = some (notifyAll wake f θ) := by
  cases hwake : wake (f θ) with
  | none => exact .inl (notifyAll_of_none hwake)
  | some p => exact .inr (by rw [notifyAll_of_some hwake])

/-! ## A mutex -/

/-- A thread that is where the mutex is held is the one who holds it. -/
def Owned (holds : P → Bool) (f : Θ → P) (m : Option Θ) : Prop :=
  ∀ θ, holds (f θ) = true → m = some θ

section Owned

variable {holds : P → Bool} {f : Θ → P} {m : Option Θ} {θ : Θ} {p : P}

theorem Owned.unique {θ' : Θ} (h : Owned holds f m) (hθ : holds (f θ) = true)
    (hθ' : holds (f θ') = true) : θ = θ' :=
  Option.some.inj ((h θ hθ).symm.trans (h θ' hθ'))

theorem Owned.congr {f' : Θ → P} (h : Owned holds f m) (hf : ∀ θ, holds (f' θ) = holds (f θ)) :
    Owned holds f' m :=
  fun θ hθ ↦ h θ ((hf θ).symm.trans hθ)

variable [DecidableEq Θ]

/-- A thread that does not take the mutex. -/
theorem Owned.move (h : Owned holds f m) (hp : holds p = true → holds (f θ) = true) :
    Owned holds (update f θ p) m := by
  intro θ' hθ'
  by_cases hne : θ' = θ
  · subst hne
    rw [Function.update_self] at hθ'
    exact h θ' (hp hθ')
  · rw [Function.update_of_ne hne] at hθ'
    exact h θ' hθ'

/-- A thread that takes the mutex when it is free. -/
theorem Owned.take (h : Owned holds f none) : Owned holds (update f θ p) (some θ) := by
  intro θ' hθ'
  by_cases hne : θ' = θ
  · rw [hne]
  · rw [Function.update_of_ne hne] at hθ'
    cases h θ' hθ'

/-- The holder gives the mutex back. -/
theorem Owned.drop (h : Owned holds f m) (hθ : holds (f θ) = true) (hp : holds p = false) :
    Owned holds (update f θ p) none := by
  intro θ' hθ'
  by_cases hne : θ' = θ
  · subst hne
    rw [Function.update_self, hp] at hθ'
    cases hθ'
  · rw [Function.update_of_ne hne] at hθ'
    exact absurd (h.unique hθ' hθ) hne

end Owned

/-! ## Counting -/

/-- The number of threads at places with `q`. -/
def Counted (q : P → Bool) (f : Θ → P) (n : ℕ) : Prop := {θ | q (f θ) = true}.encard = n

section Counted

variable {q : P → Bool} {f : Θ → P} {n : ℕ}

theorem Counted.encard (h : Counted q f n) : {θ | q (f θ) = true}.encard = n := h

theorem counted_zero : Counted q f 0 ↔ ∀ θ, q (f θ) = false := by
  rw [Counted, Nat.cast_zero, Set.encard_eq_zero, Set.eq_empty_iff_forall_notMem]
  exact forall_congr' fun θ ↦ iff_of_eq (Bool.not_eq_true _)

theorem Counted.pos (h : Counted q f n) {θ : Θ} (hθ : q (f θ) = true) : 0 < n := by
  rcases Nat.eq_zero_or_pos n with rfl | hn
  · rw [counted_zero.mp h θ] at hθ
    cases hθ
  · exact hn

theorem Counted.exists (h : Counted q f n) (hn : 0 < n) : ∃ θ, q (f θ) = true := by
  by_contra hnone
  simp only [not_exists, Bool.not_eq_true] at hnone
  have hzero := h.symm.trans (counted_zero.mpr hnone)
  rw [Nat.cast_inj] at hzero
  omega

/-- If there is only one, there are no two. -/
theorem Counted.unique (h : Counted q f n) (hn : n ≤ 1) {θ θ' : Θ} (hθ : q (f θ) = true)
    (hθ' : q (f θ') = true) : θ = θ' := by
  have hle : {θ | q (f θ) = true}.encard ≤ 1 := by
    rw [h.encard]
    exact_mod_cast hn
  exact Set.encard_le_one_iff.mp hle θ θ' hθ hθ'

theorem Counted.card_filter [Fintype Θ] (h : Counted q f n) :
    (Finset.univ.filter fun θ ↦ q (f θ)).card = n := by
  have hset := h.encard
  rw [← Finset.coe_filter_univ, Set.encard_coe_eq_coe_finsetCard, Nat.cast_inj] at hset
  exact hset

/-- A thread that is not counted is one of those there are. -/
theorem Counted.lt_card [Fintype Θ] (h : Counted q f n) {θ : Θ} (hθ : q (f θ) = false) :
    n < Fintype.card Θ := by
  rw [← h.card_filter]
  exact Finset.card_lt_univ_of_notMem (x := θ) (by simp [hθ])

theorem Counted.congr {f' : Θ → P} (h : Counted q f n) (hf : ∀ θ, q (f' θ) = q (f θ)) :
    Counted q f' n := by
  simp only [Counted, hf]
  exact h

variable [DecidableEq Θ] {θ : Θ} {p : P}

/-- A thread that comes. -/
theorem Counted.enter (h : Counted q f n) (hθ : q (f θ) = false) (hp : q p = true) :
    Counted q (update f θ p) (n + 1) := by
  have heq : {θ' | q (update f θ p θ') = true} = insert θ {θ' | q (f θ') = true} := by
    ext θ'
    by_cases hne : θ' = θ
    · subst hne
      simp [hp]
    · simp [hne]
  have hmem : θ ∉ {θ' | q (f θ') = true} := by simp [hθ]
  rw [Counted, heq, Set.encard_insert_of_notMem hmem, h.encard]
  rfl

/-- A thread that leaves. -/
theorem Counted.leave (h : Counted q f (n + 1)) (hθ : q (f θ) = true) (hp : q p = false) :
    Counted q (update f θ p) n := by
  have heq : {θ' | q (update f θ p θ') = true} = {θ' | q (f θ') = true} \ {θ} := by
    ext θ'
    by_cases hne : θ' = θ
    · subst hne
      simp [hp]
    · simp [hne]
  have hmem : θ ∈ {θ' | q (f θ') = true} := hθ
  rw [Counted, heq, Set.encard_sdiff_singleton_of_mem hmem, h.encard]
  rfl

/-- **A thread that goes on.**  The number changes by what the place before and the place after
count. -/
theorem Counted.update {n' : ℕ} (h : Counted q f n)
    (hn : n' + (q (f θ)).toNat = n + (q p).toNat) : Counted q (update f θ p) n' := by
  by_cases hsame : q (f θ) = q p
  · rw [hsame] at hn
    rw [Nat.add_right_cancel hn]
    refine h.congr fun θ' ↦ ?_
    by_cases hne : θ' = θ
    · subst hne
      rw [Function.update_self, hsame]
    · rw [Function.update_of_ne hne]
  · cases hold : q (f θ) with
    | false =>
      have hnew : q p = true := by simpa [hold] using hsame
      rw [hold, hnew] at hn
      obtain rfl : n' = n + 1 := hn
      exact h.enter hold hnew
    | true =>
      have hnew : q p = false := by simpa [hold] using hsame
      rw [hold, hnew] at hn
      obtain rfl : n = n' + 1 := hn.symm
      exact h.leave hold hnew

end Counted

/-! ## Several mutexes -/

/-- **Not everybody waits** if whoever waits for a mutex has only mutexes that come before it.
Somebody who waits does so for one who does not, or for a mutex that nobody has. -/
theorem exists_unblocked {owner : ℕ → Option Θ} {wants : Θ → Option ℕ} {n : ℕ}
    (horder : ∀ i θ k, owner i = some θ → wants θ = some k → i < k)
    (hbound : ∀ θ k, wants θ = some k → k < n) (θ : Θ) :
    ∃ θ', (θ' = θ ∨ ∃ i, owner i = some θ') ∧ ∀ k, wants θ' = some k → owner k = none := by
  -- the mutexes that come after the one that is waited for
  induction hm : n - (wants θ).getD n using Nat.strong_induction_on generalizing θ with
  | _ m ih =>
    rcases hwants : wants θ with _ | k
    · exact ⟨θ, .inl rfl, by simp [hwants]⟩
    · rcases howner : owner k with _ | θ₁
      · exact ⟨θ, .inl rfl, by simpa [hwants] using howner⟩
      · have hlater : n - (wants θ₁).getD n < m := by
          have hk := hbound θ k hwants
          rw [hwants, Option.getD_some] at hm
          rcases hwants₁ : wants θ₁ with _ | k₁
          · rw [Option.getD_none]
            omega
          · have hkk₁ := horder k θ₁ k₁ howner hwants₁
            rw [Option.getD_some]
            omega
        obtain ⟨θ', hθ', hfree⟩ := ih _ hlater θ₁ rfl
        refine ⟨θ', .inr ?_, hfree⟩
        rcases hθ' with rfl | hθ'
        · exact ⟨k, howner⟩
        · exact hθ'

end Lib
end ManyTasks
