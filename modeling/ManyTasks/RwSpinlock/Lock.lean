import ManyTasks.Lib.Transition
import ManyTasks.Lib.Waiting
import Mathlib.Data.Set.Card
import Mathlib.Data.UInt

/-!
# A spinlock for readers and writers

The word `rw_lock_` has the flag of a writer in its lowest bit and the number of readers in the
others.  `LockRead` and `UnlockRead` add and subtract one reader by `compare_exchange_weak`.  They
compute the new word from a copy of the old one that may be out of date, but then the exchange
fails, and it may also fail for no reason.  What matters is that the copy `LockRead` compares with
has no flag, so that it cannot succeed while there is a writer (`Place.Fits`).

A thread gives back what it holds before it takes the lock again.
-/

set_option autoImplicit false

namespace ManyTasks
namespace RwSpinlock

open Function (update update_self update_of_ne)

/-- Where a thread is, and its variable `lock`. -/
inductive Place where
  | outside
  /-- In `LockRead`, before `compare_exchange_weak`. -/
  | lockRead (lock : UInt32)
  /-- `LockRead` has returned. -/
  | reading
  /-- In `UnlockRead`, before `compare_exchange_weak`. -/
  | unlockRead (lock : UInt32)
  /-- In `LockWrite`, before `compare_exchange_weak`. -/
  | lockWrite (lock : UInt32)
  /-- `LockWrite` has returned. -/
  | writing
deriving DecidableEq, Repr

/-- The thread holds the lock for reading, until `UnlockRead` has done its exchange. -/
def Place.reads : Place → Bool
  | .reading | .unlockRead _ => true
  | _ => false

/-- The thread holds the lock for writing. -/
def Place.writes : Place → Bool
  | .writing => true
  | _ => false

variable {Θ : Type}

/-- The lock and the threads. -/
structure State (Θ : Type) where
  rw_lock_ : UInt32
  places : Θ → Place

/-- The constructor. -/
def init : State Θ := ⟨0, fun _ ↦ .outside⟩

/-! ## The steps -/

/-- `(lock >> 1) << 1` -/
def withoutFlag (lock : UInt32) : UInt32 := (lock >>> 1) <<< 1

/-- `((lock >> 1) + 1) << 1` -/
def oneMore (lock : UInt32) : UInt32 := ((lock >>> 1) + 1) <<< 1

/-- `((lock >> 1) - 1) << 1` -/
def oneLess (lock : UInt32) : UInt32 := ((lock >>> 1) - 1) <<< 1

/-- What a thread can do: from a word and a place to others.  An exchange that fails leaves the word
in `lock`, with which the loop goes on. -/
inductive Move : UInt32 × Place → UInt32 × Place → Prop where
  | callLockRead (v) : Move (v, .outside) (v, .lockRead (withoutFlag v))
  | lockRead (lock) : Move (lock, .lockRead lock) (oneMore lock, .reading)
  | lockReadFails (v lock) : Move (v, .lockRead lock) (v, .lockRead (withoutFlag v))
  | callUnlockRead (v) : Move (v, .reading) (v, .unlockRead v)
  | unlockRead (lock) : Move (lock, .unlockRead lock) (oneLess lock, .outside)
  | unlockReadFails (v lock) : Move (v, .unlockRead lock) (v, .unlockRead v)
  | callLockWrite (v) : Move (v, .outside) (v, .lockWrite 0)
  | lockWrite (lock) : Move (lock, .lockWrite lock) (1, .writing)
  /-- `lock` is set to 0 again. -/
  | lockWriteFails (v lock) : Move (v, .lockWrite lock) (v, .lockWrite 0)
  | unlockWrite (v) : Move (v, .writing) (0, .outside)

/-- One step of one thread. -/
inductive Step [DecidableEq Θ] : State Θ → State Θ → Prop where
  | move {s} (θ) (r : UInt32 × Place) (h : Move (s.rw_lock_, s.places θ) r) :
      Step s ⟨r.1, update s.places θ r.2⟩

/-! ## The word -/

theorem toNat_withoutFlag (lock : UInt32) : (withoutFlag lock).toNat = 2 * (lock.toNat / 2) := by
  have hlt := lock.toNat_lt
  simp only [withoutFlag, UInt32.toNat_shiftLeft, UInt32.toNat_shiftRight, UInt32.reduceToNat,
    Nat.shiftLeft_eq, Nat.shiftRight_eq_div_pow, Nat.reduceMod, Nat.reducePow]
  omega

/-- There is one more reader, if the number of readers fits. -/
theorem toNat_oneMore {lock : UInt32} (h : lock.toNat + 2 < 2 ^ 32) :
    (oneMore lock).toNat = 2 * (lock.toNat / 2) + 2 := by
  simp only [oneMore, UInt32.toNat_shiftLeft, UInt32.toNat_shiftRight, UInt32.toNat_add,
    UInt32.reduceToNat, Nat.shiftLeft_eq, Nat.shiftRight_eq_div_pow, Nat.reduceMod, Nat.reducePow]
  omega

/-- There is one reader less, if there is any. -/
theorem toNat_oneLess {lock : UInt32} (h : 2 ≤ lock.toNat) :
    (oneLess lock).toNat = 2 * (lock.toNat / 2) - 2 := by
  have hlt := lock.toNat_lt
  simp only [oneLess, UInt32.toNat_shiftLeft, UInt32.toNat_shiftRight, UInt32.toNat_sub,
    UInt32.reduceToNat, Nat.shiftLeft_eq, Nat.shiftRight_eq_div_pow, Nat.reduceMod, Nat.reducePow]
  omega

/-! ## What holds in every state -/

/-- What is true of the variable `lock` at a place. -/
def Place.Fits : Place → Prop
  | .lockRead lock => lock.toNat % 2 = 0
  | .lockWrite lock => lock = 0
  | _ => True

/-- The word counts who holds the lock: `n` readers and `m` writers. -/
structure Inv (s : State Θ) (n m : ℕ) : Prop where
  word : s.rw_lock_.toNat = 2 * n + m
  readers : Lib.Counted Place.reads s.places n
  writers : Lib.Counted Place.writes s.places m
  one : m ≤ 1
  alone : m = 1 → n = 0
  fits : ∀ θ, (s.places θ).Fits

theorem inv_init : Inv (init : State Θ) 0 0 where
  word := rfl
  readers := Lib.counted_zero.mpr fun _ ↦ rfl
  writers := Lib.counted_zero.mpr fun _ ↦ rfl
  one := Nat.zero_le 1
  alone _ := rfl
  fits _ := trivial

variable [DecidableEq Θ]

section Moves

variable {s : State Θ} {n m : ℕ} {θ : Θ}

/-- A thread goes on; the numbers change as the places before and after say. -/
theorem Inv.go (hinv : Inv s n m) {v : UInt32} {p : Place} {n' m' : ℕ}
    (hword : v.toNat = 2 * n' + m')
    (hn : n' + ((s.places θ).reads).toNat = n + p.reads.toNat)
    (hm : m' + ((s.places θ).writes).toNat = m + p.writes.toNat)
    (hone : m' ≤ 1) (halone : m' = 1 → n' = 0) (hfits : p.Fits) :
    Inv ⟨v, update s.places θ p⟩ n' m' where
  word := hword
  readers := hinv.readers.update hn
  writers := hinv.writers.update hm
  one := hone
  alone := halone
  fits := (Function.forall_update_iff s.places fun _ q ↦ q.Fits).mpr
    ⟨hfits, fun θ' _ ↦ hinv.fits θ'⟩

/-- Neither the word nor who holds the lock changes. -/
theorem Inv.keep (hinv : Inv s n m) {p : Place} (hreads : (s.places θ).reads = p.reads)
    (hwrites : (s.places θ).writes = p.writes) (hfits : p.Fits) :
    Inv ⟨s.rw_lock_, update s.places θ p⟩ n m :=
  hinv.go hinv.word (by rw [hreads]) (by rw [hwrites]) hinv.one hinv.alone hfits

end Moves

/-- **Each step counts right.** -/
theorem inv_step [Fintype Θ] (hthreads : Fintype.card Θ < 2 ^ 31) {s s' : State Θ} {n m : ℕ}
    (hinv : Inv s n m) (hstep : Step s s') : ∃ n' m', Inv s' n' m' := by
  obtain ⟨θ, r, hmove⟩ := hstep
  have hfits := hinv.fits θ
  have hword := hinv.word
  have hone := hinv.one
  have halone := hinv.alone
  generalize hv : s.rw_lock_ = v at hmove
  generalize hp : s.places θ = p at hmove
  rw [hp] at hfits
  cases hmove with
  | callLockRead =>
    refine ⟨n, m, hv ▸ hinv.keep (by rw [hp]; rfl) (by rw [hp]; rfl) ?_⟩
    simp [Place.Fits, toNat_withoutFlag]
  | lockReadFails =>
    refine ⟨n, m, hv ▸ hinv.keep (by rw [hp]; rfl) (by rw [hp]; rfl) ?_⟩
    simp [Place.Fits, toNat_withoutFlag]
  | lockRead =>
    -- the word is even, so there is no writer, and this thread is not yet a reader
    have heven : v.toNat % 2 = 0 := hfits
    rw [hv] at hword
    obtain rfl : m = 0 := by omega
    have hlt := hinv.readers.lt_card (θ := θ) (by rw [hp]; rfl)
    refine ⟨n + 1, 0, hinv.go ?_ (by rw [hp]; rfl) (by rw [hp]; rfl) hone (by simp) trivial⟩
    rw [toNat_oneMore (by omega)]
    omega
  | callUnlockRead | unlockReadFails =>
    exact ⟨n, m, hv ▸ hinv.keep (by rw [hp]; rfl) (by rw [hp]; rfl) trivial⟩
  | unlockRead =>
    have hpos := hinv.readers.pos (θ := θ) (by rw [hp]; rfl)
    rw [hv] at hword
    obtain ⟨k, rfl⟩ := Nat.exists_eq_add_of_lt hpos
    refine ⟨k, m, hinv.go ?_ (by rw [hp]; simp [Place.reads]) (by rw [hp]; rfl) hone ?_ trivial⟩
    · rw [toNat_oneLess (by omega)]
      omega
    · omega
  | callLockWrite | lockWriteFails =>
    exact ⟨n, m, hv ▸ hinv.keep (by rw [hp]; rfl) (by rw [hp]; rfl) rfl⟩
  | lockWrite =>
    -- the word is 0, so nobody holds the lock
    obtain rfl : v = 0 := hfits
    rw [hv, UInt32.toNat_zero] at hword
    obtain ⟨rfl, rfl⟩ : n = 0 ∧ m = 0 := by omega
    exact ⟨0, 1, hinv.go rfl (by rw [hp]; rfl) (by rw [hp]; rfl) (Nat.le_refl 1)
      (fun _ ↦ rfl) trivial⟩
  | unlockWrite =>
    have hpos := hinv.writers.pos (θ := θ) (by rw [hp]; rfl)
    obtain rfl : m = 1 := by omega
    obtain rfl := halone rfl
    exact ⟨0, 0, hinv.go rfl (by rw [hp]; rfl) (by rw [hp]; rfl) (Nat.zero_le 1)
      (fun _ ↦ rfl) trivial⟩

/-- The threads that hold the lock for reading. -/
def State.readers [Fintype Θ] (s : State Θ) : Finset Θ :=
  Finset.univ.filter fun θ ↦ (s.places θ).reads

/-- The threads that hold the lock for writing. -/
def State.writers [Fintype Θ] (s : State Θ) : Finset Θ :=
  Finset.univ.filter fun θ ↦ (s.places θ).writes

/-- **The word counts who holds the lock.**  With fewer than 2^31 threads, in every state that can
be reached, `rw_lock_` is twice the number of readers and one more if there is a writer; there is
one writer at most, and no reader while there is one. -/
theorem word_counts_holders [Fintype Θ] (hthreads : Fintype.card Θ < 2 ^ 31) {s : State Θ}
    (hrun : Relation.ReflTransGen Step init s) :
    s.rw_lock_.toNat = 2 * s.readers.card + (if s.writers.Nonempty then 1 else 0) ∧
      s.writers.card ≤ 1 ∧ (s.writers.Nonempty → s.readers = ∅) := by
  obtain ⟨n, m, hinv⟩ : ∃ n m, Inv s n m :=
    Lib.invariant_of_step (I := fun s ↦ ∃ n m, Inv s n m) hrun ⟨0, 0, inv_init⟩
      fun _ _ ⟨_, _, hinv⟩ hstep ↦ inv_step hthreads hinv hstep
  have hreaders : s.readers.card = n := hinv.readers.card_filter
  have hwriters : s.writers.card = m := hinv.writers.card_filter
  have hone := hinv.one
  have hnonempty : s.writers.Nonempty ↔ m = 1 := by
    rw [← Finset.card_pos, hwriters]
    omega
  refine ⟨?_, hwriters ▸ hone, fun h ↦ ?_⟩
  · rw [hinv.word, hreaders, if_congr hnonempty rfl rfl]
    split <;> omega
  · rw [← Finset.card_eq_zero, hreaders]
    exact hinv.alone (hnonempty.mp h)

/-- Two threads read, after the exchange of the second has failed once. -/
theorem word_counts_holders_two : ∃ s : State (Fin 2), s.rw_lock_ = 4 ∧ s.readers.card = 2 ∧
    s.rw_lock_.toNat = 2 * s.readers.card + (if s.writers.Nonempty then 1 else 0) := by
  have hrun := (Relation.ReflTransGen.refl (r := Step) (a := (init : State (Fin 2))))
    |>.tail (.move 0 _ (.callLockRead 0))
    |>.tail (.move 1 _ (.callLockRead 0))
    |>.tail (.move 0 _ (.lockRead 0))
    |>.tail (.move 1 _ (.lockReadFails 2 0))
    |>.tail (.move 1 _ (.lockRead 2))
  exact ⟨_, rfl, by decide, (word_counts_holders (by decide) hrun).1⟩

end RwSpinlock
end ManyTasks
