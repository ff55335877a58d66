import ManyTasks.RwLock.Lock

/-!
# Readers and writers do not meet, and nobody is forgotten

The counters count what their names say (`Tallied`); with the conditions of the waits, this keeps
writers apart from everybody else (`Counts.Exclusive`).

That nobody is forgotten rests on two facts (`Minded`).  If a reader is left asleep while no writer
is inside, then a writer is blocked, whose `EndWrite` will come to the reader.  And if nobody is
inside, somebody who waits is awake.  The second is what is wanted; the first is needed for it when
the last reader leaves, who does not care for readers.
-/

set_option autoImplicit false
set_option linter.unusedSectionVars false

namespace ManyTasks
namespace RwLock

open Function (update update_self update_of_ne)

/-- It has passed the wait and has not run `EndRead` or `EndWrite`. -/
def Place.inside (k : Kind) : Place → Bool
  | .running k' | .ending k' _ => k' = k
  | _ => false

/-- It is in the wait. -/
def Place.blocked (k : Kind) : Place → Bool
  | .waiting k' _ => k' = k
  | _ => false

def Counts.inside (c : Counts) : Kind → ℕ
  | .read => c.readers_cnt_
  | .write => c.writers_cnt_

def Counts.blocked (c : Counts) : Kind → ℕ
  | .read => c.blocked_readers_cnt_
  | .write => c.blocked_writers_cnt_

theorem eq_of_blocked {k : Kind} {p : Place} (h : p.blocked k = true) : ∃ b, p = .waiting k b := by
  cases p with
  | waiting k' b =>
    obtain rfl : k' = k := by simpa [Place.blocked] using h
    exact ⟨b, rfl⟩
  | _ => cases h

variable {Θ : Type}

/-- The counters are right. -/
structure Tallied (c : Counts) (f : Θ → Place) : Prop where
  inside : ∀ k, Lib.Counted (Place.inside k) f (c.inside k)
  blocked : ∀ k, Lib.Counted (Place.blocked k) f (c.blocked k)

/-- No reader while there is a writer, and no second writer. -/
def Counts.Exclusive (c : Counts) : Prop :=
  c.writers_cnt_ = 0 ∨ c.writers_cnt_ = 1 ∧ c.readers_cnt_ = 0

/-- Somebody will care for those who sleep. -/
structure Minded (c : Counts) (f : Θ → Place) : Prop where
  reader : c.writers_cnt_ = 0 → ∀ θ, f θ = .waiting .read false → 0 < c.blocked_writers_cnt_
  awake : c.readers_cnt_ = 0 → c.writers_cnt_ = 0 → ∀ θ k b, f θ = .waiting k b →
    ∃ θ' k', f θ' = .waiting k' true

structure Inv (s : State Θ) : Prop where
  tallied : Tallied s.counts s.places
  exclusive : s.counts.Exclusive
  minded : Minded s.counts s.places

variable [DecidableEq Θ]

/-! ## The counters -/

theorem Tallied.update {c c' : Counts} {f : Θ → Place} {θ : Θ} {p : Place} (h : Tallied c f)
    (hinside : ∀ k, c'.inside k + ((f θ).inside k).toNat = c.inside k + (p.inside k).toNat)
    (hblocked : ∀ k, c'.blocked k + ((f θ).blocked k).toNat = c.blocked k + (p.blocked k).toNat) :
    Tallied c' (update f θ p) :=
  ⟨fun k ↦ (h.inside k).update (hinside k), fun k ↦ (h.blocked k).update (hblocked k)⟩

/-- Whoever passes the wait is no longer blocked, and inside. -/
theorem Tallied.test {c : Counts} {f : Θ → Place} {θ : Θ} {k : Kind} (h : Tallied c f)
    (hθ : ∃ b, f θ = .waiting k b) : Tallied (c.test k).1 (Function.update f θ (c.test k).2) := by
  obtain ⟨b, hθ⟩ := hθ
  have hpos : 0 < c.blocked k := (h.blocked k).pos (θ := θ) (by simp [hθ, Place.blocked])
  rw [Counts.test]
  split
  · refine h.update (fun k' ↦ ?_) fun k' ↦ ?_ <;> rw [hθ] <;> cases k <;> cases k' <;>
      simp only [Counts.pass, Counts.inside, Counts.blocked, Place.inside, Place.blocked]
        at hpos ⊢ <;>
      simp <;> omega
  · refine h.update (fun k' ↦ ?_) fun k' ↦ ?_ <;> rw [hθ] <;> rfl

theorem Tallied.enter {c : Counts} {f : Θ → Place} {θ : Θ} {k : Kind} (h : Tallied c f)
    (hθ : f θ = .called k) :
    Tallied ((c.block k).test k).1 (Function.update f θ ((c.block k).test k).2) := by
  have hblock : Tallied (c.block k) (Function.update f θ (.waiting k true)) := by
    refine h.update (fun k' ↦ ?_) fun k' ↦ ?_ <;> rw [hθ] <;> cases k <;> cases k' <;>
      simp [Counts.block, Counts.inside, Counts.blocked, Place.inside, Place.blocked]
  have htest := hblock.test (θ := θ) ⟨true, update_self _ _ _⟩
  rwa [Function.update_idem] at htest

/-! ## Notifications -/

theorem eq_of_awaken {k : Kind} {p p' : Place} (h : awaken k p = some p') :
    p = .waiting k false ∧ p' = .waiting k true := by
  unfold awaken at h
  split at h
  · split at h
    · rename_i hk
      subst hk
      exact ⟨rfl, (Option.some.inj h).symm⟩
    · cases h
  · cases h

/-- A notification wakes, and does nothing else. -/
theorem Notified.apply {f f' : Θ → Place} {n : Notify} (h : Notified f f' n) (θ : Θ) :
    f' θ = f θ ∨ ∃ k, f θ = .waiting k false ∧ f' θ = .waiting k true := by
  have hwoken {k : Kind} (hwake : awaken k (f θ) = some (f' θ)) :
      ∃ k, f θ = .waiting k false ∧ f' θ = .waiting k true := ⟨k, eq_of_awaken hwake⟩
  cases n with
  | nobody =>
    obtain rfl : f' = f := h
    exact .inl rfl
  | writer => exact (Lib.NotifyOne.apply h θ).imp id hwoken
  | readers =>
    obtain rfl : f' = Lib.notifyAll (awaken .read) f := h
    exact (Lib.notifyAll_apply (awaken .read) f θ).imp id hwoken

theorem Tallied.notified {c : Counts} {f f' : Θ → Place} {n : Notify} (h : Tallied c f)
    (hf : Notified f f' n) : Tallied c f' := by
  refine ⟨fun k ↦ (h.inside k).congr fun θ ↦ ?_, fun k ↦ (h.blocked k).congr fun θ ↦ ?_⟩
  · rcases hf.apply θ with heq | ⟨k', hold, hnew⟩
    · rw [heq]
    · rw [hold, hnew]
      rfl
  · rcases hf.apply θ with heq | ⟨k', hold, hnew⟩
    · rw [heq]
    · rw [hold, hnew]
      rfl

/-- Whoever sleeps afterwards slept before. -/
theorem Notified.asleep {f f' : Θ → Place} {n : Notify} {θ : Θ} {k : Kind} (h : Notified f f' n)
    (hθ : f' θ = .waiting k false) : f θ = .waiting k false := by
  rcases h.apply θ with heq | ⟨k', hold, hnew⟩
  · rw [← heq, hθ]
  · rw [hθ] at hnew
    simp at hnew

/-- If a writer is blocked, then one is awake after a writer has been notified. -/
theorem Notified.writer_awake {c : Counts} {f f' : Θ → Place} (h : Notified f f' .writer)
    (hf : Tallied c f) (hpos : 0 < c.blocked_writers_cnt_) : ∃ θ, f' θ = .waiting .write true := by
  cases h with
  | nobody hnobody =>
    obtain ⟨θ, hθ⟩ := (hf.blocked .write).exists hpos
    obtain ⟨b, hb⟩ := eq_of_blocked hθ
    refine ⟨θ, ?_⟩
    cases b with
    | false => simpa [hb, awaken] using hnobody θ
    | true => exact hb
  | one θ p hp =>
    obtain ⟨-, rfl⟩ := eq_of_awaken hp
    exact ⟨θ, update_self _ _ _⟩

/-- After all readers have been notified none of them sleeps. -/
theorem Notified.readers_awake {f f' : Θ → Place} {θ : Θ} (h : Notified f f' .readers) :
    f' θ ≠ .waiting .read false := by
  intro hθ
  have hold := h.asleep hθ
  obtain rfl : f' = Lib.notifyAll (awaken .read) f := h
  rw [Lib.notifyAll_of_some (p := .waiting .read true) (by simp [hold, awaken])] at hθ
  simp at hθ

/-! ## The steps -/

theorem inv_init : Inv (init : State Θ) where
  tallied := by
    refine ⟨fun k ↦ ?_, fun k ↦ ?_⟩ <;> cases k <;> exact Lib.counted_zero.mpr fun _ ↦ rfl
  exclusive := .inl rfl
  minded := by constructor <;> simp [init]

theorem Counts.Exclusive.test {c : Counts} {k : Kind} (h : c.Exclusive) :
    (c.test k).1.Exclusive := by
  rw [Counts.test]
  split
  · rename_i hpass
    cases k <;> simp only [Counts.canPass, Counts.Exclusive, Counts.pass] at h hpass ⊢ <;> grind
  · exact h

theorem Counts.Exclusive.block {c : Counts} {k : Kind} (h : c.Exclusive) :
    (c.block k).Exclusive := by
  cases k <;> exact h

/-- A thread that goes between places outside the wait, or wakes up. -/
theorem Minded.update {c : Counts} {f : Θ → Place} {θ : Θ} {p : Place} (h : Minded c f)
    (hp : (∀ k b, p ≠ .waiting k b) ∧ (∀ k b, f θ ≠ .waiting k b) ∨ ∃ k, p = .waiting k true) :
    Minded c (update f θ p) := by
  refine ⟨fun hw θ' hθ' ↦ ?_, fun hr hw θ' k b hθ' ↦ ?_⟩
  · by_cases hne : θ' = θ
    · subst hne
      rw [update_self] at hθ'
      rcases hp with ⟨hp, -⟩ | ⟨k, hp⟩
      · exact absurd hθ' (hp _ _)
      · simp [hp] at hθ'
    · rw [update_of_ne hne] at hθ'
      exact h.reader hw θ' hθ'
  · rcases hp with ⟨hp, hθ⟩ | ⟨k', hp⟩
    · have hne : θ' ≠ θ := by
        rintro rfl
        rw [update_self] at hθ'
        exact hp k b hθ'
      rw [update_of_ne hne] at hθ'
      obtain ⟨θ₁, k₁, hθ₁⟩ := h.awake hr hw θ' k b hθ'
      have hne₁ : θ₁ ≠ θ := by
        rintro rfl
        exact hθ _ _ hθ₁
      exact ⟨θ₁, k₁, by rw [update_of_ne hne₁, hθ₁]⟩
    · exact ⟨θ, k', by rw [update_self, hp]⟩

/-- A look at the condition puts nobody to sleep while nobody is inside. -/
theorem Minded.test {c : Counts} {f : Θ → Place} {θ : Θ} {k : Kind} (h : Minded c f) :
    Minded (c.test k).1 (Function.update f θ (c.test k).2) := by
  rw [Counts.test]
  split
  · -- there is one more inside
    refine ⟨fun hw θ' hθ' ↦ ?_, fun hr hw ↦ ?_⟩
    · have hne : θ' ≠ θ := by
        rintro rfl
        simp at hθ'
      rw [update_of_ne hne] at hθ'
      cases k with
      | read => exact h.reader hw θ' hθ'
      | write => simp [Counts.pass] at hw
    · cases k with
      | read => simp [Counts.pass] at hr
      | write => simp [Counts.pass] at hw
  · rename_i hpass
    refine ⟨fun hw θ' hθ' ↦ ?_, fun hr hw ↦ ?_⟩
    · have hne : θ' ≠ θ := by
        rintro rfl
        obtain rfl : k = .read := by simpa using hθ'
        simp only [Counts.canPass, beq_iff_eq] at hpass
        exact hpass hw
      rw [update_of_ne hne] at hθ'
      exact h.reader hw θ' hθ'
    · dsimp only at hr hw
      cases k <;> simp [Counts.canPass, hr, hw] at hpass

theorem Minded.block {c : Counts} {f : Θ → Place} {k : Kind} (h : Minded c f) :
    Minded (c.block k) f := by
  cases k with
  | read => exact ⟨h.reader, h.awake⟩
  | write => exact ⟨fun _ _ _ ↦ Nat.succ_pos _, h.awake⟩

/-- The last reader wakes a writer.  If none is blocked, then no reader has been left asleep
either. -/
theorem minded_endRead {c : Counts} {f f' : Θ → Place} (htallied : Tallied c.endRead.1 f)
    (hminded : Minded c f) (hw : c.writers_cnt_ = 0) (hf : Notified f f' c.endRead.2) :
    Minded c.endRead.1 f' := by
  refine ⟨fun _ θ hθ ↦ hminded.reader hw θ (hf.asleep hθ), fun hr _ θ k b hθ ↦ ?_⟩
  by_cases hblocked : c.blocked_writers_cnt_ = 0
  · obtain rfl : f' = f := by simpa [Counts.endRead, hblocked, Notified] using hf
    refine ⟨θ, k, ?_⟩
    have hread : k = .read := by
      by_contra hk
      obtain rfl : k = .write := by cases k <;> trivial
      have hpos := (htallied.blocked .write).pos (θ := θ) (by simp [hθ, Place.blocked])
      exact hpos.ne' hblocked
    subst hread
    cases b with
    | false => exact absurd hblocked (hminded.reader hw θ hθ).ne'
    | true => exact hθ
  · have hone : c.endRead.2 = .writer := if_pos ⟨hr, hblocked⟩
    rw [hone] at hf
    obtain ⟨θ', hθ'⟩ := hf.writer_awake htallied (Nat.pos_of_ne_zero hblocked)
    exact ⟨θ', .write, hθ'⟩

/-- The writer wakes those of a kind that somebody is blocked of, and if it passes over the readers,
then because of a writer. -/
theorem minded_endWrite {c : Counts} {f f' : Θ → Place} (htallied : Tallied c.endWrite.1 f)
    (hf : Notified f f' c.endWrite.2) : Minded c.endWrite.1 f' := by
  have htallied' := htallied.notified hf
  have hblocked {θ : Θ} {k : Kind} {b : Bool} (hθ : f' θ = .waiting k b) :
      0 < c.endWrite.1.blocked k :=
    (htallied'.blocked k).pos (θ := θ) (by simp [hθ, Place.blocked])
  by_cases hmany : c.blocked_readers_cnt_ > 3 * c.blocked_writers_cnt_
  · have hreaders : c.endWrite.2 = .readers := if_pos hmany
    rw [hreaders] at hf
    refine ⟨fun _ θ hθ ↦ absurd hθ hf.readers_awake, fun _ _ _ _ _ _ ↦ ?_⟩
    obtain ⟨θ, hθ⟩ := (htallied'.blocked .read).exists (Nat.zero_lt_of_lt hmany)
    obtain ⟨b, hb⟩ := eq_of_blocked hθ
    cases b with
    | false => exact absurd hb hf.readers_awake
    | true => exact ⟨θ, .read, hb⟩
  · refine ⟨fun _ θ hθ ↦ ?_, fun _ _ θ k b hθ ↦ ?_⟩
    · have hpos : 0 < c.blocked_readers_cnt_ := hblocked hθ
      change 0 < c.blocked_writers_cnt_
      omega
    · have hpos : c.blocked_writers_cnt_ ≠ 0 := by
        have hk := hblocked hθ
        cases k <;> simp only [Counts.endWrite, Counts.blocked] at hk <;> omega
      have hone : c.endWrite.2 = .writer := by
        simp only [Counts.endWrite]
        rw [if_neg hmany, if_pos hpos]
      rw [hone] at hf
      obtain ⟨θ', hθ'⟩ := hf.writer_awake htallied (Nat.pos_of_ne_zero hpos)
      exact ⟨θ', .write, hθ'⟩

/-- `EndRead` and `EndWrite`. -/
theorem inv_finish {s : State Θ} {θ : Θ} {k : Kind} {threw : Bool} {f : Θ → Place} (hinv : Inv s)
    (h : s.places θ = .ending k threw)
    (hf : Notified (update s.places θ .idle) f (s.counts.end k).2) :
    Inv ⟨(s.counts.end k).1, f⟩ := by
  obtain ⟨htallied, hexcl, hminded⟩ := hinv
  have hpos : 0 < s.counts.inside k := (htallied.inside k).pos (θ := θ) (by simp [h, Place.inside])
  have hleft : Tallied (s.counts.end k).1 (update s.places θ .idle) := by
    refine htallied.update (fun k' ↦ ?_) fun k' ↦ ?_ <;> rw [h] <;> cases k <;> cases k' <;>
      simp only [Counts.end, Counts.endRead, Counts.endWrite, Counts.inside, Counts.blocked,
        Place.inside, Place.blocked] at hpos ⊢ <;> simp <;> omega
  have hidle : Minded s.counts (update s.places θ .idle) :=
    hminded.update (.inl ⟨(by simp), fun k' b hb ↦ by simp [h] at hb⟩)
  refine ⟨hleft.notified hf, ?_, ?_⟩
  · cases k <;>
      simp only [Counts.end, Counts.endRead, Counts.endWrite, Counts.Exclusive, Counts.inside]
        at hexcl hpos ⊢ <;> omega
  · cases k with
    | read =>
      refine minded_endRead hleft hidle ?_ hf
      simp only [Counts.Exclusive, Counts.inside] at hexcl hpos
      omega
    | write => exact minded_endWrite hleft hf

theorem inv_step {s s' : State Θ} (hinv : Inv s) (h : Step s s') : Inv s' := by
  obtain ⟨htallied, hexcl, hminded⟩ := id hinv
  cases h with
  | call θ k h =>
    refine ⟨htallied.update (fun k' ↦ ?_) fun k' ↦ ?_, hexcl, hminded.update (.inl ⟨nofun, ?_⟩)⟩
    all_goals simp [h, Place.inside, Place.blocked]
  | enter θ k h => exact ⟨htallied.enter h, hexcl.block.test, hminded.block.test⟩
  | recheck θ k h => exact ⟨htallied.test ⟨_, h⟩, hexcl.test, hminded.test⟩
  | spurious θ k h =>
    refine ⟨htallied.update (fun k' ↦ ?_) fun k' ↦ ?_, hexcl, hminded.update (.inr ⟨k, rfl⟩)⟩
    all_goals simp [h, Place.inside, Place.blocked]
  | callback θ k threw h =>
    refine ⟨htallied.update (fun k' ↦ ?_) fun k' ↦ ?_, hexcl, hminded.update (.inl ⟨nofun, ?_⟩)⟩
    all_goals simp [h, Place.inside, Place.blocked]
  | finish θ k threw f h hf => exact inv_finish hinv h hf

/-- **Exclusion, and nobody is forgotten.**  A writer in its callback is alone, the counters count
the threads that are inside, and while nobody is inside, either nobody waits or somebody who waits
is awake. -/
theorem exclusive_and_minded {s : State Θ} (hrun : Relation.ReflTransGen Step init s) :
    (∀ θ θ' k, s.places θ = .running .write → s.places θ' = .running k → θ = θ') ∧
      {θ | (s.places θ).inside .read = true}.encard = s.counts.readers_cnt_ ∧
      {θ | (s.places θ).inside .write = true}.encard = s.counts.writers_cnt_ ∧
      (s.counts.readers_cnt_ = 0 → s.counts.writers_cnt_ = 0 →
        ∀ θ k b, s.places θ = .waiting k b → ∃ θ' k', s.places θ' = .waiting k' true) := by
  have hinv : Inv s := Lib.invariant_of_step hrun inv_init fun _ _ ↦ inv_step
  obtain ⟨⟨hinside, -⟩, hexcl, hminded⟩ := hinv
  refine ⟨fun θ θ' k hθ hθ' ↦ ?_, hinside .read, hinside .write, hminded.awake⟩
  have hin : (s.places θ).inside .write = true := by simp [hθ, Place.inside]
  have hin' : (s.places θ').inside k = true := by simp [hθ', Place.inside]
  have hpos := (hinside .write).pos hin
  have hpos' := (hinside k).pos hin'
  simp only [Counts.Exclusive, Counts.inside] at hexcl hpos
  cases k with
  | read =>
    simp only [Counts.inside] at hpos'
    omega
  | write => exact (hinside .write).unique (by simp only [Counts.inside]; omega) hin hin'

/-- A reader has run and left while a writer, which is blocked by it, waits. -/
theorem minded_two : ∃ s : State (Fin 2), s.counts.readers_cnt_ = 0 ∧ s.counts.writers_cnt_ = 0 ∧
    s.places 1 = .waiting .write true ∧ ∃ θ k, s.places θ = .waiting k true := by
  have hrun := (Relation.ReflTransGen.refl (r := Step) (a := (init : State (Fin 2))))
    |>.tail (.call 0 .read rfl)
    |>.tail (.enter 0 .read rfl)
    |>.tail (.call 1 .write rfl)
    |>.tail (.enter 1 .write rfl)
    |>.tail (.callback 0 .read true rfl)
    |>.tail (.finish 0 .read true _ rfl (.one 1 (.waiting .write true) rfl))
  exact ⟨_, rfl, rfl, rfl, (exclusive_and_minded hrun).2.2.2 rfl rfl 1 .write true rfl⟩

end RwLock
end ManyTasks
