import ManyTasks.FastQueue.Queue
import Mathlib.Data.Nat.ModEq

/-!
# The generation of a slot

In most places a call knows the generation of the slot of its ticket (`Place.claims`).  The ticket
and the generation have the same slot, or follow one another; and so two calls that know the
generation of one slot must know the same of it, which is only possible if they have the same
ticket, or if one has written for the other.  This is the reason why a slot belongs to one call from
the moment at which it takes its ticket to the moment at which it changes the generation
(`Inv.exclusive`).
-/

set_option autoImplicit false
set_option linter.unusedSectionVars false

namespace ManyTasks
namespace FastQueue

open Function (update update_self update_of_ne)

variable {C V : Type}

/-- The ticket of an `Enqueue`. -/
def Place.pushed : Place V → Option ℕ
  | .writing _ t | .publishing _ t | .enqueued _ t => some t
  | _ => none

/-- The ticket of a `Dequeue`. -/
def Place.popped : Place V → Option ℕ
  | .reading h | .freeing h _ | .dequeued h _ => some h
  | _ => none

/-- A ticket of which the call knows the generation, and the generation. -/
def Place.claims (s : State C V) : Place V → Option (ℕ × ℕ)
  | .claimTail _ t => if t = s.tail_ then some (t, t) else none
  | .writing _ t | .publishing _ t => some (t, t)
  | .enqueued _ t => if s.head_ ≤ t then some (t, t + 1) else none
  | .claimHead h => if h = s.head_ then some (h, h + 1) else none
  | .reading h | .freeing h _ => some (h, h + 1)
  | .dequeued h _ => if s.tail_ ≤ h + s.max_size_ then some (h, h + s.max_size_) else none
  | _ => none

/-- Where the ticket is between the two ends. -/
def Place.InRange (s : State C V) : Place V → Prop
  | .checkTail _ t => t ≤ s.tail_
  | .claimTail _ t => t ≤ s.tail_ ∧ (t = s.tail_ → t < s.head_ + s.max_size_)
  | .writing _ t | .publishing _ t => s.head_ ≤ t ∧ t < s.tail_
  | .enqueued _ t => t < s.tail_
  | .checkHead h => h ≤ s.head_
  | .claimHead h => h ≤ s.head_ ∧ (h = s.head_ → h < s.tail_)
  | .reading h | .freeing h _ => h < s.head_ ∧ s.tail_ ≤ h + s.max_size_
  | .dequeued h _ => h < s.head_
  | _ => True

/-- An `Enqueue` has returned that has put the value there. -/
def State.Pushed (s : State C V) (t : ℕ) (v : V) : Prop := ∃ c, s.places c = .enqueued v t

/-- What the call knows of values. -/
def Place.Holds (s : State C V) : Place V → Prop
  | .publishing v t => s.value (s.index t) = some v
  | .enqueued v t => s.head_ ≤ t → s.value (s.index t) = some v
  | .reading h => ∃ v, s.Pushed h v ∧ s.value (s.index h) = some v
  | .freeing h d | .dequeued h d => ∃ v, s.Pushed h v ∧ d = some v
  | _ => True

/-- The tickets below `n` have been taken, each by one call. -/
structure Issued (ticket : Place V → Option ℕ) (f : C → Place V) (n : ℕ) : Prop where
  taken : ∀ t < n, ∃ c, ticket (f c) = some t
  unique : ∀ c c' t, ticket (f c) = some t → ticket (f c') = some t → c = c'
  lt : ∀ c t, ticket (f c) = some t → t < n

structure Inv (k : ℕ) (s : State C V) : Prop where
  max_size_ : s.max_size_ = 2 ^ k
  lower : s.head_ ≤ s.tail_
  upper : s.tail_ ≤ s.head_ + s.max_size_
  pushed : Issued Place.pushed s.places s.tail_
  popped : Issued Place.popped s.places s.head_
  /-- The slots that have not been used yet. -/
  fresh : ∀ t < s.max_size_, s.tail_ ≤ t → s.generation t = t
  inRange : ∀ c, (s.places c).InRange s
  claims : ∀ c, ∀ x ∈ (s.places c).claims s, s.generation (s.index x.1) = x.2
  holds : ∀ c, (s.places c).Holds s

theorem inv_init (k : ℕ) : Inv k (init (2 ^ k) : State C V) where
  max_size_ := rfl
  lower := Nat.le_refl 0
  upper := Nat.zero_le _
  pushed := ⟨nofun, nofun, nofun⟩
  popped := ⟨nofun, nofun, nofun⟩
  fresh _ _ _ := rfl
  inRange _ := trivial
  claims := nofun
  holds _ := trivial

/-! ## Slots -/

theorem Inv.index {k : ℕ} {s : State C V} (hinv : Inv k s) (t : ℕ) :
    s.index t = t % s.max_size_ := by
  rw [State.index, State.bit_mask_, hinv.max_size_, Nat.and_two_pow_sub_one_eq_mod]

/-- Neighbours have different slots. -/
theorem succ_mod_ne {n t : ℕ} (hn : 2 ≤ n) : (t + 1) % n ≠ t % n := by
  intro h
  have hmod : 1 ≡ 0 [MOD n] := Nat.ModEq.add_left_cancel' t h
  rw [Nat.ModEq, Nat.mod_eq_of_lt (by omega), Nat.zero_mod] at hmod
  cases hmod

theorem Inv.two_le {k : ℕ} {s : State C V} (hinv : Inv k s) (hk : 1 ≤ k) : 2 ≤ s.max_size_ := by
  rw [hinv.max_size_]
  exact Nat.le_self_pow (by omega) 2

theorem Inv.pos {k : ℕ} {s : State C V} (hinv : Inv k s) : 0 < s.max_size_ := by
  rw [hinv.max_size_]
  exact Nat.two_pow_pos k

/-- The call may access the value of the slot. -/
def Place.access : Place V → Option ℕ
  | .writing _ t | .publishing _ t => some t
  | .reading h | .freeing h _ => some h
  | _ => none

/-- What a call can know of a generation. -/
theorem claims_cases {s : State C V} {p : Place V} {x : ℕ × ℕ} (hx : x ∈ p.claims s)
    (hr : p.InRange s) :
    (x.2 = x.1 ∧ x.1 = s.tail_) ∨
      (x.2 = x.1 ∧ p.pushed = some x.1 ∧ x.1 < s.tail_) ∨
      (x.2 = x.1 + 1 ∧ p.popped = none ∧ s.head_ ≤ x.1) ∨
      (x.2 = x.1 + 1 ∧ p.popped = some x.1) ∨
      (x.2 = x.1 + s.max_size_ ∧ s.tail_ ≤ x.2) := by
  cases p with
  | claimTail v t =>
    obtain ⟨ht, rfl⟩ : t = s.tail_ ∧ (t, t) = x := by simpa [Place.claims] using hx
    exact .inl ⟨rfl, ht⟩
  | writing v t | publishing v t =>
    obtain rfl : (t, t) = x := by simpa [Place.claims] using hx
    exact .inr (.inl ⟨rfl, rfl, hr.2⟩)
  | enqueued v t =>
    obtain ⟨ht, rfl⟩ : s.head_ ≤ t ∧ (t, t + 1) = x := by simpa [Place.claims] using hx
    exact .inr (.inr (.inl ⟨rfl, rfl, ht⟩))
  | claimHead h =>
    obtain ⟨ht, rfl⟩ : h = s.head_ ∧ (h, h + 1) = x := by simpa [Place.claims] using hx
    exact .inr (.inr (.inl ⟨rfl, rfl, ht.ge⟩))
  | reading h | freeing h d =>
    obtain rfl : (h, h + 1) = x := by simpa [Place.claims] using hx
    exact .inr (.inr (.inr (.inl ⟨rfl, rfl⟩)))
  | dequeued h d =>
    obtain ⟨ht, rfl⟩ : s.tail_ ≤ h + s.max_size_ ∧ (h, h + s.max_size_) = x := by
      simpa [Place.claims] using hx
    exact .inr (.inr (.inr (.inr ⟨rfl, ht⟩)))
  | _ => cases hx

/-- What a call knows of a slot that it may access. -/
theorem access_cases {s : State C V} {p : Place V} {t : ℕ} (ht : p.access = some t)
    (hr : p.InRange s) :
    (p.pushed = some t ∧ (t, t) ∈ p.claims s ∧ s.head_ ≤ t ∧ t < s.tail_) ∨
      (p.popped = some t ∧ (t, t + 1) ∈ p.claims s ∧ t < s.head_ ∧ s.tail_ ≤ t + s.max_size_) := by
  cases p with
  | writing v t' | publishing v t' =>
    obtain rfl : t' = t := by simpa [Place.access] using ht
    exact .inl ⟨rfl, rfl, hr⟩
  | reading h | freeing h d =>
    obtain rfl : h = t := by simpa [Place.access] using ht
    exact .inr ⟨rfl, rfl, hr⟩
  | _ => cases ht

/-- **A slot in use belongs to one call.**  No other one knows anything about its generation. -/
theorem Inv.exclusive {k : ℕ} {s : State C V} (hinv : Inv k s) (hk : 1 ≤ k) {c c' : C} {t : ℕ}
    {x : ℕ × ℕ} (hc : (s.places c).access = some t) (hc' : x ∈ (s.places c').claims s)
    (hne : c' ≠ c) : s.index x.1 ≠ s.index t := by
  intro hindex
  have hmod : x.1 % s.max_size_ = t % s.max_size_ := by rw [← hinv.index, ← hinv.index, hindex]
  have hsucc (n : ℕ) := succ_mod_ne (t := n) (hinv.two_le hk)
  have hgen : s.generation (s.index t) = x.2 := by rw [← hindex, hinv.claims c' x hc']
  rcases access_cases hc (hinv.inRange c) with ⟨hpushed, hclaim, hlow, hlt⟩ |
    ⟨hpopped, hclaim, hlt, -⟩
  · -- the call writes, the generation is the ticket
    have hx : x.2 = t := hgen.symm.trans (hinv.claims c _ hclaim)
    rcases claims_cases hc' (hinv.inRange c') with ⟨hx₁, htail⟩ | ⟨hx₁, hpushed', -⟩ | ⟨hx₁, -⟩ |
      ⟨hx₁, -⟩ | ⟨-, htail⟩
    · omega
    · exact hne (hinv.pushed.unique c' c t (by rw [hpushed', ← hx₁, hx]) hpushed)
    · exact hsucc x.1 (by rw [← hx₁, hx, hmod])
    · exact hsucc x.1 (by rw [← hx₁, hx, hmod])
    · omega
  · -- the call reads, the generation is the next number
    have hx : x.2 = t + 1 := hgen.symm.trans (hinv.claims c _ hclaim)
    rcases claims_cases hc' (hinv.inRange c') with ⟨hx₁, -⟩ | ⟨hx₁, -⟩ | ⟨hx₁, -, hlow⟩ |
      ⟨hx₁, hpopped'⟩ | ⟨hx₁, -⟩
    · exact hsucc t (by rw [← hx, hx₁, hmod])
    · exact hsucc t (by rw [← hx, hx₁, hmod])
    · omega
    · have hxt : x.1 = t := by omega
      exact hne (hinv.popped.unique c' c t (by rw [hpopped', hxt]) hpopped)
    · exact hsucc t (by rw [← hx, hx₁, Nat.add_mod_right, hmod])

/-! ## What a call finds -/

/-- The slot of the next ticket for `Enqueue` is free, or still read, or not used up. -/
theorem Inv.tail_slot {k : ℕ} {s : State C V} (hinv : Inv k s) :
    (s.tail_ < s.head_ + s.max_size_ ∧
      (s.generation (s.index s.tail_) = s.tail_ ∨
        s.generation (s.index s.tail_) + s.max_size_ = s.tail_ + 1 ∧
          ∃ c h, (s.places c).access = some h)) ∨
      (s.tail_ = s.head_ + s.max_size_ ∧
        s.generation (s.index s.tail_) + s.max_size_ ≤ s.tail_ + 1) := by
  have hupper := hinv.upper
  have hpos := hinv.pos
  have hslot {t : ℕ} (ht : t + s.max_size_ = s.tail_) : s.index s.tail_ = s.index t := by
    rw [hinv.index, hinv.index, ← ht, Nat.add_mod_right]
  rcases Nat.lt_or_ge s.tail_ (s.head_ + s.max_size_) with hlt | hge
  · refine .inl ⟨hlt, ?_⟩
    rcases Nat.lt_or_ge s.tail_ s.max_size_ with hfresh | hused
    · refine .inl ?_
      rw [hinv.index, Nat.mod_eq_of_lt hfresh]
      exact hinv.fresh _ hfresh (Nat.le_refl _)
    · obtain ⟨h, hh⟩ := Nat.exists_eq_add_of_le' hused
      obtain ⟨c, hc⟩ := hinv.popped.taken h (by omega)
      have hclaims := hinv.claims c
      rw [hslot hh.symm]
      generalize hp : s.places c = p at hc hclaims
      cases p with
      | reading h' | freeing h' d =>
        obtain rfl : h' = h := by simpa [Place.popped] using hc
        have hgen : s.generation (s.index h') = h' + 1 := hclaims (h', h' + 1) rfl
        exact .inr ⟨by omega, c, h', by rw [hp]; rfl⟩
      | dequeued h' d =>
        obtain rfl : h' = h := by simpa [Place.popped] using hc
        have hgen : s.generation (s.index h') = h' + s.max_size_ :=
          hclaims (h', h' + s.max_size_) (by simp [Place.claims, hh])
        exact .inl (by omega)
      | _ => cases hc
  · have heq : s.tail_ = s.head_ + s.max_size_ := by omega
    refine .inr ⟨heq, ?_⟩
    obtain ⟨c, hc⟩ := hinv.pushed.taken s.head_ (by omega)
    have hclaims := hinv.claims c
    rw [hslot heq.symm]
    generalize s.places c = p at hc hclaims
    cases p with
    | writing v t | publishing v t =>
      obtain rfl : t = s.head_ := by simpa [Place.pushed] using hc
      have hgen : s.generation (s.index s.head_) = s.head_ := hclaims (s.head_, s.head_) rfl
      omega
    | enqueued v t =>
      obtain rfl : t = s.head_ := by simpa [Place.pushed] using hc
      have hgen : s.generation (s.index s.head_) = s.head_ + 1 :=
        hclaims (s.head_, s.head_ + 1) (by simp [Place.claims])
      omega
    | _ => cases hc

/-- The slot of the next ticket for `Dequeue` is full, or still written, or not written yet. -/
theorem Inv.head_slot {k : ℕ} {s : State C V} (hinv : Inv k s) :
    (s.head_ < s.tail_ ∧
      (s.generation (s.index s.head_) = s.head_ + 1 ∨
        s.generation (s.index s.head_) = s.head_ ∧ ∃ c t, (s.places c).access = some t)) ∨
      (s.head_ = s.tail_ ∧ s.generation (s.index s.head_) ≤ s.head_) := by
  have hlower := hinv.lower
  have hpos := hinv.pos
  rcases Nat.lt_or_ge s.head_ s.tail_ with hlt | hge
  · refine .inl ⟨hlt, ?_⟩
    obtain ⟨c, hc⟩ := hinv.pushed.taken s.head_ hlt
    have hclaims := hinv.claims c
    generalize hp : s.places c = p at hc hclaims
    cases p with
    | writing v t | publishing v t =>
      obtain rfl : t = s.head_ := by simpa [Place.pushed] using hc
      exact .inr ⟨hclaims (s.head_, s.head_) rfl, c, s.head_, by rw [hp]; rfl⟩
    | enqueued v t =>
      obtain rfl : t = s.head_ := by simpa [Place.pushed] using hc
      exact .inl (hclaims (s.head_, s.head_ + 1) (by simp [Place.claims]))
    | _ => cases hc
  · have heq : s.head_ = s.tail_ := by omega
    refine .inr ⟨heq, ?_⟩
    rcases hinv.tail_slot with ⟨-, hgen | ⟨hgen, -⟩⟩ | ⟨hfull, -⟩
    · rw [heq, hgen]
    · rw [heq]
      omega
    · omega

/-! ## The steps -/

/-- Everything that is true of a call at a place. -/
structure Place.Fits (s : State C V) (p : Place V) : Prop where
  inRange : p.InRange s
  claims : ∀ x ∈ p.claims s, s.generation (s.index x.1) = x.2
  holds : p.Holds s

theorem Inv.fits {k : ℕ} {s : State C V} (hinv : Inv k s) (c : C) : (s.places c).Fits s :=
  ⟨hinv.inRange c, hinv.claims c, hinv.holds c⟩

/-- What a call that has passed the comparison knows. -/
theorem Inv.checkTail {k : ℕ} {s : State C V} (hinv : Inv k s) {v : V} {t : ℕ} (ht : t ≤ s.tail_) :
    (s.checkTail v t).Fits s := by
  rw [State.checkTail]
  split
  · exact ⟨trivial, nofun, trivial⟩
  · rename_i hcheck
    have hready (heq : t = s.tail_) :
        s.tail_ < s.head_ + s.max_size_ ∧ s.generation (s.index s.tail_) = s.tail_ := by
      subst heq
      have hpos := hinv.pos
      rw [State.bit_mask_] at hcheck
      rcases hinv.tail_slot with ⟨hlt, hgen | ⟨hgen, -⟩⟩ | ⟨-, hgen⟩
      · exact ⟨hlt, hgen⟩
      · omega
      · omega
    refine ⟨⟨ht, fun heq ↦ heq ▸ (hready heq).1⟩, fun x hx ↦ ?_, trivial⟩
    obtain ⟨heq, rfl⟩ : t = s.tail_ ∧ (t, t) = x := by simpa [Place.claims] using hx
    exact heq ▸ (hready heq).2

theorem Inv.checkHead {k : ℕ} {s : State C V} (hinv : Inv k s) {h : ℕ} (hh : h ≤ s.head_) :
    (s.checkHead h).Fits s := by
  rw [State.checkHead]
  split
  · exact ⟨trivial, nofun, trivial⟩
  · rename_i hcheck
    have hready (heq : h = s.head_) :
        s.head_ < s.tail_ ∧ s.generation (s.index s.head_) = s.head_ + 1 := by
      subst heq
      rcases hinv.head_slot with ⟨hlt, hgen | ⟨hgen, -⟩⟩ | ⟨-, hgen⟩
      · exact ⟨hlt, hgen⟩
      · omega
      · omega
    refine ⟨⟨hh, fun heq ↦ heq ▸ (hready heq).1⟩, fun x hx ↦ ?_, trivial⟩
    obtain ⟨heq, rfl⟩ : h = s.head_ ∧ (h, h + 1) = x := by simpa [Place.claims] using hx
    exact heq ▸ (hready heq).2

variable [DecidableEq C]

section Issued

variable {ticket : Place V → Option ℕ} {f : C → Place V} {n : ℕ} {c : C} {p : Place V}

/-- A call that keeps its ticket, or goes on without one. -/
theorem Issued.keep (h : Issued ticket f n) (hp : ticket p = ticket (f c)) :
    Issued ticket (update f c p) n := by
  have heq (c' : C) : ticket (update f c p c') = ticket (f c') := by
    by_cases hc : c' = c
    · subst hc
      rw [update_self, hp]
    · rw [update_of_ne hc]
  exact ⟨fun t ht ↦ (h.taken t ht).imp fun c' hc' ↦ (heq c').trans hc',
    fun c₁ c₂ t h₁ h₂ ↦ h.unique c₁ c₂ t ((heq c₁).symm.trans h₁) ((heq c₂).symm.trans h₂),
    fun c' t h' ↦ h.lt c' t ((heq c').symm.trans h')⟩

/-- A call that takes the next ticket. -/
theorem Issued.take (h : Issued ticket f n) (hc : ticket (f c) = none) (hp : ticket p = some n) :
    Issued ticket (update f c p) (n + 1) := by
  have hother {c' : C} {t : ℕ} (hne : c' ≠ c) (h' : ticket (update f c p c') = some t) :
      ticket (f c') = some t := by rwa [update_of_ne hne] at h'
  have hself {t : ℕ} (h' : ticket (update f c p c) = some t) : t = n := by
    rw [update_self, hp] at h'
    exact (Option.some.inj h').symm
  refine ⟨fun t ht ↦ ?_, fun c₁ c₂ t h₁ h₂ ↦ ?_, fun c' t h' ↦ ?_⟩
  · rcases Nat.lt_succ_iff_lt_or_eq.mp ht with hlt | rfl
    · obtain ⟨c', hc'⟩ := h.taken t hlt
      have hne : c' ≠ c := by
        rintro rfl
        cases hc.symm.trans hc'
      exact ⟨c', by rw [update_of_ne hne, hc']⟩
    · exact ⟨c, by rw [update_self, hp]⟩
  · by_cases hc₁ : c₁ = c <;> by_cases hc₂ : c₂ = c
    · rw [hc₁, hc₂]
    · subst hc₁
      have hlt := h.lt c₂ t (hother hc₂ h₂)
      rw [hself h₁] at hlt
      exact absurd hlt (Nat.lt_irrefl n)
    · subst hc₂
      have hlt := h.lt c₁ t (hother hc₁ h₁)
      rw [hself h₂] at hlt
      exact absurd hlt (Nat.lt_irrefl n)
    · exact h.unique c₁ c₂ t (hother hc₁ h₁) (hother hc₂ h₂)
  · by_cases hne : c' = c
    · subst hne
      rw [hself h']
      exact Nat.lt_succ_self n
    · exact (h.lt c' t (hother hne h')).trans (Nat.lt_succ_self n)

end Issued

/-- A step of a call changes its place, and for every other call what it knows stays true. -/
theorem Inv.step {k : ℕ} {s s' : State C V} {c : C} {p : Place V} (hinv : Inv k s)
    (hplaces : s'.places = update s.places c p) (hmax : s'.max_size_ = s.max_size_)
    (hrange : s'.head_ ≤ s'.tail_ ∧ s'.tail_ ≤ s'.head_ + s'.max_size_)
    (hpushed : Issued Place.pushed s'.places s'.tail_)
    (hpopped : Issued Place.popped s'.places s'.head_)
    (hfresh : ∀ t < s'.max_size_, s'.tail_ ≤ t → s'.generation t = t)
    (hself : p.Fits s') (hothers : ∀ c' ≠ c, (s.places c').Fits s') : Inv k s' := by
  have hfits (c' : C) : (s'.places c').Fits s' := by
    rw [hplaces]
    by_cases hc : c' = c
    · subst hc
      rw [update_self]
      exact hself
    · rw [update_of_ne hc]
      exact hothers c' hc
  exact ⟨hmax.trans hinv.max_size_, hrange.1, hrange.2, hpushed, hpopped, hfresh,
    fun c' ↦ (hfits c').inRange, fun c' ↦ (hfits c').claims, fun c' ↦ (hfits c').holds⟩

/-- What has been pushed stays so. -/
theorem State.Pushed.update {s s' : State C V} {c : C} {p : Place V} {t : ℕ} {v : V}
    (h : s.Pushed t v) (hplaces : s'.places = update s.places c p)
    (hc : ∀ v t, s.places c ≠ .enqueued v t) : s'.Pushed t v := by
  obtain ⟨c', hc'⟩ := h
  have hne : c' ≠ c := by
    rintro rfl
    exact hc v t hc'
  exact ⟨c', by rw [hplaces, update_of_ne hne, hc']⟩

/-- A call knows of values what it knew, as long as those do not change of whose slots it knows
something. -/
theorem Place.Holds.mono {s s' : State C V} {p : Place V} (h : p.Holds s)
    (hhead : s.head_ ≤ s'.head_) (hmax : s'.max_size_ = s.max_size_)
    (hpushed : ∀ t v, s.Pushed t v → s'.Pushed t v)
    (hvalue : ∀ x ∈ p.claims s, s'.value (s.index x.1) = s.value (s.index x.1)) : p.Holds s' := by
  have hindex : s'.index = s.index := by
    funext t
    rw [State.index, State.index, State.bit_mask_, State.bit_mask_, hmax]
  cases p with
  | publishing v t =>
    simp only [Holds, hindex] at h ⊢
    rw [hvalue (t, t) rfl, h]
  | enqueued v t =>
    simp only [Holds, hindex] at h ⊢
    intro hle
    rw [hvalue (t, t + 1) (by simp [claims, hhead.trans hle]), h (hhead.trans hle)]
  | reading n =>
    obtain ⟨v, hv, heq⟩ := h
    refine ⟨v, hpushed n v hv, ?_⟩
    rw [hindex, hvalue (n, n + 1) rfl, heq]
  | freeing n d | dequeued n d =>
    obtain ⟨v, hv, heq⟩ := h
    exact ⟨v, hpushed n v hv, heq⟩
  | _ => trivial

/-- A step by which only the place changes. -/
theorem Inv.quiet {k : ℕ} {s : State C V} {c : C} {p : Place V} (hinv : Inv k s)
    (hpushed : p.pushed = (s.places c).pushed) (hpopped : p.popped = (s.places c).popped)
    (hc : ∀ v t, s.places c ≠ .enqueued v t) (hself : p.Fits s) :
    Inv k { s with places := update s.places c p } := by
  have hmono (t : ℕ) (v : V) (h : s.Pushed t v) :
      State.Pushed { s with places := update s.places c p } t v := h.update rfl hc
  refine hinv.step rfl rfl ⟨hinv.lower, hinv.upper⟩ (hinv.pushed.keep hpushed)
    (hinv.popped.keep hpopped) hinv.fresh ?_ fun c' _ ↦ ?_
  · exact ⟨hself.inRange, hself.claims, hself.holds.mono (Nat.le_refl _) rfl hmono fun _ _ ↦ rfl⟩
  · exact ⟨hinv.inRange c', hinv.claims c', (hinv.holds c').mono (Nat.le_refl _) rfl hmono
      fun _ _ ↦ rfl⟩

end FastQueue
end ManyTasks
