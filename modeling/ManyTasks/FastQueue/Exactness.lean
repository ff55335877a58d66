import ManyTasks.FastQueue.Steps
import Mathlib.Data.Set.Card
import Mathlib.Order.Interval.Finset.Nat

/-!
# Nothing is lost and nothing is doubled

The tickets below `tail_` are those of one `Enqueue` each, and the tickets below `head_` those of
one `Dequeue` each, which has got the value of the `Enqueue` with the same ticket.  While nobody is
under way, what is stored are the values of the tickets between the two, so a call that is alone
succeeds unless there are none, or too many, of them.
-/

set_option autoImplicit false

namespace ManyTasks
namespace FastQueue

open Function (update update_self update_of_ne)

variable {C V : Type}

/-- It has not begun, or has returned. -/
def Place.quiet : Place V → Bool
  | .idle | .enqueued _ _ | .full _ | .dequeued _ _ | .empty => true
  | _ => false

/-- The tickets of the values that have been put in and not been taken out. -/
def State.stored (s : State C V) : Set ℕ :=
  {t | (∃ c v, s.places c = .enqueued v t) ∧ ∀ c d, s.places c ≠ .dequeued t d}

theorem Inv.stored {k : ℕ} {s : State C V} (hinv : Inv k s)
    (hquiet : ∀ c, (s.places c).quiet = true) : s.stored = Set.Ico s.head_ s.tail_ := by
  ext t
  rw [Set.mem_Ico]
  constructor
  · rintro ⟨⟨c, v, hc⟩, hnot⟩
    refine ⟨?_, hinv.pushed.lt c t (by rw [hc]; rfl)⟩
    by_contra hlt
    obtain ⟨c', hc'⟩ := hinv.popped.taken t (by omega)
    have hq := hquiet c'
    cases hp : s.places c' with
    | dequeued h d =>
      obtain rfl : h = t := by simpa [hp, Place.popped] using hc'
      exact hnot c' d hp
    | _ => simp [hp, Place.popped, Place.quiet] at hc' hq
  · rintro ⟨hle, hlt⟩
    obtain ⟨c, hc⟩ := hinv.pushed.taken t hlt
    have hq := hquiet c
    refine ⟨⟨c, ?_⟩, fun c' d hc' ↦ ?_⟩
    · cases hp : s.places c with
      | enqueued v t' =>
        obtain rfl : t' = t := by simpa [hp, Place.pushed] using hc
        exact ⟨v, rfl⟩
      | _ => simp [hp, Place.pushed, Place.quiet] at hc hq
    · have hlow := hinv.popped.lt c' t (by rw [hc']; rfl)
      omega

variable [DecidableEq C]

/-- The steps of one call, with nobody else's in between. -/
def Alone (s : State C V) (c : C) : State C V → Prop := Relation.ReflTransGen (Step · c ·) s

/-! ## A call that is alone -/

/-- What a call that is alone has found out about the queue in which it has begun. -/
def Place.Found (s₀ s : State C V) : Place V → Prop
  | .idle | .enqueuing _ | .dequeuing => s.tail_ = s₀.tail_ ∧ s.head_ = s₀.head_
  | .checkTail _ t | .claimTail _ t =>
    t = s.tail_ ∧ s.tail_ = s₀.tail_ ∧ s.head_ = s₀.head_
  | .full _ => s₀.tail_ = s₀.head_ + s₀.max_size_
  | .writing _ _ | .publishing _ _ | .enqueued _ _ => s₀.tail_ < s₀.head_ + s₀.max_size_
  | .checkHead h | .claimHead h => h = s.head_ ∧ s.tail_ = s₀.tail_ ∧ s.head_ = s₀.head_
  | .empty => s₀.head_ = s₀.tail_
  | .reading _ | .freeing _ _ | .dequeued _ _ => s₀.head_ < s₀.tail_

theorem found_of_alone {k : ℕ} (hk : 1 ≤ k) {s₀ s : State C V} {c : C} (hinv : Inv k s₀)
    (hquiet : ∀ c', (s₀.places c').quiet = true) (hidle : s₀.places c = .idle)
    (halone : Alone s₀ c s) :
    Inv k s ∧ (∀ c' ≠ c, (s.places c').quiet = true) ∧ (s.places c).Found s₀ s := by
  induction halone with
  | refl =>
    refine ⟨hinv, fun c' _ ↦ hquiet c', ?_⟩
    rw [hidle]
    exact ⟨rfl, rfl⟩
  | @tail s s' _ hstep ih =>
    obtain ⟨hinv', hothers, hfound⟩ := ih
    have hfits := hinv'.fits c
    have hsize : s.max_size_ = s₀.max_size_ := hinv'.max_size_.trans hinv.max_size_.symm
    refine ⟨inv_step hinv' hk hstep, fun c' hne ↦ ?_, ?_⟩
    · cases hstep <;> simp only [update_of_ne hne] <;> exact hothers c' hne
    · have hnobody (hc : (s.places c).access = none) (c' : C) : (s.places c').access = none := by
        by_cases hne : c' = c
        · rw [hne, hc]
        · have hq := hothers c' hne
          cases hp : s.places c' <;> simp [hp, Place.quiet] at hq <;> rfl
      cases hstep with
      | callEnqueue v hc | callDequeue hc =>
        rw [hc] at hfound
        simp only [update_self]
        exact hfound
      | loadTail v hc | loadHead hc =>
        rw [hc] at hfound
        simp only [update_self]
        exact ⟨rfl, hfound⟩
      | missTail v t hc | missHead h hc =>
        rw [hc] at hfound
        simp only [update_self]
        exact ⟨rfl, hfound.2⟩
      | checkTail v t hc =>
        rw [hc] at hfound
        obtain ⟨rfl, htail, hhead⟩ := hfound
        simp only [update_self, State.checkTail]
        split
        · rename_i hfull
          have htwo := hinv'.two_le hk
          rw [State.bit_mask_] at hfull
          rcases hinv'.tail_slot with ⟨-, hgen | ⟨-, c', h, hc'⟩⟩ | ⟨heq, -⟩
          · omega
          · cases (hnobody (by rw [hc]; rfl) c').symm.trans hc'
          · simp only [Place.Found]
            omega
        · exact ⟨rfl, htail, hhead⟩
      | claimTail v hc =>
        rw [hc] at hfound hfits
        have hroom := hfits.inRange.2 rfl
        simp only [update_self, Place.Found] at hfound ⊢
        omega
      | checkHead h hc =>
        rw [hc] at hfound
        obtain ⟨rfl, htail, hhead⟩ := hfound
        simp only [update_self, State.checkHead]
        split
        · rename_i hempty
          rcases hinv'.head_slot with ⟨-, hgen | ⟨-, c', t, hc'⟩⟩ | ⟨heq, -⟩
          · omega
          · cases (hnobody (by rw [hc]; rfl) c').symm.trans hc'
          · simp only [Place.Found]
            omega
        · exact ⟨rfl, htail, hhead⟩
      | claimHead hc =>
        rw [hc] at hfound hfits
        have hsome := hfits.inRange.2 rfl
        simp only [update_self, Place.Found] at hfound ⊢
        omega
      | write v t hc | publish v t hc | read h hc | free h d hc =>
        rw [hc] at hfound
        simp only [update_self]
        exact hfound

/-! ## It returns -/

theorem Alone.cons {s s' s'' : State C V} {c : C} (hstep : Step s c s') (h : Alone s' c s'') :
    Alone s c s'' :=
  Relation.ReflTransGen.head (r := (Step · c ·)) hstep h

theorem enqueued_of_claim {s : State C V} {c : C} {v : V} (hc : s.places c = .claimTail v s.tail_) :
    ∃ s', Alone s c s' ∧ ∃ t, s'.places c = .enqueued v t :=
  ⟨_, .cons (.claimTail c v hc) <| .cons (.write c v s.tail_ (update_self _ _ _)) <|
    .cons (.publish c v s.tail_ (update_self _ _ _)) .refl, s.tail_, update_self _ _ _⟩

/-- A call of `Enqueue` that is alone returns. -/
theorem enqueue_returns {s : State C V} {c : C} (hidle : s.places c = .idle) (v : V) :
    ∃ s', Alone s c s' ∧ (s'.places c = .full v ∨ ∃ t, s'.places c = .enqueued v t) := by
  have hcheck (s : State C V) (hc : s.places c = .checkTail v s.tail_) :
      ∃ s', Alone s c s' ∧ (s'.places c = .full v ∨ ∃ t, s'.places c = .enqueued v t) := by
    have hstep := Step.checkTail c v s.tail_ hc
    have hplace : update s.places c (s.checkTail v s.tail_) c = s.checkTail v s.tail_ :=
      update_self _ _ _
    rw [State.checkTail] at hplace hstep
    split at hplace
    · rename_i hfull
      exact ⟨_, .cons hstep .refl, .inl (by simp [hfull])⟩
    · rename_i hroom
      rw [if_neg hroom] at hstep
      obtain ⟨s', halone, hs'⟩ := enqueued_of_claim
        (s := { s with places := update s.places c (.claimTail v s.tail_) }) (c := c) (v := v)
        (update_self _ _ _)
      exact ⟨s', .cons hstep halone, .inr hs'⟩
  obtain ⟨s', halone, hs'⟩ := hcheck
    { s with places := update (update s.places c (.enqueuing v)) c (.checkTail v s.tail_) }
    (update_self _ _ _)
  exact ⟨s', .cons (.callEnqueue c v hidle) <| .cons
    (.loadTail c v (update_self _ _ _)) halone, hs'⟩

theorem dequeued_of_claim {s : State C V} {c : C} (hc : s.places c = .claimHead s.head_) :
    ∃ s', Alone s c s' ∧ ∃ h d, s'.places c = .dequeued h d :=
  ⟨_, .cons (.claimHead c hc) <| .cons (.read c s.head_ (update_self _ _ _)) <|
    .cons (.free c s.head_ _ (update_self _ _ _)) .refl, s.head_, _, update_self _ _ _⟩

/-- A call of `Dequeue` that is alone returns. -/
theorem dequeue_returns {s : State C V} {c : C} (hidle : s.places c = .idle) :
    ∃ s', Alone s c s' ∧ (s'.places c = .empty ∨ ∃ h d, s'.places c = .dequeued h d) := by
  have hcheck (s : State C V) (hc : s.places c = .checkHead s.head_) :
      ∃ s', Alone s c s' ∧ (s'.places c = .empty ∨ ∃ h d, s'.places c = .dequeued h d) := by
    have hstep := Step.checkHead c s.head_ hc
    have hplace : update s.places c (s.checkHead s.head_) c = s.checkHead s.head_ :=
      update_self _ _ _
    rw [State.checkHead] at hplace hstep
    split at hplace
    · rename_i hempty
      exact ⟨_, .cons hstep .refl, .inl (by simp [hempty])⟩
    · rename_i hsome
      rw [if_neg hsome] at hstep
      obtain ⟨s', halone, hs'⟩ := dequeued_of_claim
        (s := { s with places := update s.places c (.claimHead s.head_) }) (c := c)
        (update_self _ _ _)
      exact ⟨s', .cons hstep halone, .inr hs'⟩
  obtain ⟨s', halone, hs'⟩ := hcheck
    { s with places := update (update s.places c .dequeuing) c (.checkHead s.head_) }
    (update_self _ _ _)
  exact ⟨s', .cons (.callDequeue c hidle) <| .cons (.loadHead c (update_self _ _ _)) halone, hs'⟩

/-! ## Every run -/

/-- What a call returns that is made while nobody else is under way. -/
structure Sequential (size : ℕ) (s : State C V) (c : C) : Prop where
  enqueued : ∀ v, (∃ s' t, Alone s c s' ∧ s'.places c = .enqueued v t) ↔ s.stored.ncard < size
  full : ∀ v, (∃ s', Alone s c s' ∧ s'.places c = .full v) ↔ s.stored.ncard = size
  dequeued : (∃ s' h d, Alone s c s' ∧ s'.places c = .dequeued h d) ↔ s.stored.Nonempty
  empty : (∃ s', Alone s c s' ∧ s'.places c = .empty) ↔ s.stored = ∅

theorem sequential {k : ℕ} (hk : 1 ≤ k) {s : State C V} {c : C} (hinv : Inv k s)
    (hquiet : ∀ c', (s.places c').quiet = true) (hidle : s.places c = .idle) :
    Sequential (2 ^ k) s c := by
  have hstored := hinv.stored hquiet
  have hcard : s.stored.ncard = s.tail_ - s.head_ := by
    rw [hstored, ← Finset.coe_Ico, Set.ncard_coe_finset, Nat.card_Ico]
  have hlower := hinv.lower
  have hupper := hinv.upper
  have hsize := hinv.max_size_
  have hnonempty : s.stored.Nonempty ↔ s.head_ < s.tail_ := by
    rw [hstored, Set.nonempty_Ico]
  have hempty : s.stored = ∅ ↔ s.head_ = s.tail_ := by
    rw [hstored, Set.Ico_eq_empty_iff]
    omega
  have hfound {s' : State C V} (halone : Alone s c s') :=
    (found_of_alone hk hinv hquiet hidle halone).2.2
  have hroom {s' : State C V} {v : V} {t : ℕ} (halone : Alone s c s')
      (hs' : s'.places c = .enqueued v t) : s.tail_ < s.head_ + s.max_size_ := by
    have hf := hfound halone
    rwa [hs'] at hf
  have hfull {s' : State C V} {v : V} (halone : Alone s c s') (hs' : s'.places c = .full v) :
      s.tail_ = s.head_ + s.max_size_ := by
    have hf := hfound halone
    rwa [hs'] at hf
  have hsome {s' : State C V} {h : ℕ} {d : Option V} (halone : Alone s c s')
      (hs' : s'.places c = .dequeued h d) : s.head_ < s.tail_ := by
    have hf := hfound halone
    rwa [hs'] at hf
  have hnone {s' : State C V} (halone : Alone s c s') (hs' : s'.places c = .empty) :
      s.head_ = s.tail_ := by
    have hf := hfound halone
    rwa [hs'] at hf
  refine ⟨fun v ↦ ⟨?_, fun hlt ↦ ?_⟩, fun v ↦ ⟨?_, fun heq ↦ ?_⟩, ⟨?_, fun hne ↦ ?_⟩,
    ⟨?_, fun heq ↦ ?_⟩⟩
  · rintro ⟨s', t, halone, hs'⟩
    have hlt := hroom halone hs'
    omega
  · obtain ⟨s', halone, hs' | ⟨t, hs'⟩⟩ := enqueue_returns hidle v
    · have heq := hfull halone hs'
      omega
    · exact ⟨s', t, halone, hs'⟩
  · rintro ⟨s', halone, hs'⟩
    have heq := hfull halone hs'
    omega
  · obtain ⟨s', halone, hs' | ⟨t, hs'⟩⟩ := enqueue_returns hidle v
    · exact ⟨s', halone, hs'⟩
    · have hlt := hroom halone hs'
      omega
  · rintro ⟨s', h, d, halone, hs'⟩
    exact hnonempty.mpr (hsome halone hs')
  · obtain ⟨s', halone, hs' | ⟨h, d, hs'⟩⟩ := dequeue_returns hidle
    · have heq := hnone halone hs'
      have hlt := hnonempty.mp hne
      omega
    · exact ⟨s', h, d, halone, hs'⟩
  · rintro ⟨s', halone, hs'⟩
    exact hempty.mpr (hnone halone hs')
  · obtain ⟨s', halone, hs' | ⟨h, d, hs'⟩⟩ := dequeue_returns hidle
    · exact ⟨s', halone, hs'⟩
    · have hlt := hsome halone hs'
      have heq' := hempty.mp heq
      omega

/-- **Nothing is lost and nothing is doubled.**  A `Dequeue` returns the value of the `Enqueue` with
the same ticket, every ticket is taken once at each end, the slot of a call that may access its
value belongs to this call, and between the two ends there are no more tickets than slots.  A call
made while nobody else is under way fails exactly if the queue is full, or empty. -/
theorem no_loss_no_duplication {k : ℕ} (hk : 1 ≤ k) {s : State C V}
    (hrun : Relation.ReflTransGen AnyStep (init (2 ^ k)) s) :
    (∀ c h d, s.places c = .dequeued h d → ∃ c' v, s.places c' = .enqueued v h ∧ d = some v) ∧
      (∀ c c' t, (s.places c).pushed = some t → (s.places c').pushed = some t → c = c') ∧
      (∀ c c' h, (s.places c).popped = some h → (s.places c').popped = some h → c = c') ∧
      (∀ c c' t t', (s.places c).access = some t → (s.places c').access = some t' → c ≠ c' →
        s.index t ≠ s.index t') ∧
      (s.head_ ≤ s.tail_ ∧ s.tail_ - s.head_ ≤ 2 ^ k) ∧
      ∀ c, s.places c = .idle → (∀ c', (s.places c').quiet = true) → Sequential (2 ^ k) s c := by
  have hinv := inv_of_run hk hrun
  refine ⟨fun c h d hc ↦ ?_, hinv.pushed.unique, hinv.popped.unique, fun c c' t t' hc hc' hne ↦ ?_,
    ⟨hinv.lower, ?_⟩, fun c hidle hquiet ↦ sequential hk hinv hquiet hidle⟩
  · have hholds := hinv.holds c
    rw [hc] at hholds
    obtain ⟨v, ⟨c', hc'⟩, hd⟩ := hholds
    exact ⟨c', v, hc', hd⟩
  · rcases access_cases hc (hinv.inRange c) with ⟨-, hclaim, -⟩ | ⟨-, hclaim, -⟩
    · exact hinv.exclusive hk hc' hclaim hne
    · exact hinv.exclusive hk hc' hclaim hne
  · rw [← hinv.max_size_]
    exact Nat.sub_le_iff_le_add'.mpr hinv.upper

/-- One value through a queue of two slots. -/
theorem no_loss_no_duplication_two :
    ∃ s : State (Fin 2) ℕ, s.places 1 = .dequeued 0 (some 7) ∧
      ∃ c v, s.places c = .enqueued v 0 ∧ (some 7 : Option ℕ) = some v := by
  have hrun := (Relation.ReflTransGen.refl (r := AnyStep) (a := (init (2 ^ 1) : State (Fin 2) ℕ)))
    |>.tail ⟨0, .callEnqueue 0 7 rfl⟩
    |>.tail ⟨0, .loadTail 0 7 rfl⟩
    |>.tail ⟨0, .checkTail 0 7 0 rfl⟩
    |>.tail ⟨0, .claimTail 0 7 rfl⟩
    |>.tail ⟨0, .write 0 7 0 rfl⟩
    |>.tail ⟨0, .publish 0 7 0 rfl⟩
    |>.tail ⟨1, .callDequeue 1 rfl⟩
    |>.tail ⟨1, .loadHead 1 rfl⟩
    |>.tail ⟨1, .checkHead 1 0 rfl⟩
    |>.tail ⟨1, .claimHead 1 (by simp [State.checkHead, State.index, State.bit_mask_, init])⟩
    |>.tail ⟨1, .read 1 0 rfl⟩
    |>.tail ⟨1, .free 1 0 (some 7) (by simp [State.index, State.bit_mask_, init])⟩
  exact ⟨_, rfl, (no_loss_no_duplication (Nat.le_refl 1) hrun).1 1 0 (some 7) rfl⟩

end FastQueue
end ManyTasks
