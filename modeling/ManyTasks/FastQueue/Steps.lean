import ManyTasks.FastQueue.Tickets

/-!
# Every step keeps the slots apart

A step moves one end of the queue, or it changes the slot of a ticket that the call has.  In neither
case does what the other calls know become wrong (`Inv.fits_of_ne`): what they know while the ends
move is only less, and of a slot in use they know nothing.
-/

set_option autoImplicit false
set_option linter.unusedSectionVars false

namespace ManyTasks
namespace FastQueue

open Function (update update_self update_of_ne)

variable {C V : Type} [DecidableEq C] {k : ℕ} {s s' : State C V} {c c' : C}

/-- While the ends move on, generations can only be forgotten. -/
theorem claims_of_le {p : Place V} {x : ℕ × ℕ} (hx : x ∈ p.claims s') (hr : p.InRange s)
    (hhead : s.head_ ≤ s'.head_) (htail : s.tail_ ≤ s'.tail_) (hmax : s'.max_size_ = s.max_size_) :
    x ∈ p.claims s := by
  cases p with
  | claimTail v t =>
    obtain ⟨ht, rfl⟩ : t = s'.tail_ ∧ (t, t) = x := by simpa [Place.claims] using hx
    have hle := hr.1
    have heq : t = s.tail_ := by omega
    simp [Place.claims, heq]
  | enqueued v t =>
    obtain ⟨ht, rfl⟩ : s'.head_ ≤ t ∧ (t, t + 1) = x := by simpa [Place.claims] using hx
    simp [Place.claims, hhead.trans ht]
  | claimHead h =>
    obtain ⟨ht, rfl⟩ : h = s'.head_ ∧ (h, h + 1) = x := by simpa [Place.claims] using hx
    have hle := hr.1
    have heq : h = s.head_ := by omega
    simp [Place.claims, heq]
  | dequeued h d =>
    obtain ⟨ht, rfl⟩ : s'.tail_ ≤ h + s'.max_size_ ∧ (h, h + s'.max_size_) = x := by
      simpa [Place.claims] using hx
    rw [hmax] at ht ⊢
    simp [Place.claims, htail.trans ht]
  | _ => exact hx

/-- Only the slot of a ticket of the call changes, if any does. -/
def SlotsOf (s s' : State C V) (c : C) : Prop :=
  (s'.generation = s.generation ∧ s'.value = s.value) ∨
    ∃ t, (s.places c).access = some t ∧
      ∀ i ≠ s.index t, s'.generation i = s.generation i ∧ s'.value i = s.value i

theorem Inv.fits_of_ne (hinv : Inv k s) (hk : 1 ≤ k) (hslots : SlotsOf s s' c)
    (hhead : s.head_ ≤ s'.head_) (htail : s.tail_ ≤ s'.tail_) (hmax : s'.max_size_ = s.max_size_)
    (hpushed : ∀ t v, s.Pushed t v → s'.Pushed t v) (hne : c' ≠ c)
    (hr : (s.places c').InRange s') : (s.places c').Fits s' := by
  have hindex : s'.index = s.index := by
    funext t
    rw [State.index, State.index, State.bit_mask_, State.bit_mask_, hmax]
  have hsame (x : ℕ × ℕ) (hx : x ∈ (s.places c').claims s) :
      s'.generation (s.index x.1) = s.generation (s.index x.1) ∧
        s'.value (s.index x.1) = s.value (s.index x.1) := by
    rcases hslots with ⟨hgen, hvalue⟩ | ⟨t, ht, hslot⟩
    · rw [hgen, hvalue]
      exact ⟨rfl, rfl⟩
    · exact hslot _ (hinv.exclusive hk ht hx hne)
  refine ⟨hr, fun x hx ↦ ?_, (hinv.holds c').mono hhead hmax hpushed fun x hx ↦ (hsame x hx).2⟩
  have hx' := claims_of_le hx (hinv.inRange c') hhead htail hmax
  rw [hindex, (hsame x hx').1, hinv.claims c' x hx']

/-- A slot that has been used is not a fresh one. -/
theorem Inv.fresh_of_lt (hinv : Inv k s) {t : ℕ} (ht : t < s.tail_) {n : ℕ} {g : ℕ} :
    n < s.max_size_ → s.tail_ ≤ n → update s.generation (s.index t) g n = n := by
  intro hn hle
  have hne : n ≠ s.index t := by
    rw [hinv.index, Nat.mod_eq_of_lt (by omega)]
    omega
  rw [update_of_ne hne]
  exact hinv.fresh n hn hle

/-! ## Enqueue -/

theorem inv_claimTail (hinv : Inv k s) (hk : 1 ≤ k) {v : V}
    (hc : s.places c = .claimTail v s.tail_) :
    Inv k { s with tail_ := s.tail_ + 1, places := update s.places c (.writing v s.tail_) } := by
  have htwo := hinv.two_le hk
  have hlower := hinv.lower
  have hfits := hinv.fits c
  rw [hc] at hfits
  have hroom : s.tail_ < s.head_ + s.max_size_ := hfits.inRange.2 rfl
  have hgen : s.generation (s.index s.tail_) = s.tail_ :=
    hfits.claims (s.tail_, s.tail_) (by simp [Place.claims])
  have hpushed (t : ℕ) (w : V) (h : s.Pushed t w) : State.Pushed
      { s with tail_ := s.tail_ + 1, places := update s.places c (.writing v s.tail_) } t w :=
    h.update rfl (by simp [hc])
  -- whoever still reads the slot knows another generation of it
  have hread {c' : C} {h : ℕ} (hc' : (h, h + 1) ∈ (s.places c').claims s) :
      s.tail_ ≠ h + s.max_size_ := by
    intro heq
    have hslot : s.index s.tail_ = s.index h := by
      rw [hinv.index, hinv.index, heq, Nat.add_mod_right]
    have hgen' : s.generation (s.index h) = h + 1 := hinv.claims c' _ hc'
    rw [hslot, hgen'] at hgen
    omega
  refine hinv.step rfl rfl ⟨by simp only; omega, by simp only; omega⟩ ?_ ?_ ?_ ?_ fun c' hne ↦ ?_
  · exact hinv.pushed.take (by rw [hc]; rfl) rfl
  · exact hinv.popped.keep (by rw [hc]; rfl)
  · exact fun t ht hle ↦ hinv.fresh t ht (Nat.le_of_succ_le hle)
  · refine ⟨⟨hlower, Nat.lt_succ_self _⟩, fun x hx ↦ ?_, trivial⟩
    obtain rfl : (s.tail_, s.tail_) = x := by simpa [Place.claims] using hx
    exact hgen
  · refine hinv.fits_of_ne hk (.inl ⟨rfl, rfl⟩) (Nat.le_refl _) (Nat.le_succ _) rfl hpushed hne ?_
    have hr := hinv.inRange c'
    have hclaims (h : ℕ) := @hread c' h
    generalize s.places c' = p at hr hclaims
    cases p with
    | reading h | freeing h d =>
      have hslot := hclaims h rfl
      simp only [Place.InRange] at hr ⊢
      omega
    | _ =>
      simp only [Place.InRange] at hr ⊢
      try omega

theorem inv_write (hinv : Inv k s) (hk : 1 ≤ k) {v : V} {t : ℕ} (hc : s.places c = .writing v t) :
    Inv k { s with value := update s.value (s.index t) (some v),
                   places := update s.places c (.publishing v t) } := by
  have hfits := hinv.fits c
  rw [hc] at hfits
  refine hinv.step rfl rfl ⟨hinv.lower, hinv.upper⟩ (hinv.pushed.keep (by rw [hc]; rfl))
    (hinv.popped.keep (by rw [hc]; rfl)) hinv.fresh ?_ fun c' hne ↦ ?_
  · exact ⟨hfits.inRange, hfits.claims, update_self _ _ _⟩
  · refine hinv.fits_of_ne hk (.inr ⟨t, by rw [hc]; rfl, fun i hi ↦ ⟨rfl, update_of_ne hi _ _⟩⟩)
      (Nat.le_refl _) (Nat.le_refl _) rfl (fun n w h ↦ h.update rfl (by simp [hc])) hne ?_
    exact hinv.inRange c'

theorem inv_publish (hinv : Inv k s) (hk : 1 ≤ k) {v : V} {t : ℕ}
    (hc : s.places c = .publishing v t) :
    Inv k { s with generation := update s.generation (s.index t) (s.generation (s.index t) + 1),
                   places := update s.places c (.enqueued v t) } := by
  have hfits := hinv.fits c
  rw [hc] at hfits
  have hgen : s.generation (s.index t) = t := hfits.claims (t, t) rfl
  refine hinv.step rfl rfl ⟨hinv.lower, hinv.upper⟩ (hinv.pushed.keep (by rw [hc]; rfl))
    (hinv.popped.keep (by rw [hc]; rfl)) (fun n ↦ hinv.fresh_of_lt hfits.inRange.2) ?_
    fun c' hne ↦ ?_
  · refine ⟨hfits.inRange.2, fun x hx ↦ ?_, fun _ ↦ hfits.holds⟩
    obtain ⟨-, rfl⟩ : s.head_ ≤ t ∧ (t, t + 1) = x := by simpa [Place.claims] using hx
    exact (update_self _ _ _).trans (congrArg (· + 1) hgen)
  · refine hinv.fits_of_ne hk (.inr ⟨t, by rw [hc]; rfl, fun i hi ↦ ⟨update_of_ne hi _ _, rfl⟩⟩)
      (Nat.le_refl _) (Nat.le_refl _) rfl (fun n w h ↦ h.update rfl (by simp [hc])) hne ?_
    exact hinv.inRange c'

/-! ## Dequeue -/

theorem inv_claimHead (hinv : Inv k s) (hk : 1 ≤ k) (hc : s.places c = .claimHead s.head_) :
    Inv k { s with head_ := s.head_ + 1, places := update s.places c (.reading s.head_) } := by
  have hupper := hinv.upper
  have hfits := hinv.fits c
  rw [hc] at hfits
  have hsome : s.head_ < s.tail_ := hfits.inRange.2 rfl
  have hgen : s.generation (s.index s.head_) = s.head_ + 1 :=
    hfits.claims (s.head_, s.head_ + 1) (by simp [Place.claims])
  have hpushed (t : ℕ) (w : V) (h : s.Pushed t w) : State.Pushed
      { s with head_ := s.head_ + 1, places := update s.places c (.reading s.head_) } t w :=
    h.update rfl (by simp [hc])
  -- nobody writes the slot any more
  have hwritten {c' : C} : (s.head_, s.head_) ∉ (s.places c').claims s := by
    intro hc'
    have hgen' : s.generation (s.index s.head_) = s.head_ := hinv.claims c' _ hc'
    omega
  refine hinv.step rfl rfl ⟨hsome, by simp only; omega⟩ ?_ ?_ hinv.fresh ?_ fun c' hne ↦ ?_
  · exact hinv.pushed.keep (by rw [hc]; rfl)
  · exact hinv.popped.take (by rw [hc]; rfl) rfl
  · refine ⟨⟨Nat.lt_succ_self _, hupper⟩, fun x hx ↦ ?_, ?_⟩
    · obtain rfl : (s.head_, s.head_ + 1) = x := by simpa [Place.claims] using hx
      exact hgen
    · obtain ⟨c', hc'⟩ := hinv.pushed.taken s.head_ hsome
      have hholds := hinv.holds c'
      have hnot := @hwritten c'
      cases hp : s.places c' with
      | writing v t | publishing v t =>
        obtain rfl : t = s.head_ := by simpa [hp, Place.pushed] using hc'
        exact absurd (by rw [hp]; rfl) hnot
      | enqueued v t =>
        obtain rfl : t = s.head_ := by simpa [hp, Place.pushed] using hc'
        rw [hp] at hholds
        exact ⟨v, hpushed _ v ⟨c', hp⟩, hholds (Nat.le_refl _)⟩
      | _ => simp [hp, Place.pushed] at hc'
  · refine hinv.fits_of_ne hk (.inl ⟨rfl, rfl⟩) (Nat.le_succ _) (Nat.le_refl _) rfl hpushed hne ?_
    have hr := hinv.inRange c'
    have hnot := @hwritten c'
    generalize s.places c' = p at hr hnot
    cases p with
    | writing v t | publishing v t =>
      have hneq : t ≠ s.head_ := by
        rintro rfl
        exact hnot rfl
      simp only [Place.InRange] at hr ⊢
      omega
    | _ =>
      simp only [Place.InRange] at hr ⊢
      try omega

theorem inv_read (hinv : Inv k s) (hk : 1 ≤ k) {h : ℕ} (hc : s.places c = .reading h) :
    Inv k { s with value := update s.value (s.index h) none,
                   places := update s.places c (.freeing h (s.value (s.index h))) } := by
  have hfits := hinv.fits c
  rw [hc] at hfits
  have hpushed (t : ℕ) (w : V) (hw : s.Pushed t w) : State.Pushed
      { s with value := update s.value (s.index h) none,
               places := update s.places c (.freeing h (s.value (s.index h))) } t w :=
    hw.update rfl (by simp [hc])
  refine hinv.step rfl rfl ⟨hinv.lower, hinv.upper⟩ (hinv.pushed.keep (by rw [hc]; rfl))
    (hinv.popped.keep (by rw [hc]; rfl)) hinv.fresh ?_ fun c' hne ↦ ?_
  · exact ⟨hfits.inRange, hfits.claims, hfits.holds.imp fun v hv ↦ ⟨hpushed h v hv.1, hv.2⟩⟩
  · refine hinv.fits_of_ne hk (.inr ⟨h, by rw [hc]; rfl, fun i hi ↦ ⟨rfl, update_of_ne hi _ _⟩⟩)
      (Nat.le_refl _) (Nat.le_refl _) rfl hpushed hne ?_
    exact hinv.inRange c'

theorem inv_free (hinv : Inv k s) (hk : 1 ≤ k) {h : ℕ} {d : Option V}
    (hc : s.places c = .freeing h d) :
    Inv k { s with
      generation := update s.generation (s.index h) (s.generation (s.index h) + s.bit_mask_),
      places := update s.places c (.dequeued h d) } := by
  have hpos := hinv.pos
  have hfits := hinv.fits c
  rw [hc] at hfits
  have hgen : s.generation (s.index h) = h + 1 := hfits.claims (h, h + 1) rfl
  have hpushed (t : ℕ) (w : V) (hw : s.Pushed t w) : State.Pushed
      { s with
        generation := update s.generation (s.index h) (s.generation (s.index h) + s.bit_mask_),
        places := update s.places c (.dequeued h d) } t w :=
    hw.update rfl (by simp [hc])
  refine hinv.step rfl rfl ⟨hinv.lower, hinv.upper⟩ (hinv.pushed.keep (by rw [hc]; rfl))
    (hinv.popped.keep (by rw [hc]; rfl))
    (fun n ↦ hinv.fresh_of_lt (hfits.inRange.1.trans_le hinv.lower)) ?_ fun c' hne ↦ ?_
  · refine ⟨hfits.inRange.1, fun x hx ↦ ?_, hfits.holds.imp fun v hv ↦ ⟨hpushed h v hv.1, hv.2⟩⟩
    obtain ⟨-, rfl⟩ : s.tail_ ≤ h + s.max_size_ ∧ (h, h + s.max_size_) = x := by
      simpa [Place.claims] using hx
    refine (update_self _ _ _).trans ?_
    rw [hgen, State.bit_mask_]
    simp only
    omega
  · refine hinv.fits_of_ne hk (.inr ⟨h, by rw [hc]; rfl, fun i hi ↦ ⟨update_of_ne hi _ _, rfl⟩⟩)
      (Nat.le_refl _) (Nat.le_refl _) rfl hpushed hne ?_
    exact hinv.inRange c'

/-! ## All steps -/

theorem inv_step (hinv : Inv k s) (hk : 1 ≤ k) (hstep : Step s c s') : Inv k s' := by
  have hfits := hinv.fits c
  cases hstep with
  | callEnqueue v hc | callDequeue hc =>
    exact hinv.quiet (by rw [hc]; rfl) (by rw [hc]; rfl) (by simp [hc]) ⟨trivial, nofun, trivial⟩
  | loadTail v hc | missTail v t hc =>
    exact hinv.quiet (by rw [hc]; rfl) (by rw [hc]; rfl) (by simp [hc])
      ⟨Nat.le_refl _, nofun, trivial⟩
  | loadHead hc | missHead h hc =>
    exact hinv.quiet (by rw [hc]; rfl) (by rw [hc]; rfl) (by simp [hc])
      ⟨Nat.le_refl _, nofun, trivial⟩
  | checkTail v t hc =>
    rw [hc] at hfits
    refine hinv.quiet ?_ ?_ (by simp [hc]) (hinv.checkTail hfits.inRange) <;>
      rw [hc, State.checkTail] <;> split <;> rfl
  | checkHead h hc =>
    rw [hc] at hfits
    refine hinv.quiet ?_ ?_ (by simp [hc]) (hinv.checkHead hfits.inRange) <;>
      rw [hc, State.checkHead] <;> split <;> rfl
  | claimTail v hc => exact inv_claimTail hinv hk hc
  | write v t hc => exact inv_write hinv hk hc
  | publish v t hc => exact inv_publish hinv hk hc
  | claimHead hc => exact inv_claimHead hinv hk hc
  | read h hc => exact inv_read hinv hk hc
  | free h d hc => exact inv_free hinv hk hc

theorem inv_of_run (hk : 1 ≤ k) (hrun : Relation.ReflTransGen AnyStep (init (2 ^ k)) s) : Inv k s :=
  Lib.invariant_of_step hrun (inv_init k) fun _ _ hinv ⟨_, hstep⟩ ↦ inv_step hinv hk hstep

end FastQueue
end ManyTasks
