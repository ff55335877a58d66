import ManyTasks.Semaphore.Semaphore

/-!
# The order of the callbacks, and the count

The calls of `Acquire` that have drawn a number, in this order, are `entered`; those whose callback
has been run are `called`.  A thread that has number `t` is entry `t` of the first list
(`Place.Fits`), and it runs its callback only when the second one has `t` entries.  So the second
list is always the beginning of the first.

If all callbacks count down, and no `Release` finds `count_` at the end of its range (`HasRoom`),
then `count_` is what it was at first, plus the calls of `Release`, minus the callbacks
(`Accounted`), and a callback that has been run is an `Acquire` that is complete as soon as the
mutex is free again.  A `Release` without that room makes the count negative.
-/

set_option autoImplicit false
set_option linter.unusedSectionVars false

namespace ManyTasks
namespace Semaphore

open Function (update update_self update_of_ne)
open Lib (Trace)

variable {Θ : Type}

/-! ## What a history tells -/

def Label.entered : Label Θ → Option Θ
  | .enter θ => some θ
  | _ => none

def Label.called : Label Θ → Option Θ
  | .callback θ => some θ
  | _ => none

def Label.isAcquired : Label Θ → Bool
  | .acquired _ => true
  | _ => false

def Label.isReleased : Label Θ → Bool
  | .released _ => true
  | _ => false

/-- The calls of `Acquire`, in the order in which they took the mutex first. -/
def entered (h : List (State Θ × Label Θ)) : List Θ := h.filterMap fun x ↦ x.2.entered

/-- The callbacks, in the order in which they were run. -/
def called (h : List (State Θ × Label Θ)) : List Θ := h.filterMap fun x ↦ x.2.called

/-- The number of complete calls of `Acquire`. -/
def acquired (h : List (State Θ × Label Θ)) : ℕ := h.countP fun x ↦ x.2.isAcquired

/-- The number of complete calls of `Release`. -/
def released (h : List (State Θ × Label Θ)) : ℕ := h.countP fun x ↦ x.2.isReleased

/-- All callbacks are those of `Acquire()`. -/
def AllCountDown (h : List (State Θ × Label Θ)) : Prop :=
  ∀ x ∈ h, ∀ θ callback, x.2 = .callAcquire θ callback → callback = countDown

/-! ## The mutex -/

/-- It holds the mutex. -/
def Place.holds : Place → Bool
  | .testing _ _ | .executing _ _ | .leaving _ => true
  | _ => false

def Locked (s : State Θ) : Prop := Lib.Owned Place.holds s.places s.mutex_

variable [DecidableEq Θ]

theorem holds_notifyAll (f : Θ → Place) (θ : Θ) :
    (Lib.notifyAll awaken f θ).holds = (f θ).holds := by
  rw [Lib.notifyAll]
  cases f θ <;> rfl

theorem locked_step {s s' : State Θ} {l : Label Θ} (h : Locked s) (hstep : Step s l s') :
    Locked s' := by
  cases hstep with
  | callAcquire | callRelease | spurious => exact h.move nofun
  | enter θ callback hθ hm => exact Lib.Owned.take (hm ▸ h)
  | relock θ callback pos hθ hm => exact Lib.Owned.take (hm ▸ h)
  | pass θ callback pos hθ | callback θ callback pos hθ => exact h.move fun _ ↦ hθ ▸ rfl
  | sleep θ callback pos hθ | throw θ callback pos hθ => exact h.drop (hθ ▸ rfl) rfl
  | acquired θ pos hθ => exact h.drop (hθ ▸ rfl) rfl
  | released θ hθ hm => exact Lib.Owned.move (h.congr (holds_notifyAll _)) nofun

/-! ## The order -/

/-- What is true of a thread at a place, if these are the calls, the callbacks, and the number to be
served. -/
def Place.Fits (entered called : List Θ) (executing_pos_ : ℕ) (θ : Θ) : Place → Prop
  | .testing _ t | .asleep _ t | .awake _ t => entered[t]? = some θ ∧ called.length ≤ t
  | .executing _ t => entered[t]? = some θ ∧ called.length = t ∧ t = executing_pos_
  | .leaving t => entered[t]? = some θ ∧ called.length = t + 1 ∧ t = executing_pos_
  | _ => True

/-- The callbacks are run in the order of the numbers. -/
structure Ordered (h : List (State Θ × Label Θ)) (s : State Θ) : Prop where
  locked : Locked s
  jobs_cnt_ : (entered h).length = s.jobs_cnt_
  inOrder : called h <+: entered h
  executing_pos_ : s.executing_pos_ ≤ (called h).length
  fits : ∀ θ, (s.places θ).Fits (entered h) (called h) s.executing_pos_ θ

theorem ordered_init (n : ℤ) : Ordered [] (init n : State Θ) where
  locked := nofun
  jobs_cnt_ := rfl
  inOrder := List.prefix_rfl
  executing_pos_ := Nat.le_refl 0
  fits _ := trivial

/-- Only the holder of the mutex is where it matters which number is served. -/
theorem Place.Fits.of_not_holds {en ca : List Θ} {pos pos' : ℕ} {θ : Θ} {p : Place}
    (h : p.Fits en ca pos θ) (hp : p.holds = false) : p.Fits en ca pos' θ := by
  cases p <;> first | exact h | cases hp

theorem Place.Fits.notifyAll {en ca : List Θ} {pos : ℕ} {f : Θ → Place} {θ : Θ}
    (h : (f θ).Fits en ca pos θ) : (Lib.notifyAll awaken f θ).Fits en ca pos θ := by
  rw [Lib.notifyAll]
  revert h
  cases f θ <;> exact id

/-- One more call does not change the numbers of the others. -/
theorem Place.Fits.enter {en ca : List Θ} {pos : ℕ} {θ θ' : Θ} {p : Place}
    (h : p.Fits en ca pos θ) :
    p.Fits (en ++ [θ']) ca pos θ := by
  have hget {t : ℕ} (ht : en[t]? = some θ) : (en ++ [θ'])[t]? = some θ := by
    rw [List.getElem?_append_left (List.getElem?_eq_some_iff.mp ht).1]
    exact ht
  cases p <;> first | trivial | exact ⟨hget h.1, h.2⟩

/-- One more callback, of another thread, which had the next number. -/
theorem Place.Fits.callback {en ca : List Θ} {pos : ℕ} {θ θ' : Θ} {p : Place}
    (h : p.Fits en ca pos θ) (hp : p.holds = false) (hθ' : en[ca.length]? = some θ')
    (hne : θ ≠ θ') :
    p.Fits en (ca ++ [θ']) pos θ := by
  have hlt {t : ℕ} (ht : en[t]? = some θ ∧ ca.length ≤ t) : (ca ++ [θ']).length ≤ t := by
    have hneq : t ≠ ca.length := by
      rintro rfl
      exact hne (Option.some.inj (ht.1.symm.trans hθ'))
    rw [List.length_append, List.length_singleton]
    omega
  cases p <;> first | trivial | exact ⟨h.1, hlt h⟩

theorem entered_append (h : List (State Θ × Label Θ)) (s : State Θ) (l : Label Θ) :
    entered (h ++ [(s, l)]) = entered h ++ l.entered.toList :=
  Lib.filterMap_snoc Label.entered h s l

theorem called_append (h : List (State Θ × Label Θ)) (s : State Θ) (l : Label Θ) :
    called (h ++ [(s, l)]) = called h ++ l.called.toList :=
  Lib.filterMap_snoc Label.called h s l

/-- The number of a thread is that of the next callback, if it is the one to be served. -/
theorem Ordered.length_called {h : List (State Θ × Label Θ)} {s : State Θ} {θ : Θ}
    {callback : Callback} {pos : ℕ} (hord : Ordered h s) (hθ : s.places θ = .testing callback pos)
    (hr : s.ready pos = true) : (called h).length = pos ∧ pos = s.executing_pos_ := by
  have hfits := hord.fits θ
  rw [hθ] at hfits
  have hpos : pos = s.executing_pos_ := by
    simp only [State.ready, Bool.and_eq_true, beq_iff_eq] at hr
    exact hr.2
  have hle := hord.executing_pos_
  have hge := hfits.2
  omega

/-- A step by which nobody draws a number and no callback is run. -/
theorem Ordered.quiet {h : List (State Θ × Label Θ)} {s s' : State Θ} {l : Label Θ}
    (hord : Ordered h s) (he : l.entered = none) (hc : l.called = none) (hlocked : Locked s')
    (hj : s'.jobs_cnt_ = s.jobs_cnt_) (hpos : s'.executing_pos_ ≤ (called h).length)
    (hfits : ∀ θ, (s'.places θ).Fits (entered h) (called h) s'.executing_pos_ θ) :
    Ordered (h ++ [(s, l)]) s' := by
  have hen : entered (h ++ [(s, l)]) = entered h := by
    rw [entered_append, he, Option.toList_none, List.append_nil]
  have hca : called (h ++ [(s, l)]) = called h := by
    rw [called_append, hc, Option.toList_none, List.append_nil]
  refine ⟨hlocked, ?_, ?_, ?_, fun θ ↦ ?_⟩
  · rw [hen, hord.jobs_cnt_, hj]
  · rw [hen, hca]
    exact hord.inOrder
  · rw [hca]
    exact hpos
  · rw [hen, hca]
    exact hfits θ

/-- A callback is that of the next number. -/
theorem Ordered.callback {h : List (State Θ × Label Θ)} {s s' : State Θ} {θ : Θ}
    {callback : Callback} {pos : ℕ} {p : Place} (hord : Ordered h s)
    (hθ : s.places θ = .executing callback pos) (hlocked : Locked s')
    (hj : s'.jobs_cnt_ = s.jobs_cnt_) (hpos : s'.executing_pos_ = s.executing_pos_)
    (hplaces : s'.places = update s.places θ p) (hp : p = .leaving pos ∨ p = .idle) :
    Ordered (h ++ [(s, .callback θ)]) s' := by
  have hself := hord.fits θ
  rw [hθ] at hself
  obtain ⟨hget, hlen, hserved⟩ := hself
  have hnext : (entered h)[(called h).length]? = some θ := by rw [hlen, hget]
  have hen : entered (h ++ [(s, .callback θ)]) = entered h := by
    rw [entered_append]
    exact List.append_nil _
  have hca : called (h ++ [(s, .callback θ)]) = called h ++ [θ] := called_append h s _
  refine ⟨hlocked, ?_, ?_, ?_, fun θ' ↦ ?_⟩
  · rw [hen, hord.jobs_cnt_, hj]
  · rw [hen, hca]
    obtain ⟨rest, hrest⟩ := hord.inOrder
    rw [← hrest, List.getElem?_append_right (Nat.le_refl _), Nat.sub_self] at hnext
    obtain ⟨rest', rfl⟩ : ∃ rest', rest = θ :: rest' := by
      cases rest with
      | nil => cases hnext
      | cons x rest' => exact ⟨rest', by rw [Option.some.inj hnext]⟩
    exact ⟨rest', by rw [← hrest, List.append_assoc, List.singleton_append]⟩
  · rw [hca, List.length_append, hpos]
    exact hord.executing_pos_.trans (Nat.le_add_right _ _)
  · rw [hen, hca, hplaces, hpos]
    by_cases hne : θ' = θ
    · subst hne
      rw [update_self]
      rcases hp with rfl | rfl
      · exact ⟨hget, by rw [List.length_append, hlen, List.length_singleton], hserved⟩
      · trivial
    · rw [update_of_ne hne]
      refine (hord.fits θ').callback ?_ hnext hne
      by_contra hheld
      exact hne (hord.locked.unique (Bool.eq_true_of_not_eq_false hheld) (hθ ▸ rfl))

theorem ordered_step {h : List (State Θ × Label Θ)} {s s' : State Θ} {l : Label Θ}
    (hord : Ordered h s) (hstep : Step s l s') : Ordered (h ++ [(s, l)]) s' := by
  have hlocked := locked_step hord.locked hstep
  have hmoved {θ : Θ} {p : Place}
      (hself : p.Fits (entered h) (called h) s.executing_pos_ θ) (θ' : Θ) :
      (update s.places θ p θ').Fits (entered h) (called h) s.executing_pos_ θ' :=
    (Function.forall_update_iff s.places fun θ' p ↦ p.Fits _ _ _ θ').mpr
      ⟨hself, fun θ' _ ↦ hord.fits θ'⟩ θ'
  cases hstep with
  | callAcquire | callRelease =>
    exact hord.quiet rfl rfl hlocked rfl hord.executing_pos_ (hmoved trivial)
  | enter θ callback hθ hm =>
    have hen : entered (h ++ [(s, .enter θ)]) = entered h ++ [θ] := entered_append h s _
    have hca : called (h ++ [(s, .enter θ)]) = called h := by
      rw [called_append]
      exact List.append_nil _
    refine ⟨hlocked, ?_, ?_, ?_, fun θ' ↦ ?_⟩
    · rw [hen, List.length_append, hord.jobs_cnt_]
      rfl
    · rw [hen, hca]
      exact hord.inOrder.trans (List.prefix_append _ _)
    · rw [hca]
      exact hord.executing_pos_
    · rw [hen, hca]
      by_cases hne : θ' = θ
      · subst hne
        simp only [update_self]
        refine ⟨?_, ?_⟩
        · rw [← hord.jobs_cnt_, List.getElem?_append_right (Nat.le_refl _), Nat.sub_self]
          rfl
        · rw [← hord.jobs_cnt_]
          exact hord.inOrder.length_le
      · simp only [update_of_ne hne]
        exact (hord.fits θ').enter
  | pass θ callback pos hθ hr =>
    have hself := hord.fits θ
    rw [hθ] at hself
    have hlen := hord.length_called hθ hr
    exact hord.quiet rfl rfl hlocked rfl hord.executing_pos_ (hmoved ⟨hself.1, hlen⟩)
  | sleep θ callback pos hθ | spurious θ callback pos hθ | relock θ callback pos hθ =>
    have hself := hord.fits θ
    rw [hθ] at hself
    exact hord.quiet rfl rfl hlocked rfl hord.executing_pos_ (hmoved hself)
  | callback θ callback pos hθ => exact hord.callback hθ hlocked rfl rfl rfl (.inl rfl)
  | throw θ callback pos hθ => exact hord.callback hθ hlocked rfl rfl rfl (.inr rfl)
  | acquired θ pos hθ =>
    have hself := hord.fits θ
    rw [hθ] at hself
    obtain ⟨-, hlen, hserved⟩ := hself
    refine hord.quiet rfl rfl hlocked rfl (by rw [hlen, hserved]) fun θ' ↦ ?_
    by_cases hne : θ' = θ
    · subst hne
      simp only [update_self]
      trivial
    · simp only [update_of_ne hne]
      refine (hord.fits θ').of_not_holds ?_
      by_contra hheld
      exact hne (hord.locked.unique (Bool.eq_true_of_not_eq_false hheld) (hθ ▸ rfl))
  | released θ hθ hm =>
    refine hord.quiet rfl rfl hlocked rfl hord.executing_pos_ fun θ' ↦ ?_
    by_cases hne : θ' = θ
    · subst hne
      simp only [update_self]
      trivial
    · simp only [update_of_ne hne]
      exact (hord.fits θ').notifyAll

/-! ## The callbacks -/

/-- The callback with which the thread has called. -/
def Place.callback? : Place → Option Callback
  | .acquiring callback | .testing callback _ | .asleep callback _ | .awake callback _
  | .executing callback _ => some callback
  | _ => none

/-- Everybody who is in `Acquire` has called it with the callback that counts down. -/
def CountsDown (f : Θ → Place) : Prop := ∀ θ, ∀ callback ∈ (f θ).callback?, callback = countDown

theorem callback?_notifyAll (f : Θ → Place) (θ : Θ) :
    (Lib.notifyAll awaken f θ).callback? = (f θ).callback? := by
  rw [Lib.notifyAll]
  cases f θ <;> rfl

theorem CountsDown.update {f : Θ → Place} {θ : Θ} {p : Place} (h : CountsDown f)
    (hp : ∀ callback ∈ p.callback?, callback = countDown) :
    CountsDown (Function.update f θ p) :=
  (Function.forall_update_iff f fun _ p ↦ ∀ callback ∈ p.callback?, callback = countDown).mpr
    ⟨hp, fun θ' _ ↦ h θ'⟩

/-- A thread keeps its callback until it has been run. -/
theorem CountsDown.keep {f : Θ → Place} {θ : Θ} {p : Place} (h : CountsDown f)
    (hp : p.callback? = (f θ).callback?) : CountsDown (Function.update f θ p) :=
  h.update fun callback hcallback ↦ h θ callback (hp ▸ hcallback)

theorem countsDown_step {s s' : State Θ} {l : Label Θ} (h : CountsDown s.places)
    (hstep : Step s l s')
    (hl : ∀ θ callback, l = .callAcquire θ callback → callback = countDown) :
    CountsDown s'.places := by
  cases hstep with
  | callAcquire θ callback hθ =>
    refine h.update ?_
    rintro _ ⟨⟩
    exact hl θ callback rfl
  | callRelease | callback | throw | acquired => exact h.update nofun
  | enter θ callback hθ | pass θ callback pos hθ | sleep θ callback pos hθ
  | spurious θ callback pos hθ | relock θ callback pos hθ =>
    exact h.keep (congrArg Place.callback? hθ).symm
  | released θ hθ hm =>
    refine CountsDown.update (fun θ' callback hcallback ↦ ?_) nofun
    rw [callback?_notifyAll] at hcallback
    exact h θ' callback hcallback

/-- If all calls count down, then so does everybody who is in one. -/
theorem countsDown_of_trace {n : ℤ} {h : List (State Θ × Label Θ)} {s : State Θ}
    (hrun : Trace Step (init n) h s) (hall : AllCountDown h) : CountsDown s.places := by
  induction hrun with
  | nil => exact nofun
  | @snoc h s s' l hrun hstep ih =>
    have hbefore : AllCountDown h := fun x hx ↦ hall x (List.mem_append_left _ hx)
    exact countsDown_step (ih hbefore) hstep
      (hall (s, l) (List.mem_append_right _ List.mem_cons_self))

/-! ## The count -/

/-- A `Release` finds `count_` below the greatest `int`. -/
def HasRoom (s : State Θ) (l : Label Θ) : Prop := ∀ θ, l = .released θ → s.count_ < 2 ^ 31 - 1

/-- The callbacks account for the count. -/
structure Accounted (n : ℤ) (h : List (State Θ × Label Θ)) (s : State Θ) : Prop where
  balance : s.count_ = n + released h - (called h).length
  acquired : acquired h = s.executing_pos_
  settled : (∀ θ t, s.places θ ≠ .leaving t) → (called h).length = s.executing_pos_
  nonneg : 0 ≤ s.count_
  lt : s.count_ < 2 ^ 31
  able : ∀ θ callback t, s.places θ = .executing callback t → s.count_ ≠ 0

theorem accounted_init {n : ℤ} (hn : 0 ≤ n) (hmax : n < 2 ^ 31) :
    Accounted n [] (init n : State Θ) where
  balance := by simp [init, released, called]
  acquired := rfl
  settled _ := rfl
  nonneg := hn
  lt := hmax
  able := nofun

theorem acquired_append (h : List (State Θ × Label Θ)) (s : State Θ) (l : Label Θ) :
    acquired (h ++ [(s, l)]) = acquired h + l.isAcquired.toNat := by
  rw [acquired, List.countP_append]
  cases hl : l.isAcquired <;> simp [acquired, hl]

theorem released_append (h : List (State Θ × Label Θ)) (s : State Θ) (l : Label Θ) :
    released (h ++ [(s, l)]) = released h + l.isReleased.toNat := by
  rw [released, List.countP_append]
  cases hl : l.isReleased <;> simp [released, hl]

/-- A step of a thread to another place, with nothing that counts. -/
theorem Accounted.quiet {n : ℤ} {h : List (State Θ × Label Θ)} {s s' : State Θ} {l : Label Θ}
    {θ : Θ} {p : Place} (hacc : Accounted n h s)
    (hl : l.called = none ∧ l.isAcquired = false ∧ l.isReleased = false)
    (hs : s'.count_ = s.count_ ∧ s'.executing_pos_ = s.executing_pos_)
    (hplaces : s'.places = update s.places θ p) (hθ : ∀ t, s.places θ ≠ .leaving t)
    (hable : ∀ callback t, p = .executing callback t → s.count_ ≠ 0) :
    Accounted n (h ++ [(s, l)]) s' := by
  obtain ⟨hca, hac, hre⟩ := hl
  have hcalled : called (h ++ [(s, l)]) = called h := by
    rw [called_append, hca, Option.toList_none, List.append_nil]
  refine ⟨?_, ?_, fun hnone ↦ ?_, ?_, ?_, fun θ' callback t hθ' ↦ ?_⟩
  · rw [hcalled, released_append, hre, hs.1]
    exact hacc.balance
  · rw [acquired_append, hac, hs.2]
    exact hacc.acquired
  · rw [hcalled, hs.2]
    refine hacc.settled fun θ' t hθ' ↦ ?_
    by_cases hne : θ' = θ
    · exact hθ t (hne ▸ hθ')
    · exact hnone θ' t (by rw [hplaces, update_of_ne hne, hθ'])
  · rw [hs.1]
    exact hacc.nonneg
  · rw [hs.1]
    exact hacc.lt
  · rw [hs.1]
    rw [hplaces] at hθ'
    by_cases hne : θ' = θ
    · subst hne
      rw [update_self] at hθ'
      exact hable callback t hθ'
    · rw [update_of_ne hne] at hθ'
      exact hacc.able θ' callback t hθ'

/-- A thread that leaves its callback, or what comes after it, leaves nobody there. -/
theorem Ordered.not_executing {h : List (State Θ × Label Θ)} {s : State Θ} {θ : Θ} {p : Place}
    (hord : Ordered h s) (hθ : (s.places θ).holds = true)
    (hp : ∀ callback t, p ≠ .executing callback t) (θ' : Θ) (callback : Callback) (t : ℕ) :
    update s.places θ p θ' ≠ .executing callback t := by
  intro hθ'
  by_cases hne : θ' = θ
  · subst hne
    rw [update_self] at hθ'
    exact hp callback t hθ'
  · rw [update_of_ne hne] at hθ'
    exact hne (hord.locked.unique (congrArg Place.holds hθ') hθ)

theorem accounted_step {n : ℤ} {h : List (State Θ × Label Θ)} {s s' : State Θ} {l : Label Θ}
    (hord : Ordered h s) (hdown : CountsDown s.places) (hacc : Accounted n h s)
    (hstep : Step s l s') (hl : HasRoom s l) : Accounted n (h ++ [(s, l)]) s' := by
  cases hstep with
  | callAcquire θ callback hθ | callRelease θ hθ | enter θ callback hθ
  | relock θ callback pos hθ | sleep θ callback pos hθ | spurious θ callback pos hθ =>
    exact hacc.quiet ⟨rfl, rfl, rfl⟩ ⟨rfl, rfl⟩ rfl (by simp [hθ]) nofun
  | pass θ callback pos hθ hr =>
    refine hacc.quiet ⟨rfl, rfl, rfl⟩ ⟨rfl, rfl⟩ rfl (by simp [hθ]) fun _ _ _ ↦ ?_
    simp only [State.ready, Bool.and_eq_true, bne_iff_ne] at hr
    exact hr.1
  | callback θ callback pos hθ hr =>
    obtain rfl : callback = countDown := hdown θ callback (congrArg Place.callback? hθ)
    have hcalled : called (h ++ [(s, .callback θ)]) = called h ++ [θ] := called_append h s _
    -- The thread has seen that the count is not zero, so that it can be made one less.
    have hpos := hacc.able θ _ pos hθ
    have hnonneg := hacc.nonneg
    have hlt := hacc.lt
    have hcount : (countDown s.count_).1 = s.count_ - 1 :=
      Lib.wrap_of_inRange (by decide) ⟨by omega, by omega⟩
    refine ⟨?_, ?_, fun hnone ↦ absurd (update_self θ _ _) (hnone θ pos), ?_, ?_, ?_⟩
    · rw [hcalled, released_append, List.length_append]
      have hbalance := hacc.balance
      simp only [hcount, Label.isReleased, Bool.toNat_false, List.length_singleton]
      omega
    · rw [acquired_append]
      exact hacc.acquired
    · simp only [hcount]
      omega
    · simp only [hcount]
      omega
    · intro θ' callback t hθ'
      exact absurd hθ' (hord.not_executing (congrArg Place.holds hθ) (by simp) θ' callback t)
  | throw θ callback pos hθ hr =>
    obtain rfl : callback = countDown := hdown θ callback (congrArg Place.callback? hθ)
    cases hr
  | acquired θ pos hθ =>
    have hself := hord.fits θ
    rw [hθ] at hself
    obtain ⟨-, hlen, hserved⟩ := hself
    have hcalled : called (h ++ [(s, .acquired θ)]) = called h := by
      rw [called_append]
      exact List.append_nil _
    refine ⟨?_, ?_, fun _ ↦ ?_, hacc.nonneg, hacc.lt, ?_⟩
    · rw [hcalled, released_append]
      exact hacc.balance
    · rw [acquired_append, hacc.acquired]
      rfl
    · rw [hcalled, hlen, hserved]
    · intro θ' callback t hθ'
      exact absurd hθ' (hord.not_executing (congrArg Place.holds hθ) (by simp) θ' callback t)
  | released θ hθ hm =>
    have hcalled : called (h ++ [(s, .released θ)]) = called h := by
      rw [called_append]
      exact List.append_nil _
    have hfree (θ' : Θ) : (s.places θ').holds = false := by
      by_contra hheld
      cases hm.symm.trans (hord.locked θ' (Bool.eq_true_of_not_eq_false hheld))
    have hroom := hl θ rfl
    have hnonneg := hacc.nonneg
    have hcount : Lib.wrap 32 (s.count_ + 1) = s.count_ + 1 :=
      Lib.wrap_of_inRange (by decide) ⟨by omega, by omega⟩
    refine ⟨?_, ?_, fun _ ↦ ?_, ?_, ?_, fun θ' callback t hθ' ↦ ?_⟩
    · rw [hcalled, released_append]
      have hbalance := hacc.balance
      simp only [hcount, Label.isReleased, Bool.toNat_true]
      omega
    · rw [acquired_append]
      exact hacc.acquired
    · rw [hcalled]
      exact hacc.settled fun θ' t hθ' ↦ by simpa [hθ', Place.holds] using hfree θ'
    · simp only [hcount]
      omega
    · simp only [hcount]
      omega
    · by_cases hne : θ' = θ
      · subst hne
        simp at hθ'
      · simp only [update_of_ne hne] at hθ'
        have hheld := holds_notifyAll s.places θ'
        rw [hθ', hfree θ'] at hheld
        cases hheld

/-! ## Both together -/

theorem ordered_of_trace {n : ℤ} {h : List (State Θ × Label Θ)} {s : State Θ}
    (hrun : Trace Step (init n) h s) : Ordered h s :=
  hrun.invariant (ordered_init n) fun _ _ _ _ ↦ ordered_step

theorem accounted_of_trace {n : ℤ} (hn : 0 ≤ n) (hmax : n < 2 ^ 31)
    {h : List (State Θ × Label Θ)} {s : State Θ} (hrun : Trace Step (init n) h s)
    (hall : AllCountDown h) (hroom : ∀ x ∈ h, HasRoom x.1 x.2) : Accounted n h s := by
  induction hrun with
  | nil => exact accounted_init hn hmax
  | @snoc h s s' l hrun hstep ih =>
    have hbefore : AllCountDown h := fun x hx ↦ hall x (List.mem_append_left _ hx)
    have hacc := ih hbefore fun x hx ↦ hroom x (List.mem_append_left _ hx)
    exact accounted_step (ordered_of_trace hrun) (countsDown_of_trace hrun hbefore) hacc hstep
      (hroom (s, l) (List.mem_append_right _ List.mem_cons_self))

/-- **First come, first served.**  The callbacks are run one at a time, in the order in which the
calls took the mutex.  If they count down, and every `Release` finds the count below the greatest
`int`, then the count is never negative, and when the mutex is free it is what it was at first, plus
the calls of `Release` and minus those of `Acquire` that are complete. -/
theorem first_come_first_served {n : ℤ} (hn : 0 ≤ n) (hmax : n < 2 ^ 31)
    {h : List (State Θ × Label Θ)} {s : State Θ} (hrun : Trace Step (init n) h s) :
    called h <+: entered h ∧
      (∀ θ θ' callback callback' t t', s.places θ = .executing callback t →
        s.places θ' = .executing callback' t' → θ = θ') ∧
      (AllCountDown h → (∀ x ∈ h, HasRoom x.1 x.2) →
        0 ≤ s.count_ ∧ (s.mutex_ = none → s.count_ = n + released h - acquired h)) := by
  have hord := ordered_of_trace hrun
  refine ⟨hord.inOrder, fun θ θ' _ _ _ _ hθ hθ' ↦ ?_, fun hall hroom ↦ ?_⟩
  · exact hord.locked.unique (congrArg Place.holds hθ) (congrArg Place.holds hθ')
  · have hacc := accounted_of_trace hn hmax hrun hall hroom
    refine ⟨hacc.nonneg, fun hfree ↦ ?_⟩
    have hlen := hacc.settled fun θ t hθ ↦ by
      cases hfree.symm.trans (hord.locked θ (congrArg Place.holds hθ))
    rw [hacc.balance, hlen, hacc.acquired]

/-- The first of two threads has been served, and the second one sleeps. -/
theorem first_come_first_served_two :
    ∃ (h : List (State (Fin 2) × Label (Fin 2))) (s : State (Fin 2)),
      called h = [0] ∧ entered h = [0, 1] ∧ called h <+: entered h ∧
        s.count_ = 1 + released h - acquired h := by
  have hrun := (.nil : Trace Step (init 1 : State (Fin 2)) [] (init 1))
    |>.snoc (.callAcquire 0 countDown rfl)
    |>.snoc (.callAcquire 1 countDown rfl)
    |>.snoc (.enter 0 countDown rfl rfl)
    |>.snoc (.pass 0 countDown 0 rfl rfl)
    |>.snoc (.callback 0 countDown 0 rfl rfl)
    |>.snoc (.acquired 0 0 rfl)
    |>.snoc (.enter 1 countDown rfl rfl)
    |>.snoc (.sleep 1 countDown 1 rfl rfl)
  have hall := (first_come_first_served (by decide) (by decide) hrun).2.2
    (by simp [AllCountDown]) (by simp [HasRoom])
  exact ⟨_, _, rfl, rfl, (first_come_first_served (by decide) (by decide) hrun).1, hall.2 rfl⟩

/-- The condition is needed: a `Release` without room makes the count negative. -/
theorem count_neg_of_not_hasRoom {s s' : State Θ} {θ : Θ} (hstep : Step s (.released θ) s')
    (hmax : s.count_ < 2 ^ 31) (hroom : ¬HasRoom s (.released θ)) : s'.count_ < 0 := by
  simp only [HasRoom, Label.released.injEq, forall_eq', not_lt] at hroom
  cases hstep with
  | released =>
    have hcount : s.count_ = 2 ^ 31 - 1 := by omega
    simp only [hcount]
    decide

/-- A semaphore with the greatest count there is, and one `Release`. -/
theorem not_first_come_first_served :
    ¬∀ (n : ℤ) (h : List (State (Fin 1) × Label (Fin 1))) (s : State (Fin 1)), 0 ≤ n →
      n < 2 ^ 31 → Trace Step (init n) h s → AllCountDown h →
        0 ≤ s.count_ ∧ (s.mutex_ = none → s.count_ = n + released h - acquired h) := by
  intro hclaim
  have hrun := (.nil : Trace Step (init (2 ^ 31 - 1) : State (Fin 1)) [] (init (2 ^ 31 - 1)))
    |>.snoc (.callRelease 0 rfl)
    |>.snoc (.released 0 rfl rfl)
  have hall := hclaim _ _ _ (by decide) (by decide) hrun (by simp [AllCountDown])
  exact absurd hall.1 (by decide)

end Semaphore
end ManyTasks
