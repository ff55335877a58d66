import ManyTasks.Lib.Waiting
import ManyTasks.TimerQueue.Queue

/-!
# Waiting for the first value

`Pop` is to wait until there is a value that is due.  It does so by one `wait_until`, with the
condition that there is one, and with a time limit: the time point of the first value queued when
`Pop` begins, or ten seconds from then if there is none.  A `wait_until` ends when its condition
holds, or when the limit has passed, whether the condition holds then or not; and `Pop` goes on in
either case (`Step.expire`).

The mutex `edit_queue_` is held from the beginning of `Pop` to its end, except while it sleeps.
What `Add` does under it is one step.  A thread that sleeps may wake up at any time and for any
reason; what matters is what it does when it has the mutex again.  Time passes between any two steps
(`Step.tick`).

`pop_on_time` says that the rest of `Pop` is right: if every wait that ends by its limit ends when
there is a value that is due, no value is popped early, and none from an empty queue.  Every wait
does if only one thread pops, and only when something is queued (`prompt_of_alone`).  `not_on_time`
is what happens when nothing is added for ten seconds, and when another thread takes the value that
a thread waits for.
-/

set_option autoImplicit false

namespace ManyTasks
namespace TimerQueue

open Function (update update_self update_of_ne)
open Lib (Trace)

/-- `10s` -/
def tenSeconds : ℤ := 10 * 10 ^ 9

/-- Where a thread is. -/
inductive Place (V : Type) where
  | idle
  /-- In `Add`, before the mutex is taken. -/
  | adding (time : ℤ) (value : V)
  /-- In `Pop`, before the mutex is taken. -/
  | popping
  /-- Before the time limit is computed. -/
  | locked
  /-- Before the wait looks at its condition. -/
  | testing (limit : ℤ)
  | asleep (limit : ℤ)
  /-- Woken, before the mutex is taken again. -/
  | awake (limit : ℤ)
  /-- After the wait, before `queue_.begin()` is read. -/
  | taking
deriving DecidableEq, Repr

/-- The queue, the clock and the threads. -/
structure State (Θ V : Type) where
  queue_ : Queue V
  clock : ℤ
  /-- Who holds `edit_queue_`. -/
  edit_queue_ : Option Θ
  places : Θ → Place V

variable {Θ V : Type}

/-- An empty queue. -/
def init (clock : ℤ) : State Θ V := ⟨.empty, clock, none, fun _ ↦ .idle⟩

/-- What a step is. -/
inductive Action (Θ V : Type) where
  /-- A call of the queue has its effect. -/
  | call (θ : Θ) (l : Label V)
  /-- The wait of a thread has ended by its limit. -/
  | expire (θ : Θ)
  | tau
deriving DecidableEq, Repr

/-- The condition of the wait: there is a value, and it is due. -/
def State.ready (s : State Θ V) : Bool := s.queue_.front.any fun e ↦ e.1 ≤ s.clock

/-- `queue_.empty() ? now() + 10s : queue_.begin()->first` -/
def State.limit (s : State Θ V) : ℤ :=
  match s.queue_.front with
  | none => s.clock + tenSeconds
  | some e => e.1

/-- Who waits on `waiting_pop_`. -/
def awaken : Place V → Option (Place V)
  | .asleep limit => some (.awake limit)
  | _ => none

/-- The places at which the mutex is held. -/
def Place.holds : Place V → Bool
  | .locked | .testing _ | .taking => true
  | _ => false

variable [DecidableEq Θ]

/-- A thread goes on to another place. -/
def State.go (s : State Θ V) (θ : Θ) (p : Place V) : State Θ V :=
  { s with places := update s.places θ p }

/-- A thread has taken the mutex. -/
def State.lock (s : State Θ V) (θ : Θ) (p : Place V) : State Θ V :=
  { s with edit_queue_ := some θ, places := update s.places θ p }

/-- A thread has given the mutex back. -/
def State.unlock (s : State Θ V) (θ : Θ) (p : Place V) : State Θ V :=
  { s with edit_queue_ := none, places := update s.places θ p }

/-- Time passes. -/
def State.tick (s : State Θ V) (clock : ℤ) : State Θ V := { s with clock := clock }

/-- What is queued changes. -/
def State.store (s : State Θ V) (q : Queue V) : State Θ V := { s with queue_ := q }

/-- Somebody may have been woken. -/
def State.notify (s : State Θ V) (f : Θ → Place V) : State Θ V := { s with places := f }

/-- One step. -/
inductive Step : State Θ V → Action Θ V → State Θ V → Prop where
  | tick {s} (clock) (h : s.clock ≤ clock) : Step s .tau (s.tick clock)
  | callAdd {s} (θ time value) (h : s.places θ = .idle) :
      Step s .tau (s.go θ (.adding time value))
  /-- `queue_.emplace(...); waiting_pop_.notify_one()` -/
  | add {s} (θ time value f) (h : s.places θ = .adding time value) (hm : s.edit_queue_ = none)
      (hf : Lib.NotifyOne awaken (update s.places θ .idle) f) :
      Step s (.call θ (.add time value)) ((s.store (s.queue_.emplace time value)).notify f)
  | callPop {s} (θ) (h : s.places θ = .idle) : Step s .tau (s.go θ .popping)
  | lock {s} (θ) (h : s.places θ = .popping) (hm : s.edit_queue_ = none) :
      Step s .tau (s.lock θ .locked)
  | begin {s} (θ) (h : s.places θ = .locked) : Step s .tau (s.go θ (.testing s.limit))
  | pass {s} (θ limit) (h : s.places θ = .testing limit) (hr : s.ready = true) :
      Step s .tau (s.go θ .taking)
  | sleep {s} (θ limit) (h : s.places θ = .testing limit) (hr : s.ready = false) :
      Step s .tau (s.unlock θ (.asleep limit))
  /-- A wake-up without a notification, or because the limit has passed. -/
  | wakeUp {s} (θ limit) (h : s.places θ = .asleep limit) : Step s .tau (s.go θ (.awake limit))
  | relock {s} (θ limit) (h : s.places θ = .awake limit) (hm : s.edit_queue_ = none) :
      Step s .tau (s.lock θ (.testing limit))
  /-- The limit has passed.  The condition is looked at once more, but nobody asks for the
  result. -/
  | expire {s} (θ limit) (h : s.places θ = .awake limit) (hm : s.edit_queue_ = none)
      (hlimit : limit ≤ s.clock) : Step s (.expire θ) (s.lock θ .taking)
  | pop {s} (θ time value) (h : s.places θ = .taking) (hq : s.queue_.front = some (time, value)) :
      Step s (.call θ (.pop time value)) ((s.store s.queue_.eraseFront).unlock θ .idle)
  /-- There is nothing to read, and what follows is anything. -/
  | readEmpty {s} (θ q) (h : s.places θ = .taking) (hq : s.queue_.front = none) :
      Step s (.call θ .readEmpty) ((s.store q).unlock θ .idle)

/-! ## The calls -/

/-- The call that a step is the effect of, with the queue before it. -/
def call (x : State Θ V × Action Θ V) : Option (Queue V × Label V) :=
  match x.2 with
  | .call _ l => some (x.1.queue_, l)
  | _ => none

/-- The calls of a run in the order in which they had their effects. -/
def calls (h : List (State Θ V × Action Θ V)) : List (Queue V × Label V) := h.filterMap call

theorem Step.queue {s s' : State Θ V} {a : Action Θ V} (hstep : Step s a s') :
    (call (s, a) = none ∧ s'.queue_ = s.queue_) ∨
      ∃ l, call (s, a) = some (s.queue_, l) ∧ Queue.Step s.queue_ l s'.queue_ := by
  cases hstep with
  | add θ time value f h hm hf => exact .inr ⟨_, rfl, .add time value⟩
  | pop θ time value h hq => exact .inr ⟨_, rfl, .pop time value hq⟩
  | readEmpty θ q h hq => exact .inr ⟨_, rfl, .readEmpty q hq⟩
  | _ => exact .inl ⟨rfl, rfl⟩

/-- Whatever the threads do, it is a sequence of calls that have their effect one after the
other. -/
theorem trace_calls {clock : ℤ} {h : List (State Θ V × Action Θ V)} {s : State Θ V}
    (hrun : Trace Step (init clock) h s) : Trace Queue.Step .empty (calls h) s.queue_ := by
  unfold calls
  induction hrun with
  | nil => exact .nil
  | snoc hrun hstep ih =>
    rw [List.filterMap_append]
    rcases hstep.queue with ⟨hnone, hq⟩ | ⟨l, hsome, hq⟩
    · rw [hq]
      simpa [hnone] using ih
    · simpa [hsome] using ih.snoc hq

/-! ## When a value is popped -/

/-- A wait that ends by its limit ends when there is a value that is due. -/
def Prompt (s : State Θ V) : Action Θ V → Prop
  | .expire _ => s.ready = true
  | _ => True

/-- No value is popped early, and none from an empty queue. -/
def OnTime (s : State Θ V) : Action Θ V → Prop
  | .call _ .readEmpty => False
  | .call _ (.pop time _) => time ≤ s.clock
  | _ => True

/-- Who is about to take a value has the mutex, and there is one that is due. -/
structure Inv (s : State Θ V) : Prop where
  owned : Lib.Owned Place.holds s.places s.edit_queue_
  ready : ∀ θ, s.places θ = .taking → s.ready = true

omit [DecidableEq Θ] in
theorem eq_of_awaken {p p' : Place V} (h : awaken p = some p') :
    ∃ limit, p = .asleep limit ∧ p' = .awake limit := by
  unfold awaken at h
  split at h
  · exact ⟨_, rfl, (Option.some.inj h).symm⟩
  · cases h

/-- A thread goes on, and what was due is still due. -/
theorem Inv.of_go {s s' : State Θ V} {θ : Θ} {p : Place V}
    (hplaces : s'.places = update s.places θ p)
    (howned : Lib.Owned Place.holds (update s.places θ p) s'.edit_queue_)
    (hready : p = .taking → s'.ready = true)
    (hothers : ∀ θ' ≠ θ, s.places θ' = .taking → s'.ready = true) : Inv s' where
  owned := hplaces ▸ howned
  ready θ' h := by
    rw [hplaces] at h
    by_cases hθ : θ' = θ
    · subst hθ
      rw [update_self] at h
      exact hready h
    · rw [update_of_ne hθ] at h
      exact hothers θ' hθ h

omit [DecidableEq Θ] in
theorem State.ready_iff {s : State Θ V} :
    s.ready = true ↔ ∃ e, s.queue_.front = some e ∧ e.1 ≤ s.clock := by
  rw [State.ready, Option.any_eq_true]
  exact exists_congr fun e ↦ and_congr_right fun _ ↦ decide_eq_true_iff

omit [DecidableEq Θ] in
theorem State.ready_tick {s : State Θ V} {clock : ℤ} (hclock : s.clock ≤ clock)
    (h : s.ready = true) : (s.tick clock).ready = true := by
  rw [State.ready_iff] at h ⊢
  obtain ⟨e, he, hle⟩ := h
  exact ⟨e, he, hle.trans hclock⟩

/-- The mutex goes to a thread that was waiting for it. -/
theorem Inv.take {s : State Θ V} {θ : Θ} {p : Place V} (hinv : Inv s) (hm : s.edit_queue_ = none)
    (hready : p = .taking → s.ready = true) :
    Inv (s.lock θ p) := by
  have howned := hinv.owned
  rw [hm] at howned
  exact .of_go rfl howned.take hready fun θ' _ h ↦ hinv.ready θ' h

/-- The holder of the mutex goes on and gives it back. -/
theorem Inv.leave {s : State Θ V} {θ : Θ} {p : Place V} (hinv : Inv s) {q : Queue V}
    (hθ : (s.places θ).holds = true) (hp : p.holds = false) :
    Inv ((s.store q).unlock θ p) := by
  refine .of_go rfl (hinv.owned.drop hθ hp) ?_ fun θ' hne h ↦ ?_
  · rintro rfl
    cases hp
  · have hholds : (s.places θ').holds = true := by rw [show s.places θ' = .taking from h]; rfl
    exact absurd (hinv.owned.unique hholds hθ) hne

/-- A thread goes on, and neither takes the mutex nor gives it back. -/
theorem Inv.keep {s : State Θ V} {θ : Θ} {p : Place V} (hinv : Inv s)
    (hp : p.holds = true → (s.places θ).holds = true) (hready : p = .taking → s.ready = true) :
    Inv (s.go θ p) :=
  .of_go rfl (hinv.owned.move hp) hready fun θ' _ h ↦ hinv.ready θ' h

theorem Inv.add {s : State Θ V} {θ : Θ} {f : Θ → Place V} {q : Queue V} (hinv : Inv s)
    (hm : s.edit_queue_ = none) (hf : Lib.NotifyOne awaken (update s.places θ .idle) f) :
    Inv ((s.store q).notify f) := by
  -- the mutex is free, so nobody is where it is held
  have hfree : ∀ θ', (f θ').holds = false := by
    intro θ'
    rw [← Bool.not_eq_true]
    intro hholds
    rcases hf.apply θ' with hsame | hwoken
    · rw [hsame] at hholds
      by_cases hθ : θ' = θ
      · subst hθ
        rw [update_self] at hholds
        cases hholds
      · rw [update_of_ne hθ] at hholds
        have hm' := hinv.owned θ' hholds
        rw [hm] at hm'
        cases hm'
    · obtain ⟨limit, -, hnew⟩ := eq_of_awaken hwoken
      rw [hnew] at hholds
      cases hholds
  constructor
  · intro θ' hholds
    have hnot := (hfree θ').symm.trans hholds
    cases hnot
  · intro θ' htaking
    have hholds := hfree θ'
    rw [show f θ' = .taking from htaking] at hholds
    cases hholds

/-- One step, of a wait that does not end too late or too early. -/
theorem Inv.step {s s' : State Θ V} {a : Action Θ V} (hinv : Inv s) (hstep : Step s a s')
    (hprompt : Prompt s a) : Inv s' ∧ OnTime s a := by
  cases hstep with
  | tick clock h =>
    exact ⟨⟨hinv.owned, fun θ hθ ↦ State.ready_tick h (hinv.ready θ hθ)⟩, trivial⟩
  | callAdd θ time value h | callPop θ h | wakeUp θ limit h =>
    exact ⟨hinv.keep (by simp [Place.holds]) (by simp), trivial⟩
  | begin θ h => exact ⟨hinv.keep (by simp [h, Place.holds]) (by simp), trivial⟩
  | pass θ limit h hr => exact ⟨hinv.keep (by simp [h, Place.holds]) fun _ ↦ hr, trivial⟩
  | add θ time value f h hm hf => exact ⟨hinv.add hm hf, trivial⟩
  | lock θ h hm | relock θ limit h hm => exact ⟨hinv.take hm (by simp), trivial⟩
  | expire θ limit h hm hlimit => exact ⟨hinv.take hm fun _ ↦ hprompt, trivial⟩
  | sleep θ limit h hr => exact ⟨hinv.leave (by simp [h, Place.holds]) rfl, trivial⟩
  | pop θ time value h hq =>
    obtain ⟨e, hfront, hle⟩ := State.ready_iff.mp (hinv.ready θ h)
    rw [hq, Option.some.injEq] at hfront
    subst hfront
    exact ⟨hinv.leave (by simp [h, Place.holds]) rfl, hle⟩
  | readEmpty θ q h hq =>
    obtain ⟨e, hfront, -⟩ := State.ready_iff.mp (hinv.ready θ h)
    simp [hq] at hfront

omit [DecidableEq Θ] in
theorem inv_init (clock : ℤ) : Inv (init clock : State Θ V) where
  owned _ h := by cases h
  ready _ h := by cases h

/-- **No value is popped early, and none from an empty queue**, in any run in which no wait ends by
its limit when there is no value that is due. -/
theorem pop_on_time {clock : ℤ} {h : List (State Θ V × Action Θ V)} {s : State Θ V}
    (hrun : Trace Step (init clock) h s) (hprompt : ∀ x ∈ h, Prompt x.1 x.2) :
    (∀ x ∈ h, OnTime x.1 x.2) ∧
      ∀ θ, s.places θ = .taking → ∃ e, s.queue_.front = some e ∧ e.1 ≤ s.clock := by
  obtain ⟨hinv, htime⟩ := hrun.forall_of_step (I := Inv) hprompt (inv_init clock)
    fun s a s' hinv hstep hp ↦ hinv.step hstep hp
  exact ⟨htime, fun θ hθ ↦ State.ready_iff.mp (hinv.ready θ hθ)⟩

/-- A value that is due at `5` is popped at `5`, by a thread whose wait has ended by its limit. -/
theorem pop_on_time_expire : ∃ (h : List (State Bool ℕ × Action Bool ℕ)) (s : State Bool ℕ),
    Trace Step (init 0) h s ∧ calls h ≠ [] ∧ (∀ x ∈ h, OnTime x.1 x.2) ∧
      ∀ θ, s.places θ = .taking → ∃ e, s.queue_.front = some e ∧ e.1 ≤ s.clock := by
  have hrun := (.nil : Trace Step (init 0 : State Bool ℕ) [] _)
    |>.snoc (.callAdd true 5 1 rfl)
    |>.snoc (.add true 5 1 _ rfl rfl (.nobody (by decide)))
    |>.snoc (.callPop false rfl)
    |>.snoc (.lock false rfl rfl)
    |>.snoc (.begin false rfl)
    |>.snoc (.sleep false 5 rfl rfl)
    |>.snoc (.tick 5 (by decide))
    |>.snoc (.wakeUp false 5 rfl)
    |>.snoc (.expire false 5 rfl rfl (by decide))
    |>.snoc (.pop false 5 1 rfl rfl)
  have hontime := pop_on_time hrun (by
    simp only [List.forall_mem_append, List.forall_mem_singleton]
    simp [Prompt]
    rfl)
  exact ⟨_, _, hrun, by simp [calls, call], hontime⟩

/-! ## One consumer -/

/-- Whoever begins to wait is this thread, and something is queued then. -/
def Alone (θ₀ : Θ) (s : State Θ V) : Prop :=
  ∀ θ, s.places θ = .locked → θ = θ₀ ∧ s.queue_.front ≠ none

/-- Who waits is this thread, and the value that it waits for is still queued. -/
def Place.Awaits (θ₀ θ : Θ) (q : Queue V) : Place V → Prop
  | .testing limit | .asleep limit | .awake limit => θ = θ₀ ∧ ∃ value, (limit, value) ∈ q.entries
  | .taking => θ = θ₀
  | _ => True

omit [DecidableEq Θ] in
theorem Place.Awaits.emplace {θ₀ θ : Θ} {q : Queue V} {p : Place V} (time : ℤ) (value : V)
    (h : p.Awaits θ₀ θ q) : p.Awaits θ₀ θ (q.emplace time value) := by
  cases p with
  | testing limit | asleep limit | awake limit =>
    obtain ⟨hθ, v, hv⟩ := h
    exact ⟨hθ, v, Queue.mem_emplace time value hv⟩
  | taking => exact h
  | idle | adding | popping | locked => trivial

theorem awaits_step {θ₀ : Θ} {s s' : State Θ V} {a : Action Θ V}
    (hawaits : ∀ θ, (s.places θ).Awaits θ₀ θ s.queue_) (hstep : Step s a s') (halone : Alone θ₀ s) :
    (∀ θ, (s'.places θ).Awaits θ₀ θ s'.queue_) ∧ Prompt s a := by
  have go (θ : Θ) (p : Place V) (hp : p.Awaits θ₀ θ s.queue_) :
      ∀ θ', (update s.places θ p θ').Awaits θ₀ θ' s.queue_ :=
    (Function.forall_update_iff s.places fun θ' p ↦ p.Awaits θ₀ θ' s.queue_).mpr
      ⟨hp, fun θ' _ ↦ hawaits θ'⟩
  -- who takes a value is the only one that waits
  have leave (θ : Θ) (q : Queue V) (h : s.places θ = .taking) :
      ∀ θ', (update s.places θ .idle θ').Awaits θ₀ θ' q := by
    have hθ : θ = θ₀ := by simpa [h, Place.Awaits] using hawaits θ
    refine (Function.forall_update_iff s.places fun θ' p ↦ p.Awaits θ₀ θ' q).mpr
      ⟨trivial, fun θ' hne ↦ ?_⟩
    have hother := hawaits θ'
    rw [← hθ] at hother ⊢
    cases hplace : s.places θ' with
    | testing limit | asleep limit | awake limit =>
      rw [hplace] at hother
      exact absurd hother.1 hne
    | taking =>
      rw [hplace] at hother
      exact absurd hother hne
    | idle | adding | popping | locked => trivial
  cases hstep with
  | tick clock h => exact ⟨hawaits, trivial⟩
  | callAdd θ time value h | callPop θ h | lock θ h hm => exact ⟨go θ _ trivial, trivial⟩
  | add θ time value f h hm hf =>
    refine ⟨fun θ' ↦ Place.Awaits.emplace time value ?_, trivial⟩
    change (f θ').Awaits θ₀ θ' s.queue_
    rcases hf.apply θ' with hsame | hwoken
    · rw [hsame]
      exact go θ .idle trivial θ'
    · obtain ⟨limit, hasleep, hawake⟩ := eq_of_awaken hwoken
      have hbefore := go θ .idle trivial θ'
      rw [hasleep] at hbefore
      rw [hawake]
      exact hbefore
  | begin θ h =>
    obtain ⟨hθ, hfront⟩ := halone θ h
    obtain ⟨e, he⟩ := Option.ne_none_iff_exists'.mp hfront
    have hlimit : s.limit = e.1 := by rw [State.limit, he]
    refine ⟨go θ _ ⟨hθ, e.2, ?_⟩, trivial⟩
    rw [hlimit, Queue.entries_of_front he]
    exact List.mem_cons_self
  | pass θ limit h hr =>
    have hwaits := hawaits θ
    rw [h] at hwaits
    exact ⟨go θ .taking hwaits.1, trivial⟩
  | sleep θ limit h hr | wakeUp θ limit h | relock θ limit h hm =>
    have hwaits := hawaits θ
    rw [h] at hwaits
    exact ⟨go θ _ hwaits, trivial⟩
  | expire θ limit h hm hlimit =>
    have hwaits := hawaits θ
    rw [h] at hwaits
    obtain ⟨hθ, value, hvalue⟩ := hwaits
    refine ⟨go θ .taking hθ, State.ready_iff.mpr ?_⟩
    -- what it waits for is due, and so is what is before it
    obtain ⟨e, he⟩ : ∃ e, s.queue_.front = some e :=
      Option.isSome_iff_exists.mp (List.isSome_head?.mpr (List.ne_nil_of_mem hvalue))
    exact ⟨e, he, (Queue.le_of_front he _ hvalue).trans hlimit⟩
  | pop θ time value h hq => exact ⟨leave θ _ h, trivial⟩
  | readEmpty θ q h hq => exact ⟨leave θ _ h, trivial⟩

/-- **One consumer that only calls `Pop` when something is queued.**  Every wait that ends by its
limit ends when there is a value that is due. -/
theorem prompt_of_alone {θ₀ : Θ} {clock : ℤ} {h : List (State Θ V × Action Θ V)} {s : State Θ V}
    (hrun : Trace Step (init clock) h s) (halone : ∀ x ∈ h, Alone θ₀ x.1) :
    ∀ x ∈ h, Prompt x.1 x.2 :=
  (hrun.forall_of_step (I := fun s ↦ ∀ θ, (s.places θ).Awaits θ₀ θ s.queue_) halone
    (fun _ ↦ trivial) fun _ _ _ hawaits hstep halone ↦ awaits_step hawaits hstep halone).2

/-! ## Too late and too early -/

/-- Nothing is added for ten seconds, and `Pop` reads the empty queue.  And of two threads that wait
for a value that is due at `5`, one takes it; what the other takes, when its limit has passed as
well, is a value that has been added in the meantime and is due at `50`. -/
theorem not_on_time :
    (∃ (h : List (State Bool ℕ × Action Bool ℕ)) (s : State Bool ℕ), Trace Step (init 0) h s ∧
      ∃ x ∈ h, x.2 = .call true .readEmpty) ∧
    ∃ (h : List (State Bool ℕ × Action Bool ℕ)) (s : State Bool ℕ), Trace Step (init 0) h s ∧
      ∃ x ∈ h, x.1.clock = 5 ∧ x.2 = .call true (.pop 50 2) := by
  have hempty := (.nil : Trace Step (init 0 : State Bool ℕ) [] _)
    |>.snoc (.callPop true rfl)
    |>.snoc (.lock true rfl rfl)
    |>.snoc (.begin true rfl)
    |>.snoc (.sleep true tenSeconds rfl rfl)
    |>.snoc (.tick tenSeconds (by decide))
    |>.snoc (.wakeUp true tenSeconds rfl)
    |>.snoc (.expire true tenSeconds rfl rfl le_rfl)
    |>.snoc (.readEmpty true .empty rfl rfl)
  have hearly := (.nil : Trace Step (init 0 : State Bool ℕ) [] _)
    |>.snoc (.callAdd false 5 1 rfl)
    |>.snoc (.add false 5 1 _ rfl rfl (.nobody (by decide)))
    |>.snoc (.callPop true rfl)
    |>.snoc (.lock true rfl rfl)
    |>.snoc (.begin true rfl)
    |>.snoc (.sleep true 5 rfl rfl)
    |>.snoc (.tick 5 (by decide))
    |>.snoc (.callPop false rfl)
    |>.snoc (.lock false rfl rfl)
    |>.snoc (.begin false rfl)
    |>.snoc (.pass false 5 rfl rfl)
    |>.snoc (.pop false 5 1 rfl rfl)
    |>.snoc (.callAdd false 50 2 rfl)
    |>.snoc (.add false 50 2 _ rfl rfl (.one true (.awake 5) rfl))
    |>.snoc (.expire true 5 rfl rfl (by decide))
    |>.snoc (.pop true 50 2 rfl rfl)
  exact ⟨⟨_, _, hempty, _, List.mem_append_right _ List.mem_cons_self, rfl⟩,
    _, _, hearly, _, List.mem_append_right _ List.mem_cons_self, rfl, rfl⟩

end TimerQueue
end ManyTasks
