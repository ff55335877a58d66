import ManyTasks.Cactus.Scheduler

/-!
# What fibers do, change by change

Between two states of the scheduler the fiber that runs may do a lot: it unlocks a mutex, wakes
another fiber, puts itself into a list, finds that it is canceled, leaves the list, passes the
notification on.  Here every call is taken apart into changes (`Change`), each of which keeps what
is true of the state, so that an invariant needs one argument for a change and none for a call.

In between the fiber is somewhere inside a call, and that is its `Phase`: it may be in a list
already and not be parked yet, or it may have come back and still be in the list.

* `Ran`: what the fiber comes to, with changes from some phase on: it goes on, or it is parked.
* `ran_call`, `ran_unparked`: every call is such, and so is coming back to `Park`.
* `Step.cases`: what a step of the scheduler is.
-/

set_option autoImplicit false
set_option linter.unusedSectionVars false

namespace ManyTasks
namespace Cactus

variable {F G Q M S : Type} [DecidableEq F] [DecidableEq G] [DecidableEq Q] [DecidableEq M]
  [DecidableEq S]

open Function (update)

/-! ## The run queue -/

/-- The run queue after `Unpark`. -/
def enqueue (f : F) (l : List F) : List F := if f ∈ l then l else l ++ [f]

@[simp] theorem mem_enqueue {f g : F} {l : List F} : g ∈ enqueue f l ↔ g ∈ l ∨ g = f := by
  unfold enqueue
  split
  · rename_i hf
    exact ⟨.inl, fun h ↦ h.elim id fun h ↦ h ▸ hf⟩
  · rw [List.mem_append, List.mem_singleton]

theorem nodup_enqueue {f : F} {l : List F} (h : l.Nodup) : (enqueue f l).Nodup := by
  unfold enqueue
  split
  · exact h
  · rename_i hf
    exact h.append (List.nodup_singleton f) (List.disjoint_singleton.mpr hf)

section

variable (f : F) (s : Sched F G Q M S)

theorem unpark_eq : unpark f s = { s with run_queue_ := enqueue f s.run_queue_ } := by
  unfold unpark enqueue
  split <;> rfl

theorem interrupt_eq :
    interrupt f s = { s with
      run_queue_ := if s.cancel_guarded_ f then s.run_queue_ else enqueue f s.run_queue_ } := by
  unfold interrupt
  split
  · rfl
  · exact unpark_eq f s

theorem cancel_eq :
    cancel f s = { s with
      canceled_ := update s.canceled_ f true,
      run_queue_ := if s.cancel_guarded_ f then s.run_queue_ else enqueue f s.run_queue_ } :=
  interrupt_eq f _

theorem notifyTimeout_eq (timer : ℕ) :
    notifyTimeout f timer s =
      { s with
        timedout_ := update s.timedout_ f true,
        owed := update s.owed f (s.owed f ++ [timer]),
        run_queue_ := if s.cancel_guarded_ f then s.run_queue_ else enqueue f s.run_queue_ } :=
  interrupt_eq f _

/-- What `unpark?` makes of the run queue. -/
def enqueue? (x : Option F) (l : List F) : List F := x.elim l fun g ↦ enqueue g l

theorem unpark?_eq (x : Option F) :
    unpark? x s = { s with run_queue_ := enqueue? x s.run_queue_ } := by
  cases x with
  | none => rfl
  | some g => exact unpark_eq g s

end

theorem mem_enqueue? {x : Option F} {g : F} {l : List F} :
    g ∈ enqueue? x l ↔ g ∈ l ∨ x = some g := by
  cases x with
  | none => simp [enqueue?]
  | some h => simp [enqueue?, eq_comm]

theorem nodup_enqueue? {x : Option F} {l : List F} (h : l.Nodup) : (enqueue? x l).Nodup := by
  cases x with
  | none => exact h
  | some g => exact nodup_enqueue h

/-! ## Notifications -/

section

variable (s : Sched F G Q M S) (q : Waiters Q M)

theorem notify_cons {w : F} {ws : List F} (n : ℕ) (h : s.waiters_ q = w :: ws) :
    notify q n s = { s with
      waiters_ := update s.waiters_ q ws,
      wakeup := update s.wakeup w (some n),
      run_queue_ := enqueue w s.run_queue_ } := by
  unfold notify
  rw [h]
  exact unpark_eq w _

theorem notifyOne_nil (h : s.waiters_ q = []) : notifyOne q s = s := if_pos h

theorem notifyOne_cons {w : F} {ws : List F} (h : s.waiters_ q = w :: ws) :
    notifyOne q s = { s with
      waiters_ := update s.waiters_ q ws,
      wakeup := update s.wakeup w (some s.notifications),
      run_queue_ := enqueue w s.run_queue_,
      notifications := s.notifications + 1 } := by
  unfold notifyOne
  rw [if_neg (by rw [h]; exact List.cons_ne_nil w ws)]
  exact notify_cons { s with notifications := s.notifications + 1 } q s.notifications h

end

/-! ## Changes -/

/-- How far the fiber that runs has come in a call. -/
inductive Phase (F G Q M S : Type) where
  | free
  /-- `Mutex::Lock` is about to look at `locked_`. -/
  | locking (m : M)
  /-- The destructor of `Fiber`, before `Join`. -/
  | joining (c : F)
  /-- The destructor of `Group`, before `Park`. -/
  | closing (g : G)
  /-- About to be parked. -/
  | entering (w : Where F G Q M S)
  /-- It was parked, and runs again. -/
  | back (w : Where F G Q M S)
  /-- An exception is thrown. -/
  | leaving (w : Where F G Q M S)
deriving DecidableEq

/-- Where the fiber is, as if it were parked. -/
def Phase.where? : Phase F G Q M S → Option (Where F G Q M S)
  | .entering w | .back w | .leaving w => some w
  | _ => none

/-- It has come back from `Park`, or an exception has left it. -/
def Phase.Left (x : Phase F G Q M S) : Prop := ∃ w, x = .back w ∨ x = .leaving w

/-- What is done after `WaitQueue::Wait` has returned. -/
def Where.after : Where F G Q M S → Phase F G Q M S
  | .lock m | .condWait _ m | .relock _ m => .locking m
  | _ => .free

/-- The call does not destroy the fiber that makes it, nor a group with this fiber, and no fiber is
spawned into a group whose destructor has been woken already. -/
def careful (f : F) (s : Sched F G Q M S) : Op F G Q M S → Bool
  | .destroyFiber c => c ≠ f
  | .destroyGroup g => f ∉ s.fibers_ g
  | .spawn g _ => s.joiner_ g = none ∨ s.fibers_ g ≠ []
  | _ => true

/-- A change that the fiber `f` makes while it runs.  Where `strict` holds, its calls are
`careful`. -/
inductive Change (strict : Prop) (f : F) :
    Phase F G Q M S × Sched F G Q M S → Phase F G Q M S × Sched F G Q M S → Prop where
  -- up to `Park`
  | yield {s} : Change strict f (.free, s) (.entering .yield, unpark f s)
  | sleep {s} (deadline : ℕ) :
      Change strict f (.free, s) (.entering (.sleep s.timers), activate f deadline false s)
  | link {s x} (w q) (hx : x = .free ∨ ∃ m, x = .locking m ∧ s.locked_ m = true)
      (hw : w.queue? = some q) (hq : ∀ m, q = .lockers m → s.locked_ m = true) :
      Change strict f (x, s) (.entering w, link f q s)
  | join {s} (c) (hc : strict → c ≠ f) :
      Change strict f (.joining c, s) (.entering (.join c (s.cancel_guarded_ f)),
        { s with cancel_guarded_ := update s.cancel_guarded_ f true,
                 waiter_ := update s.waiter_ c (some f) })
  | group {s} (g) (hg : s.fibers_ g ≠ []) (hf : strict → f ∉ s.fibers_ g) :
      Change strict f (.closing g, s) (.entering (.group g (s.cancel_guarded_ f)),
        { s with cancel_guarded_ := update s.cancel_guarded_ f true,
                 joiner_ := update s.joiner_ g (some f) })
  | waitGroup {s} (g) (hg : s.groupWaiter_ g = none) :
      Change strict f (.free, s) (.entering (.waitGroup g),
        { s with groupWaiter_ := update s.groupWaiter_ g (some f) })
  | fdWait {s} (slot) (hslot : s.slot_ slot = none) :
      Change strict f (.free, s) (.entering (.fd slot),
        { s with slot_ := update s.slot_ slot (some f) })
  -- an exception
  | raise {s x} (w e) (hx : x = .entering w ∨ x = .back w) (he : pendingExc s f = some e) :
      Change strict f (x, s) (.leaving w, raise f e s)
  | pass {s} (w q) (hw : w.queue? = some q) :
      Change strict f (.leaving w, s) (.free, passWakeup f q s)
  -- after `Park`
  | wake {s x} (timer) (hx : x = .back (.sleep timer) ∨ x = .leaving (.sleep timer)) :
      Change strict f (x, s) (.free, deactivate timer s)
  | cleanup {s x} (w) (hx : x = .back w ∨ x = .leaving w) (hw : w.queue? = none)
      (hs : ∀ t, w ≠ .sleep t) : Change strict f (x, s) (.free, cleanup s w)
  | leaveWait {s} (w q) (hw : w.queue? = some q) :
      Change strict f (.back w, s) (w.after, leaveWait f q s)
  | joined {s} (c saved) :
      Change strict f (.back (.join c saved), s)
        (.free, proceed f (.join c saved) (cleanup s (.join c saved)))
  | groupJoined {s} (g saved) :
      Change strict f (.back (.group g saved), s)
        (.free, proceed f (.group g saved) (cleanup s (.group g saved)))
  -- mutexes and notifications
  | locking {s} (m) : Change strict f (.free, s) (.locking m, s)
  | take {s} (m) (hm : s.locked_ m = false) :
      Change strict f (.locking m, s)
        (.free, { s with
          locked_ := update s.locked_ m true,
          held := update s.held f (m :: s.held f) })
  | unlock {s} (m) (hm : m ∈ s.held f) : Change strict f (.free, s) (.free, unlock f m s)
  | notifyOne {s} (q) : Change strict f (.free, s) (.free, notifyOne q s)
  | fdReset {s} (slot) : Change strict f (.free, s)
      (.free, unpark? (s.slot_ slot) { s with slot_ := update s.slot_ slot none })
  -- fibers and groups
  | fiber {s} (c) (hc : s.state_ c = none) :
      Change strict f (.free, s) (.free, newFiber c { s with object := update s.object c true })
  | spawn {s} (g c) (hc : s.state_ c = none) (hg : s.life g ≠ .gone)
      (hstrict : strict → s.joiner_ g = none ∨ s.fibers_ g ≠ []) :
      Change strict f (.free, s) (.free, spawn g c s)
  | destroyFiber {s} (c) (hc : s.object c = true) (hdead : s.state_ c ≠ some .Dead) :
      Change strict f (.free, s) (.joining c, { s with object := update s.object c false })
  | destroyDead {s} (c) (hc : s.object c = true) (hdead : s.state_ c = some .Dead) :
      Change strict f (.free, s) (.free, { s with
        object := update s.object c false,
        log := s.log ++ [.joined c (s.state_ c)] })
  | cancelFiber {s} (c) (hc : strict → c ≠ f) :
      Change strict f (.joining c, s) (.joining c, cancel c s)
  | destroyGroup {s} (g) (hg : s.life g = .alive) :
      Change strict f (.free, s) (.closing g, { s with life := update s.life g .closing })
  | destroyEmpty {s} (g) (hg : s.life g = .alive) (hempty : s.fibers_ g = []) :
      Change strict f (.free, s) (.free, { s with
        log := s.log ++ [.groupJoined g (s.fibers_ g)],
        life := update s.life g .gone })
  | cancelMember {s} (g c) (hc : c ∈ s.fibers_ g) (hf : strict → f ∉ s.fibers_ g) :
      Change strict f (.closing g, s) (.closing g, cancel c s)
  -- scopes
  | timeoutGuard {s} (duration) :
      Change strict f (.free, s) (.free, call f s (.timeoutGuard duration))
  | cancelGuard {s} : Change strict f (.free, s) (.free, call f s .cancelGuard)

/-- Some changes one after the other. -/
def Changes (strict : Prop) (f : F) :
    Phase F G Q M S × Sched F G Q M S → Phase F G Q M S × Sched F G Q M S → Prop :=
  Relation.ReflTransGen (Change strict f)

/-- The fiber comes to this state by changes from the phase on: it goes on, or it is parked. -/
inductive Ran (strict : Prop) (f : F) (r : Phase F G Q M S × Sched F G Q M S) :
    Sched F G Q M S → Prop where
  | returns {s : Sched F G Q M S} (h : Changes strict f r (.free, s)) : Ran strict f r s
  | parks {w : Where F G Q M S} {s : Sched F G Q M S} (h : Changes strict f r (.entering w, s))
      (hnone : pendingExc s f = none) :
      Ran strict f r { s with parked := update s.parked f (some w), loop := .poll }

theorem Ran.trans {strict : Prop} {f : F} {r r' : Phase F G Q M S × Sched F G Q M S}
    {s : Sched F G Q M S} (h : Changes strict f r r') (hran : Ran strict f r' s) :
    Ran strict f r s := by
  cases hran with
  | returns h' => exact .returns (h.trans h')
  | parks h' hnone => exact .parks (h.trans h') hnone

theorem Ran.of_change {strict : Prop} {f : F} {r r' : Phase F G Q M S × Sched F G Q M S}
    {s : Sched F G Q M S} (h : Change strict f r r') (hran : Ran strict f r' s) :
    Ran strict f r s :=
  .trans (.single h) hran

/-! ## Calls are made of changes -/

section

variable {strict : Prop} {f : F} (s : Sched F G Q M S)

/-- An exception leaves the call. -/
theorem ran_throwExc {x : Phase F G Q M S} {w : Where F G Q M S} {e : Exc}
    (hx : x = .entering w ∨ x = .back w) (he : pendingExc s f = some e) :
    Ran strict f (x, s) (throwExc f w e s) := by
  refine .of_change (.raise w e hx he) ?_
  unfold throwExc
  cases w with
  | wait q => exact .of_change (.pass _ _ rfl) (.returns .refl)
  | condWait cv m => exact .of_change (.pass _ _ rfl) (.returns .refl)
  | lock m => exact .of_change (.pass _ _ rfl) (.returns .refl)
  | relock cv m =>
    exact .of_change (.pass _ _ rfl) (.of_change (.notifyOne _) (.returns .refl))
  | sleep timer => exact .of_change (.wake timer (.inr rfl)) (.returns .refl)
  | _ => exact .of_change (.cleanup _ (.inr rfl) rfl (fun t ht ↦ nomatch ht)) (.returns .refl)

theorem ran_park (w : Where F G Q M S) : Ran strict f (.entering w, s) (park f w s) := by
  unfold park
  split
  · rename_i e he
    exact ran_throwExc s (.inl rfl) he
  · rename_i hnone
    exact .parks .refl hnone

theorem ran_wait {x : Phase F G Q M S} {w : Where F G Q M S} {q : Waiters Q M}
    (hx : x = .free ∨ ∃ m, x = .locking m ∧ s.locked_ m = true)
    (hw : w.queue? = some q) (hq : ∀ m, q = .lockers m → s.locked_ m = true) :
    Ran strict f (x, s) (wait f w q s) :=
  .of_change (.link w q hx hw hq) (ran_park _ w)

theorem ran_lock {w : Where F G Q M S} {m : M} (hw : w.queue? = some (.lockers m)) :
    Ran strict f (.locking m, s) (lock f w m s) := by
  unfold lock
  split
  · rename_i hm
    refine ran_wait s (.inr ⟨m, rfl, hm⟩) hw fun m' hm' ↦ ?_
    exact Waiters.lockers.inj hm' ▸ hm
  · rename_i hm
    exact .of_change (.take m (Bool.eq_false_of_not_eq_true hm)) (.returns .refl)

theorem ran_proceed (w : Where F G Q M S) :
    Ran strict f (.back w, s) (proceed f w (cleanup s w)) := by
  cases w with
  | wait q => exact .of_change (.leaveWait _ _ rfl) (.returns .refl)
  | lock m => exact .of_change (.leaveWait _ _ rfl) (ran_lock _ rfl)
  | condWait cv m => exact .of_change (.leaveWait _ _ rfl) (ran_lock _ rfl)
  | relock cv m => exact .of_change (.leaveWait _ _ rfl) (ran_lock _ rfl)
  | sleep timer => exact .of_change (.wake timer (.inl rfl)) (.returns .refl)
  | join c saved => exact .of_change (.joined c saved) (.returns .refl)
  | group g saved => exact .of_change (.groupJoined g saved) (.returns .refl)
  | _ => exact .of_change (.cleanup _ (.inl rfl) rfl (fun t ht ↦ nomatch ht)) (.returns .refl)

/-- A fiber that has come back to `Park`. -/
theorem ran_unparked (w : Where F G Q M S) : Ran strict f (.back w, s) (unparked f w s) := by
  unfold unparked
  split
  · rename_i e he
    exact ran_throwExc s (.inr rfl) he
  · exact ran_proceed s w

theorem changes_cancelAll {g : G} (l : List F) (hl : ∀ c ∈ l, c ∈ s.fibers_ g)
    (hf : strict → f ∉ s.fibers_ g) :
    Changes strict f (.closing g, s) (.closing g, cancelAll l s) ∧
      (cancelAll l s).fibers_ = s.fibers_ := by
  induction l generalizing s with
  | nil => exact ⟨.refl, rfl⟩
  | cons c l ih =>
    have hfibers : (cancel c s).fibers_ = s.fibers_ := by rw [cancel_eq]
    obtain ⟨hchanges, hrest⟩ := ih (cancel c s)
      (fun c' hc' ↦ hfibers ▸ hl c' (List.mem_cons_of_mem _ hc')) (hfibers ▸ hf)
    refine ⟨.trans (.single ?_) hchanges, hrest.trans hfibers⟩
    exact .cancelMember g c (hl c List.mem_cons_self) hf

theorem changes_notifyAll (q : Waiters Q M) :
    Changes strict f (.free, s) (.free, notifyAll q s) := by
  unfold notifyAll
  generalize s.waiters_ q = l
  induction l generalizing s with
  | nil => exact .refl
  | cons x l ih => exact .trans (.single (.notifyOne q)) (ih _)

theorem ran_destroyFiber {c : F} (hc : s.object c = true) (hstrict : strict → c ≠ f) :
    Ran strict f (.free, s) (destroyFiber f c s) := by
  unfold destroyFiber
  split
  · rename_i hdead
    exact .of_change (.destroyDead c hc hdead) (.returns .refl)
  · rename_i hdead
    refine .of_change (.destroyFiber c hc hdead) (.of_change (.cancelFiber c hstrict) ?_)
    exact .of_change (.join c hstrict) (ran_park _ _)

theorem ran_destroyGroup {g : G} (hg : s.life g = .alive) (hstrict : strict → f ∉ s.fibers_ g) :
    Ran strict f (.free, s) (destroyGroup f g s) := by
  unfold destroyGroup
  split
  · rename_i hempty
    exact .of_change (.destroyEmpty g hg hempty) (.returns .refl)
  · rename_i hne
    obtain ⟨hchanges, hfibers⟩ : Changes strict f _ _ ∧ _ := changes_cancelAll
      { s with life := update s.life g .closing } (s.fibers_ g) (fun _ hc ↦ hc) hstrict
    refine .of_change (.destroyGroup g hg) (.trans hchanges ?_)
    refine .of_change (.group g ?_ ?_) (ran_park _ _)
    · rw [hfibers]
      exact hne
    · rw [hfibers]
      exact hstrict

/-- Every call is made of changes, but for the end of a scope and of the fiber. -/
theorem ran_call {op : Op F G Q M S} (hallowed : allowed f s op = true)
    (hstrict : strict → careful f s op = true) (hscope : op ≠ .endScope)
    (hop : ∀ error, op ≠ .finish error) :
    Ran strict f (.free, s) (call f s op) := by
  cases op with
  | yield => exact .of_change .yield (ran_park _ _)
  | sleepUntil deadline => exact .of_change (.sleep deadline) (ran_park _ _)
  | timeoutGuard duration => exact .of_change (.timeoutGuard duration) (.returns .refl)
  | cancelGuard => exact .of_change .cancelGuard (.returns .refl)
  | endScope => exact absurd rfl hscope
  | fiber c => exact .of_change (.fiber c (of_decide_eq_true hallowed)) (.returns .refl)
  | destroyFiber c =>
    exact ran_destroyFiber s hallowed fun h ↦ of_decide_eq_true (hstrict h)
  | spawn g c =>
    obtain ⟨hc, hg⟩ := of_decide_eq_true hallowed
    exact .of_change (.spawn g c hc hg fun h ↦ of_decide_eq_true (hstrict h)) (.returns .refl)
  | destroyGroup g =>
    exact ran_destroyGroup s (of_decide_eq_true hallowed) fun h ↦ of_decide_eq_true (hstrict h)
  | waitGroup g =>
    dsimp only [call, waitGroup]
    split
    · exact .returns .refl
    · exact .of_change (.waitGroup g (of_decide_eq_true hallowed).2) (ran_park _ _)
  | wait q => exact ran_wait s (.inl rfl) rfl fun m hm ↦ nomatch hm
  | notifyOne q => exact .of_change (.notifyOne _) (.returns .refl)
  | notifyAll q => exact .returns (changes_notifyAll s _)
  | lock m => exact .of_change (.locking m) (ran_lock s rfl)
  | unlock m => exact .of_change (.unlock m (of_decide_eq_true hallowed)) (.returns .refl)
  | condWait cv m =>
    refine .of_change (.unlock m (of_decide_eq_true hallowed)) ?_
    exact ran_wait _ (.inl rfl) rfl fun m hm ↦ nomatch hm
  | fdWait slot => exact .of_change (.fdWait slot (of_decide_eq_true hallowed)) (ran_park _ _)
  | fdReset slot => exact .of_change (.fdReset slot) (.returns .refl)
  | finish error => exact absurd rfl (hop error)

end

/-! ## The end of a fiber -/

section

variable (f : F) (s : Sched F G Q M S)

/-- What is left in the groups when the fiber has ended. -/
def fibersWithout : G → List F :=
  match s.group_ f with
  | some g => update s.fibers_ g ((s.fibers_ g).erase f)
  | none => s.fibers_

/-- These are woken when the fiber ends. -/
def Wakes (g : F) : Prop :=
  s.waiter_ f = some g ∨
    ∃ h, s.group_ f = some h ∧
      (fibersWithout f s h = [] ∧ s.joiner_ h = some g ∨ s.groupWaiter_ h = some g)

theorem die_eq :
    die f s = { s with
      state_ := update s.state_ f (some .Dead), loop := .poll,
      run_queue_ := enqueue? (s.waiter_ f) s.run_queue_ } :=
  unpark?_eq _ _

theorem onFinished_eq (g : G) :
    onFinished g f s = { s with
      fibers_ := update s.fibers_ g ((s.fibers_ g).erase f),
      run_queue_ := if (s.fibers_ g).erase f = [] then
                      enqueue? (s.joiner_ g) s.run_queue_
                    else s.run_queue_ } := by
  unfold onFinished
  simp only [Function.update_self]
  split
  · exact unpark?_eq _ _
  · rfl

theorem onError_eq (g : G) (error : Bool) :
    ∃ e r, onError g error s = { s with first_error_ := e, run_queue_ := r } ∧
      (∀ c ∈ s.run_queue_, c ∈ r) ∧ (s.run_queue_.Nodup → r.Nodup) ∧
      ∀ c ∈ r, c ∈ s.run_queue_ ∨ s.groupWaiter_ g = some c := by
  unfold onError
  split
  · exact ⟨_, _, unpark?_eq _ _, fun c hc ↦ mem_enqueue?.mpr (.inl hc), nodup_enqueue?,
      fun c ↦ mem_enqueue?.mp⟩
  · exact ⟨s.first_error_, s.run_queue_, rfl, fun c hc ↦ hc, id, fun c hc ↦ .inl hc⟩

/-- The end of a fiber of a group. -/
theorem callOnFinished_eq (g : G) (error : Bool) :
    ∃ e r, callOnFinished g f error s =
        { s with fibers_ := update s.fibers_ g ((s.fibers_ g).erase f), first_error_ := e,
                 run_queue_ := r } ∧
      (∀ c ∈ s.run_queue_, c ∈ r) ∧ (s.run_queue_.Nodup → r.Nodup) ∧
      ((s.fibers_ g).erase f = [] → ∀ c, s.joiner_ g = some c → c ∈ r) ∧
      ∀ c ∈ r, c ∈ s.run_queue_ ∨ (s.fibers_ g).erase f = [] ∧ s.joiner_ g = some c ∨
        s.groupWaiter_ g = some c := by
  unfold callOnFinished
  split
  case isFalse =>
    rw [onFinished_eq]
    refine ⟨s.first_error_, _, rfl, ?_⟩
    split
    · rename_i hempty
      exact ⟨fun c hc ↦ mem_enqueue?.mpr (.inl hc), nodup_enqueue?,
        fun _ c hc ↦ mem_enqueue?.mpr (.inr hc),
        fun c hc ↦ (mem_enqueue?.mp hc).imp id fun hc ↦ .inl ⟨hempty, hc⟩⟩
    · rename_i hmore
      exact ⟨fun c hc ↦ hc, id, fun hempty ↦ absurd hempty hmore, fun c hc ↦ .inl hc⟩
  obtain ⟨e, r, herror, hsub, hnodup, hwoken⟩ := onError_eq s g error
  unfold waitOnFinished
  rw [herror, onFinished_eq]
  simp only [Function.update_self]
  by_cases hempty : (s.fibers_ g).erase f = []
  · rw [if_pos hempty, if_pos hempty, unpark?_eq]
    refine ⟨e, _, rfl, fun c hc ↦ ?_, fun h ↦ nodup_enqueue? (nodup_enqueue? (hnodup h)),
      fun _ c hc ↦ ?_, fun c hc ↦ ?_⟩
    · exact mem_enqueue?.mpr (.inl (mem_enqueue?.mpr (.inl (hsub c hc))))
    · exact mem_enqueue?.mpr (.inl (mem_enqueue?.mpr (.inr hc)))
    · rcases mem_enqueue?.mp hc with hc | hc
      · rcases mem_enqueue?.mp hc with hc | hc
        · exact (hwoken c hc).imp id .inr
        · exact .inr (.inl ⟨hempty, hc⟩)
      · exact .inr (.inr hc)
  · rw [if_neg hempty, if_neg hempty]
    exact ⟨e, r, rfl, hsub, hnodup, fun h ↦ absurd h hempty, fun c hc ↦
      (hwoken c hc).imp id .inr⟩

/-- The end of a fiber. -/
theorem finish_eq (error : Bool) :
    ∃ e r, finish f error s =
        { s with state_ := update s.state_ f (some .Dead), loop := .poll,
                 fibers_ := fibersWithout f s, first_error_ := e, run_queue_ := r } ∧
      (∀ c ∈ s.run_queue_, c ∈ r) ∧ (s.run_queue_.Nodup → r.Nodup) ∧
      (∀ c, s.waiter_ f = some c → c ∈ r) ∧
      (∀ g, s.group_ f = some g → fibersWithout f s g = [] →
        ∀ c, s.joiner_ g = some c → c ∈ r) ∧
      ∀ c ∈ r, c ∈ s.run_queue_ ∨ Wakes f s c := by
  have hdie (c : F) (hc : c ∈ enqueue? (s.waiter_ f) s.run_queue_) :
      c ∈ s.run_queue_ ∨ Wakes f s c := (mem_enqueue?.mp hc).imp id .inl
  unfold finish
  rw [die_eq]
  split
  · rename_i g hg
    obtain ⟨e, r, heq, hsub, hnodup, hjoiner, hwoken⟩ := callOnFinished_eq f
      { s with state_ := update s.state_ f (some .Dead), loop := .poll,
               run_queue_ := enqueue? (s.waiter_ f) s.run_queue_ } g error
    have hwithout : fibersWithout f s = update s.fibers_ g ((s.fibers_ g).erase f) := by
      rw [fibersWithout, hg]
    have hself : fibersWithout f s g = (s.fibers_ g).erase f := by
      rw [hwithout, Function.update_self]
    refine ⟨e, r, ?_, fun c hc ↦ hsub c (mem_enqueue?.mpr (.inl hc)),
      fun h ↦ hnodup (nodup_enqueue? h), fun c hc ↦ hsub c (mem_enqueue?.mpr (.inr hc)),
      fun g' hg' hempty c hc ↦ ?_, fun c hc ↦ ?_⟩
    · rw [heq, hwithout]
    · obtain rfl := Option.some.inj (hg.symm.trans hg')
      exact hjoiner (hself ▸ hempty) c hc
    · rcases hwoken c hc with hc | ⟨hempty, hc⟩ | hc
      · exact hdie c hc
      · exact .inr (.inr ⟨g, hg, .inl ⟨hself.trans hempty, hc⟩⟩)
      · exact .inr (.inr ⟨g, hg, .inr hc⟩)
  · rename_i hg
    have hwithout : fibersWithout f s = s.fibers_ := by rw [fibersWithout, hg]
    refine ⟨s.first_error_, _, ?_, fun c hc ↦ mem_enqueue?.mpr (.inl hc), nodup_enqueue?,
      fun c hc ↦ mem_enqueue?.mpr (.inr hc), fun g hg' ↦ ?_, hdie⟩
    · rw [hwithout]
    · rw [hg] at hg'
      cases hg'

/-! ## The end of a scope and of a timer -/

/-- The end of a scope touches nothing else. -/
theorem endScope_eq :
    ∃ saved l o ts, endScope f s =
        { s with cancel_guarded_ := update s.cancel_guarded_ f saved,
                 scopes := update s.scopes f l, owed := update s.owed f o, timers_ := ts } ∧
      ∀ t ∈ ts, t ∈ s.timers_ := by
  unfold endScope
  split
  · refine ⟨s.cancel_guarded_ f, s.scopes f, s.owed f, s.timers_, ?_, fun t ht ↦ ht⟩
    simp only [Function.update_eq_self]
  · rename_i timer rest hscopes
    refine ⟨s.cancel_guarded_ f, rest, (s.owed f).erase timer,
      s.timers_.filter fun t ↦ t.id ≠ timer, ?_, fun t ht ↦ List.mem_of_mem_filter ht⟩
    simp only [Function.update_eq_self]
    rfl
  · rename_i saved rest hscopes
    refine ⟨saved, rest, s.owed f, s.timers_, ?_, fun t ht ↦ ht⟩
    simp only [Function.update_eq_self]
    rfl

/-- A timer wakes its fiber, unless it is that of a guard and the fiber is guarded. -/
theorem onExpired_eq (t : Timer F) :
    ∃ b o r, onExpired t (deactivate t.id s) =
        { s with timedout_ := b, owed := o, run_queue_ := r,
                 timers_ := s.timers_.filter fun t' ↦ t'.id ≠ t.id } ∧
      (∀ c ∈ s.run_queue_, c ∈ r) ∧ (s.run_queue_.Nodup → r.Nodup) ∧
      ∀ c ∈ r, c ∈ s.run_queue_ ∨
        c = t.fiber ∧ (t.guard = false ∨ s.cancel_guarded_ c = false) := by
  unfold onExpired
  split
  · rw [notifyTimeout_eq]
    refine ⟨_, _, _, rfl, ?_⟩
    split
    · exact ⟨fun c hc ↦ hc, id, fun c hc ↦ .inl hc⟩
    · rename_i hguarded
      refine ⟨fun c hc ↦ mem_enqueue.mpr (.inl hc), nodup_enqueue, fun c hc ↦ ?_⟩
      refine (mem_enqueue.mp hc).imp id fun heq ↦ ⟨heq, .inr ?_⟩
      rw [heq]
      exact Bool.eq_false_of_not_eq_true hguarded
  · rename_i hguard
    rw [unpark_eq]
    refine ⟨s.timedout_, s.owed, _, rfl, fun c hc ↦ mem_enqueue.mpr (.inl hc), nodup_enqueue,
      fun c hc ↦ ?_⟩
    exact (mem_enqueue.mp hc).imp id fun heq ↦ ⟨heq, .inl (Bool.eq_false_of_not_eq_true hguard)⟩

end

/-! ## Steps -/

/-- The step is not a call that is not `careful`. -/
def carefully (s : Sched F G Q M S) : Action F G Q M S → Bool
  | .call op =>
    match s.loop with
    | .fiber f => careful f s op
    | _ => true
  | _ => true

/-- What a step of the scheduler is. -/
inductive Move (strict : Prop) (s : Sched F G Q M S) :
    Action F G Q M S → Sched F G Q M S → Prop where
  | call {f op s'} (hloop : s.loop = .fiber f) (hran : Ran strict f (.free, s) s') :
      Move strict s (.call op) s'
  | endScope {f} (hloop : s.loop = .fiber f) : Move strict s (.call .endScope) (endScope f s)
  | finish {f} (error) (hloop : s.loop = .fiber f) (hscopes : s.scopes f = []) :
      Move strict s (.call (.finish error)) (finish f error s)
  | event (slot) (hloop : s.loop = .poll) :
      Move strict s (.event slot)
        (unpark? (s.slot_ slot) { s with slot_ := update s.slot_ slot none })
  | tick (d) (hloop : s.loop = .poll) :
      Move strict s (.tick d) { s with loop := .drain, now_ := s.now_ + d }
  | expire {t} (hloop : s.loop = .drain) (ht : t ∈ s.timers_) :
      Move strict s (.expire t.id) (onExpired t (deactivate t.id s))
  | idle (hloop : s.loop = .drain) : Move strict s .idle { s with loop := .poll }
  | resume {f rest w s'} (hloop : s.loop = .drain) (hqueue : s.run_queue_ = f :: rest)
      (hw : s.parked f = some w)
      (hran : Ran strict f (.back w, { s with
        run_queue_ := rest, loop := .fiber f,
        parked := update s.parked f none }) s') :
      Move strict s .run s'
  | start {f rest} (hloop : s.loop = .drain) (hqueue : s.run_queue_ = f :: rest)
      (hw : s.parked f = none) :
      Move strict s .run { s with
        run_queue_ := rest, loop := .fiber f,
        state_ := update s.state_ f (some .Running) }

theorem Step.move {strict : Prop} {s s' : Sched F G Q M S} {a : Action F G Q M S}
    (h : Step s a s') (hstrict : strict → carefully s a = true) : Move strict s a s' := by
  unfold Step at h
  cases a with
  | call op =>
    dsimp only [act] at h
    split at h
    · rename_i f hloop
      split at h
      · rename_i hallowed
        obtain rfl := Option.some.inj h
        rw [carefully, hloop] at hstrict
        by_cases hop : ∃ error, op = .finish error
        · obtain ⟨error, rfl⟩ := hop
          exact .finish error hloop (of_decide_eq_true hallowed)
        · by_cases hscope : op = .endScope
          · subst hscope
            exact .endScope hloop
          · exact .call hloop (ran_call s hallowed hstrict hscope fun error heq ↦ hop ⟨error, heq⟩)
      · cases h
    · cases h
  | event slot =>
    dsimp only [act] at h
    split at h
    · rename_i hcan
      obtain rfl := Option.some.inj h
      exact .event slot hcan.1
    · cases h
  | tick d =>
    dsimp only [act] at h
    split at h
    · rename_i hcan
      obtain rfl := Option.some.inj h
      exact .tick d hcan.1
    · cases h
  | expire timer =>
    dsimp only [act] at h
    split at h
    · rename_i t hfind
      split at h
      · rename_i hcan
        obtain rfl := Option.some.inj h
        have hid : t.id = timer := by simpa using List.find?_some hfind
        subst hid
        exact .expire hcan.1 (List.mem_of_find?_eq_some hfind)
      · cases h
    · cases h
  | idle =>
    dsimp only [act] at h
    split at h
    · rename_i hcan
      obtain rfl := Option.some.inj h
      exact .idle hcan.1
    · cases h
  | run =>
    dsimp only [act] at h
    split at h
    · rename_i f rest hqueue
      split at h
      · rename_i hcan
        obtain rfl := Option.some.inj h
        unfold runFiber
        dsimp only
        split
        · rename_i w hw
          exact .resume hcan.1 hqueue hw (ran_unparked _ w)
        · rename_i hw
          exact .start hcan.1 hqueue hw
      · cases h
    · cases h

/-- A fiber that is parked and has an exception pending is run. -/
theorem Step.run_throws {s s' : Sched F G Q M S} (h : Step s .run s') {f : F} {rest : List F}
    {w : Where F G Q M S} {e : Exc} (hqueue : s.run_queue_ = f :: rest)
    (hw : s.parked f = some w) (he : pendingExc s f = some e) :
    s' = throwExc f w e { s with
      run_queue_ := rest, loop := .fiber f,
      parked := update s.parked f none } := by
  unfold Step at h
  dsimp only [act] at h
  rw [hqueue] at h
  dsimp only at h
  split at h
  · obtain rfl := Option.some.inj h
    unfold runFiber
    dsimp only
    rw [hw]
    dsimp only [unparked]
    rw [show pendingExc { s with
      run_queue_ := rest, loop := .fiber f,
      parked := update s.parked f none } f = some e from he]
  · cases h

/-! ## Invariants -/

/-- Nothing that a fiber does in a call parks it, or another one. -/
theorem Change.parked_loop {strict : Prop} {f : F} {x x' : Phase F G Q M S}
    {s s' : Sched F G Q M S} (h : Change strict f (x, s) (x', s')) :
    s'.parked = s.parked ∧ s'.loop = s.loop := by
  have hnotify (q : Waiters Q M) (n : ℕ) (s : Sched F G Q M S) :
      (notify q n s).parked = s.parked ∧ (notify q n s).loop = s.loop := by
    unfold notify
    split
    · exact ⟨rfl, rfl⟩
    · rw [unpark_eq]
      exact ⟨rfl, rfl⟩
  have hnotifyOne (q : Waiters Q M) (s : Sched F G Q M S) :
      (Cactus.notifyOne q s).parked = s.parked ∧ (Cactus.notifyOne q s).loop = s.loop := by
    unfold Cactus.notifyOne
    split
    · exact ⟨rfl, rfl⟩
    · exact hnotify q _ _
  cases h with
  | yield => rw [unpark_eq]; exact ⟨rfl, rfl⟩
  | raise w e hx he => cases e <;> exact ⟨rfl, rfl⟩
  | pass w q hw =>
    unfold passWakeup
    split
    · exact hnotify q _ s
    · exact ⟨rfl, rfl⟩
  | cleanup w hx hw hs => cases w <;> exact ⟨rfl, rfl⟩
  | leaveWait w q hw =>
    unfold Cactus.leaveWait
    split <;> exact ⟨rfl, rfl⟩
  | unlock m hm => exact hnotifyOne _ _
  | notifyOne q => exact hnotifyOne q s
  | fdReset slot => rw [unpark?_eq]; exact ⟨rfl, rfl⟩
  | fiber c hc => rw [newFiber, unpark_eq]; exact ⟨rfl, rfl⟩
  | spawn g c hc hg hstrict => rw [Cactus.spawn, newFiber, unpark_eq]; exact ⟨rfl, rfl⟩
  | cancelFiber c hc => rw [cancel_eq]; exact ⟨rfl, rfl⟩
  | cancelMember g c hc hf => rw [cancel_eq]; exact ⟨rfl, rfl⟩
  | _ => exact ⟨rfl, rfl⟩

/-- The fiber that runs. -/
def Loop.running : Loop F → Option F
  | .fiber f => some f
  | _ => none

/-- Where the fibers are and which of them are in the run queue, as if the fiber that runs were
parked all through `Park`. -/
structure View (F G Q M S : Type) where
  running : Option F
  place : F → Option (Where F G Q M S)
  queue : List F
  phase : Phase F G Q M S

/-- The fiber has been woken. -/
def View.up (v : View F G Q M S) (g : F) : Prop :=
  g ∈ v.queue ∨ v.running = some g ∧ v.phase.Left

/-- The view when no fiber is in a call. -/
def Sched.view (s : Sched F G Q M S) : View F G Q M S where
  running := s.loop.running
  place := s.parked
  queue := s.run_queue_
  phase := .free

/-- The view when the fiber `f` has come to the phase. -/
def Phase.view (x : Phase F G Q M S) (f : F) (s : Sched F G Q M S) : View F G Q M S where
  running := some f
  place := update s.parked f x.where?
  queue := s.run_queue_
  phase := x

theorem not_left_free : ¬ (.free : Phase F G Q M S).Left := by
  rintro ⟨w, h | h⟩ <;> cases h

/-- When no fiber is in a call, those that are woken are in the run queue. -/
theorem up_view {s : Sched F G Q M S} {g : F} : s.view.up g ↔ g ∈ s.run_queue_ :=
  or_iff_left fun h ↦ not_left_free h.2

/-- Another fiber that is woken is in the run queue. -/
theorem mem_of_up {x : Phase F G Q M S} {f g : F} {s : Sched F G Q M S} (hg : g ≠ f)
    (h : (x.view f s).up g) : g ∈ s.run_queue_ :=
  h.resolve_right fun hleft ↦ hg (Option.some.inj hleft.1).symm

theorem endScope_view (f : F) (s : Sched F G Q M S) : (endScope f s).view = s.view := by
  unfold endScope
  split <;> rfl

/-- What has to be shown of an invariant: it is kept by the changes, and by what the scheduler
does. -/
structure Kept (strict : Prop) (I : View F G Q M S → Sched F G Q M S → Prop) : Prop where
  change {f : F} {x x' : Phase F G Q M S} {s s' : Sched F G Q M S}
    (h : Change strict f (x, s) (x', s')) (hinv : I (x.view f s) s) : I (x'.view f s') s'
  /-- Of where the fibers are it says only what the view says. -/
  frame {v : View F G Q M S} {s : Sched F G Q M S} (l : Loop F) (t : ℕ) (r : List F)
    (p : F → Option (Where F G Q M S)) (hinv : I v s) :
    I v { s with loop := l, now_ := t, run_queue_ := r, parked := p }
  park {f : F} {w : Where F G Q M S} {v : View F G Q M S} {s : Sched F G Q M S}
    (hrunning : v.running = some f) (hphase : v.phase = .entering w) (hplace : v.place f = some w)
    (hnone : pendingExc s f = none) (hinv : I v s) : I { v with running := none, phase := .free } s
  resume {f : F} {w : Where F G Q M S} {v : View F G Q M S} {s : Sched F G Q M S}
    {rest : List F} (hrunning : v.running = none) (hphase : v.phase = .free)
    (hplace : v.place f = some w) (hqueue : v.queue = f :: rest) (hinv : I v s) :
    I { v with running := some f, queue := rest, phase := .back w } s
  start {f : F} {v : View F G Q M S} {s : Sched F G Q M S} {rest : List F}
    (hrunning : v.running = none) (hphase : v.phase = .free) (hplace : v.place f = none)
    (hqueue : v.queue = f :: rest) (hinv : I v s) :
    I { v with running := some f, queue := rest }
      { s with state_ := update s.state_ f (some .Running) }
  endScope {f : F} {s : Sched F G Q M S} (hloop : s.loop = .fiber f) (hparked : s.parked f = none)
    (hinv : I s.view s) : I (endScope f s).view (endScope f s)
  finish {f : F} {error : Bool} {s : Sched F G Q M S} (hloop : s.loop = .fiber f)
    (hparked : s.parked f = none) (hscopes : s.scopes f = []) (hinv : I s.view s) :
    I (finish f error s).view (finish f error s)
  event {slot : S} {s : Sched F G Q M S} (hrunning : s.view.running = none) (hinv : I s.view s) :
    I { s.view with queue := enqueue? (s.slot_ slot) s.run_queue_ }
      { s with slot_ := update s.slot_ slot none }
  expire {t : Timer F} {s : Sched F G Q M S} (hrunning : s.view.running = none)
    (ht : t ∈ s.timers_) (hinv : I s.view s) :
    I (onExpired t (deactivate t.id s)).view (onExpired t (deactivate t.id s))

/-- Nor does a whole call park another fiber. -/
theorem Ran.parked_of_ne {strict : Prop} {f g : F} {r : Phase F G Q M S × Sched F G Q M S}
    {s : Sched F G Q M S} (h : Ran strict f r s) (hg : g ≠ f) : s.parked g = r.2.parked g := by
  have hchanges {r' : Phase F G Q M S × Sched F G Q M S} (h : Changes strict f r r') :
      r'.2.parked = r.2.parked := by
    induction h with
    | refl => rfl
    | tail _ hlast ih => exact hlast.parked_loop.1.trans ih
  cases h with
  | returns h => exact congrFun (hchanges h) g
  | parks h hnone => exact (Function.update_of_ne hg ..).trans (congrFun (hchanges h) g)

/-- The fiber that runs is not parked. -/
def Sched.Unparked (s : Sched F G Q M S) : Prop := ∀ f, s.loop = .fiber f → s.parked f = none

/-- A fiber that is parked and not in the run queue stays where it is. -/
theorem Move.parked {strict : Prop} {s s' : Sched F G Q M S} {a : Action F G Q M S}
    (h : Move strict s a s') (hunparked : s.Unparked) {g : F} {w : Where F G Q M S}
    (hg : s.parked g = some w) (hmem : g ∉ s.run_queue_) : s'.parked g = some w := by
  have hfirst {f : F} {rest : List F} (hqueue : s.run_queue_ = f :: rest) : g ≠ f := by
    rintro rfl
    exact hmem (hqueue ▸ List.mem_cons_self)
  cases h with
  | @call f op _ hloop hran =>
    have hgf : g ≠ f := by
      rintro rfl
      exact nomatch hg.symm.trans (hunparked g hloop)
    exact (hran.parked_of_ne hgf).trans hg
  | @endScope f hloop =>
    obtain ⟨saved, l, o, ts, heq, -⟩ := endScope_eq f s
    rw [heq]
    exact hg
  | @finish f error hloop hscopes =>
    obtain ⟨e, r, heq, -⟩ := finish_eq f s error
    rw [heq]
    exact hg
  | event slot hloop =>
    rw [unpark?_eq]
    exact hg
  | tick d hloop => exact hg
  | @expire t hloop ht =>
    obtain ⟨b, o, r, heq, -⟩ := onExpired_eq s t
    rw [heq]
    exact hg
  | idle hloop => exact hg
  | resume hloop hqueue hw hran =>
    refine (hran.parked_of_ne (hfirst hqueue)).trans ?_
    exact (Function.update_of_ne (hfirst hqueue) ..).trans hg
  | start hloop hqueue hw => exact hg

section

variable {strict : Prop} {I : View F G Q M S → Sched F G Q M S → Prop}

theorem view_free {s : Sched F G Q M S} {f : F} (hloop : s.loop = .fiber f)
    (hparked : s.parked f = none) : (Phase.free : Phase F G Q M S).view f s = s.view := by
  have hplace : update s.parked f (Phase.free : Phase F G Q M S).where? = s.parked := by
    rw [show (Phase.free : Phase F G Q M S).where? = s.parked f from hparked.symm,
      Function.update_eq_self]
  rw [Phase.view, hplace, Sched.view, hloop]
  rfl

theorem Kept.changes (hI : Kept strict I) {f : F} {r r' : Phase F G Q M S × Sched F G Q M S}
    (h : Changes strict f r r') (hinv : I (r.1.view f r.2) r.2) :
    I (r'.1.view f r'.2) r'.2 ∧ r'.2.parked = r.2.parked ∧ r'.2.loop = r.2.loop := by
  induction h with
  | refl => exact ⟨hinv, rfl, rfl⟩
  | tail _ hlast ih =>
    obtain ⟨hinv', hparked, hloop⟩ := ih
    obtain ⟨hparked', hloop'⟩ := hlast.parked_loop
    exact ⟨hI.change hlast hinv', hparked'.trans hparked, hloop'.trans hloop⟩

theorem Kept.ran (hI : Kept strict I) {f : F} {x : Phase F G Q M S} {s s' : Sched F G Q M S}
    (h : Ran strict f (x, s) s') (hloop : s.loop = .fiber f) (hparked : s.parked f = none)
    (hinv : I (x.view f s) s) : I s'.view s' ∧ s'.Unparked := by
  cases h with
  | returns h =>
    obtain ⟨hinv', hparked', hloop'⟩ := hI.changes h hinv
    have hloop₁ : s'.loop = .fiber f := hloop'.trans hloop
    have hparked₁ : s'.parked f = none := (congrFun hparked' f).trans hparked
    refine ⟨view_free hloop₁ hparked₁ ▸ hinv', fun g hg ↦ ?_⟩
    obtain rfl := Loop.fiber.inj (hloop₁.symm.trans hg)
    exact hparked₁
  | @parks w s₁ h hnone =>
    obtain ⟨hinv', hparked', hloop'⟩ := hI.changes h hinv
    refine ⟨?_, fun g hg ↦ nomatch hg⟩
    have hpark := hI.park rfl rfl (Function.update_self ..) hnone hinv'
    exact hI.frame .poll s₁.now_ s₁.run_queue_ (update s₁.parked f (some w)) hpark

/-- **One step**: what the changes keep, and what the scheduler keeps, is kept. -/
theorem Kept.step (hI : Kept strict I) {s s' : Sched F G Q M S} {a : Action F G Q M S}
    (hmove : Move strict s a s') (h : I s.view s ∧ s.Unparked) : I s'.view s' ∧ s'.Unparked := by
  obtain ⟨hinv, hunparked⟩ := h
  have hdrain (f : F) (hloop : s.loop = .drain) : s.loop ≠ .fiber f := by simp [hloop]
  have hnone (hloop : s.loop = .poll ∨ s.loop = .drain) : s.view.running = none := by
    rw [Sched.view]
    rcases hloop with hloop | hloop <;> rw [hloop] <;> rfl
  cases hmove with
  | @call f op _ hloop hran =>
    have hparked := hunparked f hloop
    exact hI.ran hran hloop hparked (view_free hloop hparked ▸ hinv)
  | endScope hloop =>
    refine ⟨hI.endScope hloop (hunparked _ hloop) hinv, ?_⟩
    unfold Cactus.endScope
    split <;> exact hunparked
  | finish error hloop hscopes =>
    refine ⟨hI.finish hloop (hunparked _ hloop) hscopes hinv, fun g hg ↦ ?_⟩
    obtain ⟨e, r, heq, -⟩ := finish_eq _ s error
    rw [heq] at hg
    cases hg
  | event slot hloop =>
    rw [unpark?_eq]
    refine ⟨?_, hunparked⟩
    exact hI.frame s.loop s.now_ (enqueue? (s.slot_ slot) s.run_queue_) s.parked
      (hI.event (hnone (.inl hloop)) hinv)
  | tick d hloop =>
    refine ⟨?_, fun g hg ↦ nomatch hg⟩
    have hview := hI.frame .drain (s.now_ + d) s.run_queue_ s.parked hinv
    rwa [Sched.view, hloop] at hview
  | @expire t hloop ht =>
    refine ⟨hI.expire (hnone (.inr hloop)) ht hinv, fun g hg ↦ absurd ?_ (hdrain g hloop)⟩
    obtain ⟨b, o, r, heq, -⟩ := onExpired_eq s t
    rw [← hg, heq]
  | idle hloop =>
    refine ⟨?_, fun g hg ↦ nomatch hg⟩
    have hview := hI.frame .poll s.now_ s.run_queue_ s.parked hinv
    rwa [Sched.view, hloop] at hview
  | @resume f rest w _ hloop hqueue hw hran =>
    refine hI.ran hran rfl (Function.update_self ..) ?_
    have hview := hI.frame (.fiber f) s.now_ rest (update s.parked f none)
      (hI.resume (hnone (.inr hloop)) rfl hw hqueue hinv)
    convert hview using 1
    have hplace : update (update s.parked f none) f (some w) = s.parked := by
      rw [Function.update_idem, ← hw, Function.update_eq_self]
    show View.mk (some f) (update (update s.parked f none) f (some w)) rest _ = _
    rw [hplace]
    rfl
  | @start f rest hloop hqueue hw =>
    refine ⟨?_, fun g hg ↦ ?_⟩
    · exact hI.frame (.fiber f) s.now_ rest s.parked
        (hI.start (hnone (.inr hloop)) rfl hw hqueue hinv)
    · obtain rfl := Loop.fiber.inj hg
      exact hw

/-- **A whole run**. -/
theorem Kept.trace (hI : Kept strict I) {main : F} {s : Sched F G Q M S}
    {h : List (Sched F G Q M S × Action F G Q M S)} (hrun : Lib.Trace Step (init main) h s)
    (hcareful : strict → ∀ x ∈ h, carefully x.1 x.2 = true)
    (hinit : I (init main : Sched F G Q M S).view (init main)) : I s.view s ∧ s.Unparked := by
  have hstart : (init main : Sched F G Q M S).Unparked := fun g hg ↦ nomatch hg
  refine hrun.invariant_of_forall (C := fun s a ↦ strict → carefully s a = true)
    (I := fun s ↦ I s.view s ∧ s.Unparked) (fun x hx hstrict ↦ hcareful hstrict x hx)
    ⟨hinit, hstart⟩ fun s a s' hinv hstep hC ↦ ?_
  exact hI.step (hstep.move hC) hinv

end

end Cactus
end ManyTasks
