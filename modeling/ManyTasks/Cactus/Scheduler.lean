import ManyTasks.Lib.Transition
import Mathlib.Data.Fintype.Basic
import Mathlib.Logic.Function.Basic

/-!
# Fibers and their scheduler

One thread runs all fibers of a `Scheduler`, one at a time: a fiber runs until it parks or ends, so
what it does in between is one step, and the state below is what other fibers can see.  `RunLoop` is
followed phase by phase (`Loop`), and what the code of a fiber does is up to it: between two calls
into the library it may do anything, so it is not part of the state.  Where an exception leaves a
call, the destructors of the call are run and the fiber goes on; whether its code catches the
exception or ends is up to it as well.

* `FiberImpl`, `Fiber` and `Group` with their destructors, `TimeoutGuard` and `FiberCancelGuard`
  with their scopes, `WaitQueue`, `Mutex`, `CondVar`, sleeping, and waiting for a file descriptor.
* `Park` is the only place where a fiber is left; what it is left in is the `where` of `Park`.

The fields of fibers, groups, queues and mutexes are functions of the fiber, the group and so on.
The heap of the timers is a list of which a timer with the least deadline is the minimum.  Objects
are not created twice, so nothing is ever reused.

Some fields are not in the source and only record what happened: how many notifications there were
and which one set `wakeup`, the mutexes a fiber has locked, the guards whose exception is still
owed, and a log of what calls came to.
-/

set_option autoImplicit false

namespace ManyTasks
namespace Cactus

/-! ## State -/

/-- `FiberState`. -/
inductive FiberState where
  | Ready
  | Running
  | Dead
  | Sleeping
  | Waiting
deriving DecidableEq, Repr

/-- The list `waiters_` of a `WaitQueue`. -/
inductive Waiters (Q M : Type) where
  /-- A `WaitQueue`, or that of a `CondVar`. -/
  | queue (q : Q)
  /-- `lockers_` of a `Mutex`. -/
  | lockers (m : M)
deriving DecidableEq, Repr

/-- What a fiber is parked in. -/
inductive Where (F G Q M S : Type) where
  | yield
  /-- `SleepUntil`, with the timer on its stack. -/
  | sleep (timer : ℕ)
  | wait (q : Q)
  /-- `Mutex::Lock`. -/
  | lock (m : M)
  /-- `CondVar::Wait`, in `waiters_`. -/
  | condWait (cv : Q) (m : M)
  /-- `CondVar::Wait`, in `lockers_` of the mutex. -/
  | relock (cv : Q) (m : M)
  /-- The destructor of `Fiber`, with what its `FiberCancelGuard` has saved. -/
  | join (c : F) (saved : Bool)
  /-- The destructor of `Group`, with what its `FiberCancelGuard` has saved. -/
  | group (g : G) (saved : Bool)
  | waitGroup (g : G)
  | fd (slot : S)
deriving DecidableEq, Repr

/-- An object on the stack of a fiber, other than those of the calls it is in. -/
inductive Scope where
  | timeoutGuard (timer : ℕ)
  /-- `FiberCancelGuard` and its `saved_`. -/
  | cancelGuard (saved : Bool)
deriving DecidableEq, Repr

/-- A timer that is active. -/
structure Timer (F : Type) where
  id : ℕ
  deadline : ℕ
  fiber : F
  /-- A `TimeoutGuard`, or else a `SleepTimer`. -/
  guard : Bool
deriving DecidableEq, Repr

/-- What `Park` throws. -/
inductive Exc where
  | canceled
  | timeout
deriving DecidableEq, Repr

/-- What a call came to. -/
inductive Event (F G : Type) where
  /-- A `Wait` returns that was ended by the notification. -/
  | returned (n : ℕ)
  /-- The notification was passed on when these were left in the queue. -/
  | dropped (n : ℕ) (left : List F)
  /-- `Park` throws when these `TimeoutGuard`s of the fiber had expired and were not destroyed. -/
  | threw (f : F) (e : Exc) (expired : List ℕ)
  /-- The destructor of `Fiber` returns, and the fiber is in this state. -/
  | joined (c : F) (state : Option FiberState)
  /-- The destructor of `Group` returns, and these are its fibers. -/
  | groupJoined (g : G) (left : List F)
deriving DecidableEq, Repr

/-- Where `RunLoop` is. -/
inductive Loop (F : Type) where
  /-- Before `Poll`. -/
  | poll
  /-- The loop over the timers that have expired. -/
  | drain
  /-- `RunFiber`. -/
  | fiber (f : F)
deriving DecidableEq, Repr

/-- How far the life of a group has come. -/
inductive Life where
  | alive
  /-- Its destructor has begun. -/
  | closing
  /-- Its destructor has returned. -/
  | gone
deriving DecidableEq, Repr

/-- The scheduler and everything it runs. -/
structure Sched (F G Q M S : Type) where
  loop : Loop F
  now_ : ℕ
  timers_ : List (Timer F)
  run_queue_ : List F
  main_fiber_ : F
  /-- `none` before the fiber is created. -/
  state_ : F → Option FiberState
  timedout_ : F → Bool
  canceled_ : F → Bool
  cancel_guarded_ : F → Bool
  /-- `FiberImpl::waiter_`. -/
  waiter_ : F → Option F
  group_ : F → Option G
  parked : F → Option (Where F G Q M S)
  /-- `wakeup` of the `Waiter` of the fiber, and which notification has set it. -/
  wakeup : F → Option ℕ
  scopes : F → List Scope
  fibers_ : G → List F
  joiner_ : G → Option F
  /-- `WaitGroup::waiter_`. -/
  groupWaiter_ : G → Option F
  first_error_ : G → Bool
  waiters_ : Waiters Q M → List F
  locked_ : M → Bool
  slot_ : S → Option F
  timers : ℕ
  notifications : ℕ
  /-- The mutexes the fiber has locked and not unlocked. -/
  held : F → List M
  /-- The `TimeoutGuard`s of the fiber that have expired, are not destroyed, and for which no
  exception has been thrown yet. -/
  owed : F → List ℕ
  /-- Is there a `Fiber` object for it? -/
  object : F → Bool
  life : G → Life
  log : List (Event F G)

variable {F G Q M S : Type} [DecidableEq F] [DecidableEq G] [DecidableEq Q] [DecidableEq M]
  [DecidableEq S]

open Function (update)

/-! ## Waking fibers -/

/-- `Unpark`. -/
def unpark (f : F) (s : Sched F G Q M S) : Sched F G Q M S :=
  if f ∈ s.run_queue_ then s else { s with run_queue_ := s.run_queue_ ++ [f] }

/-- `if (!cancel_guarded_) { Unpark(); }`. -/
def interrupt (f : F) (s : Sched F G Q M S) : Sched F G Q M S :=
  if s.cancel_guarded_ f then s else unpark f s

/-- `NotifyTimeout`, for the guard `timer`. -/
def notifyTimeout (f : F) (timer : ℕ) (s : Sched F G Q M S) : Sched F G Q M S :=
  interrupt f { s with
    timedout_ := update s.timedout_ f true,
    owed := update s.owed f (s.owed f ++ [timer]) }

/-- `FiberImpl::Cancel`. -/
def cancel (f : F) (s : Sched F G Q M S) : Sched F G Q M S :=
  interrupt f { s with canceled_ := update s.canceled_ f true }

/-- `NotifyOne` with the notification `n`. -/
def notify (q : Waiters Q M) (n : ℕ) (s : Sched F G Q M S) : Sched F G Q M S :=
  match s.waiters_ q with
  | [] => { s with log := s.log ++ [.dropped n (s.waiters_ q)] }
  | w :: ws => unpark w { s with
    waiters_ := update s.waiters_ q ws,
    wakeup := update s.wakeup w (some n) }

/-- `NotifyOne`. -/
def notifyOne (q : Waiters Q M) (s : Sched F G Q M S) : Sched F G Q M S :=
  if s.waiters_ q = [] then s
  else notify q s.notifications { s with notifications := s.notifications + 1 }

/-- `NotifyAll`. -/
def notifyAll (q : Waiters Q M) (s : Sched F G Q M S) : Sched F G Q M S :=
  (s.waiters_ q).foldl (fun s _ ↦ notifyOne q s) s

/-- `Timer::Deactivate`. -/
def deactivate (timer : ℕ) (s : Sched F G Q M S) : Sched F G Q M S :=
  { s with timers_ := s.timers_.filter fun t ↦ t.id ≠ timer }

/-! ## Parking -/

/-- The `TimeoutGuard`s of the fiber that have expired and are not destroyed. -/
def expired (s : Sched F G Q M S) (f : F) : List ℕ :=
  (s.scopes f).filterMap fun
    | .timeoutGuard timer => if s.timers_.any fun t ↦ t.id == timer then none else some timer
    | .cancelGuard _ => none

/-- What `Park` is given as `cleanup`. -/
def cleanup (s : Sched F G Q M S) : Where F G Q M S → Sched F G Q M S
  | .join c _ => { s with waiter_ := update s.waiter_ c none }
  | .group g _ => { s with joiner_ := update s.joiner_ g none }
  | .waitGroup g => { s with groupWaiter_ := update s.groupWaiter_ g none }
  | .fd slot => { s with slot_ := update s.slot_ slot none }
  | _ => s

/-- The `Waiter` of the fiber goes out of scope. -/
def unlink (f : F) (q : Waiters Q M) (s : Sched F G Q M S) : Sched F G Q M S :=
  { s with waiters_ := update s.waiters_ q ((s.waiters_ q).erase f),
           wakeup := update s.wakeup f none }

/-- An exception leaves `WaitQueue::Wait`: `pass_wakeup`, and the `Waiter`. -/
def passWakeup (f : F) (q : Waiters Q M) (s : Sched F G Q M S) : Sched F G Q M S :=
  match s.wakeup f with
  | some n => unlink f q (notify q n s)
  | none => unlink f q s

/-- The list the `Waiter` is in. -/
def Where.queue? : Where F G Q M S → Option (Waiters Q M)
  | .wait q | .condWait q _ => some (.queue q)
  | .lock m | .relock _ m => some (.lockers m)
  | _ => none

/-- An exception leaves the call that has parked. -/
def unwind (f : F) (w : Where F G Q M S) (s : Sched F G Q M S) : Sched F G Q M S :=
  match w with
  | .wait q => passWakeup f (.queue q) s
  | .condWait cv _ => passWakeup f (.queue cv) s
  | .lock m => passWakeup f (.lockers m) s
  -- `pass_wakeup` of `CondVar::Wait`
  | .relock cv m => notifyOne (.queue cv) (passWakeup f (.lockers m) s)
  | .sleep timer => deactivate timer s
  | _ => s

/-- What `check` throws. -/
def pendingExc (s : Sched F G Q M S) (f : F) : Option Exc :=
  if s.cancel_guarded_ f then none
  else if s.canceled_ f then some .canceled
  else if s.timedout_ f then some .timeout
  else none

/-- `check` throws. -/
def raise (f : F) (e : Exc) (s : Sched F G Q M S) : Sched F G Q M S :=
  let s := { s with run_queue_ := s.run_queue_.erase f, log := s.log ++ [.threw f e (expired s f)] }
  match e with
  | .canceled => s
  | .timeout => { s with
    timedout_ := update s.timedout_ f false,
    owed := update s.owed f (s.owed f).tail }

/-- An exception leaves `Park` and the call that has parked. -/
def throwExc (f : F) (w : Where F G Q M S) (e : Exc) (s : Sched F G Q M S) : Sched F G Q M S :=
  unwind f w (cleanup (raise f e s) w)

/-- `Park`, up to where the fiber is left. -/
def park (f : F) (w : Where F G Q M S) (s : Sched F G Q M S) : Sched F G Q M S :=
  match pendingExc s f with
  | some e => throwExc f w e s
  | none => { s with parked := update s.parked f (some w), loop := .poll }

/-- A new `Waiter` of the fiber is put into the list. -/
def link (f : F) (q : Waiters Q M) (s : Sched F G Q M S) : Sched F G Q M S :=
  { s with waiters_ := update s.waiters_ q (s.waiters_ q ++ [f]),
           wakeup := update s.wakeup f none }

/-- `WaitQueue::Wait`, up to where the fiber is left. -/
def wait (f : F) (w : Where F G Q M S) (q : Waiters Q M) (s : Sched F G Q M S) :
    Sched F G Q M S :=
  park f w (link f q s)

/-- `Mutex::Lock`, up to where the fiber is left. -/
def lock (f : F) (w : Where F G Q M S) (m : M) (s : Sched F G Q M S) : Sched F G Q M S :=
  if s.locked_ m then wait f w (.lockers m) s
  else { s with locked_ := update s.locked_ m true, held := update s.held f (m :: s.held f) }

/-- `Mutex::Unlock`. -/
def unlock (f : F) (m : M) (s : Sched F G Q M S) : Sched F G Q M S :=
  notifyOne (.lockers m) { s with
    locked_ := update s.locked_ m false,
    held := update s.held f ((s.held f).erase m) }

/-- `WaitQueue::Wait` returns. -/
def leaveWait (f : F) (q : Waiters Q M) (s : Sched F G Q M S) : Sched F G Q M S :=
  match s.wakeup f with
  | some n => { unlink f q s with log := s.log ++ [.returned n] }
  | none => unlink f q s

/-- The destructor of a `FiberCancelGuard`. -/
def restore (f : F) (saved : Bool) (s : Sched F G Q M S) : Sched F G Q M S :=
  { s with cancel_guarded_ := update s.cancel_guarded_ f saved }

/-- The call that has parked goes on when `Park` returns. -/
def proceed (f : F) (w : Where F G Q M S) (s : Sched F G Q M S) : Sched F G Q M S :=
  match w with
  | .wait q => leaveWait f (.queue q) s
  | .lock m => lock f w m (leaveWait f (.lockers m) s)
  | .condWait cv m => lock f (.relock cv m) m (leaveWait f (.queue cv) s)
  | .relock _ m => lock f w m (leaveWait f (.lockers m) s)
  | .sleep timer => deactivate timer s
  | .join c saved => { restore f saved s with log := s.log ++ [.joined c (s.state_ c)] }
  | .group g saved =>
    { restore f saved s with
      log := s.log ++ [.groupJoined g (s.fibers_ g)],
      life := update s.life g .gone }
  | _ => s

/-- A fiber comes back from the scheduler to `Park`. -/
def unparked (f : F) (w : Where F G Q M S) (s : Sched F G Q M S) : Sched F G Q M S :=
  match pendingExc s f with
  | some e => throwExc f w e s
  | none => proceed f w (cleanup s w)

/-! ## Calls -/

/-- What a fiber can call. -/
inductive Op (F G Q M S : Type) where
  | yield
  | sleepUntil (deadline : ℕ)
  /-- The constructor of `TimeoutGuard`. -/
  | timeoutGuard (duration : ℕ)
  /-- The constructor of `FiberCancelGuard`. -/
  | cancelGuard
  /-- The end of the innermost scope. -/
  | endScope
  /-- The constructor of `Fiber`. -/
  | fiber (c : F)
  /-- The destructor of `Fiber`. -/
  | destroyFiber (c : F)
  /-- `DoSpawn`. -/
  | spawn (g : G) (c : F)
  /-- The destructor of `Group`. -/
  | destroyGroup (g : G)
  /-- `WaitGroup::Wait`. -/
  | waitGroup (g : G)
  | wait (q : Q)
  | notifyOne (q : Q)
  | notifyAll (q : Q)
  | lock (m : M)
  | unlock (m : M)
  /-- `CondVar::Wait`. -/
  | condWait (cv : Q) (m : M)
  /-- `FDWatcher::Wait`. -/
  | fdWait (slot : S)
  /-- `FDWatcher::Reset`, for one of the two slots. -/
  | fdReset (slot : S)
  /-- The code of the fiber ends, with an error or not. -/
  | finish (error : Bool)
deriving DecidableEq, Repr

/-- A new fiber is put into the run queue. -/
def newFiber (c : F) (s : Sched F G Q M S) : Sched F G Q M S :=
  unpark c { s with state_ := update s.state_ c (some .Ready) }

/-- `DoSpawn`. -/
def spawn (g : G) (c : F) (s : Sched F G Q M S) : Sched F G Q M S :=
  newFiber c { s with
    group_ := update s.group_ c (some g),
    fibers_ := update s.fibers_ g (s.fibers_ g ++ [c]) }

/-- `Join` in the scope of a `FiberCancelGuard`, up to where the fiber is left. -/
def join (f c : F) (s : Sched F G Q M S) : Sched F G Q M S :=
  park f (.join c (s.cancel_guarded_ f))
    { s with cancel_guarded_ := update s.cancel_guarded_ f true,
             waiter_ := update s.waiter_ c (some f) }

/-- The destructor of `Fiber`, up to where the fiber is left. -/
def destroyFiber (f c : F) (s : Sched F G Q M S) : Sched F G Q M S :=
  if s.state_ c = some .Dead then
    { s with object := update s.object c false, log := s.log ++ [.joined c (s.state_ c)] }
  else join f c (cancel c { s with object := update s.object c false })

/-- The end of the destructor of `Group`, up to where the fiber is left. -/
def joinGroup (f : F) (g : G) (s : Sched F G Q M S) : Sched F G Q M S :=
  park f (.group g (s.cancel_guarded_ f))
    { s with cancel_guarded_ := update s.cancel_guarded_ f true,
             joiner_ := update s.joiner_ g (some f) }

/-- The loop of the destructor of `Group`. -/
def cancelAll (l : List F) (s : Sched F G Q M S) : Sched F G Q M S :=
  l.foldl (fun s c ↦ cancel c s) s

/-- The destructor of `Group`, up to where the fiber is left. -/
def destroyGroup (f : F) (g : G) (s : Sched F G Q M S) : Sched F G Q M S :=
  if s.fibers_ g = [] then
    { s with log := s.log ++ [.groupJoined g (s.fibers_ g)], life := update s.life g .gone }
  else joinGroup f g (cancelAll (s.fibers_ g) { s with life := update s.life g .closing })

/-- `WaitGroup::Wait`, up to where the fiber is left. -/
def waitGroup (f : F) (g : G) (s : Sched F G Q M S) : Sched F G Q M S :=
  if s.first_error_ g || s.fibers_ g = [] then s
  else park f (.waitGroup g) { s with groupWaiter_ := update s.groupWaiter_ g (some f) }

/-- Wake a fiber, if there is one. -/
def unpark? (f : Option F) (s : Sched F G Q M S) : Sched F G Q M S :=
  match f with
  | some f => unpark f s
  | none => s

/-- `Group::OnFinished`. -/
def onFinished (g : G) (f : F) (s : Sched F G Q M S) : Sched F G Q M S :=
  let s := { s with fibers_ := update s.fibers_ g ((s.fibers_ g).erase f) }
  if s.fibers_ g = [] then unpark? (s.joiner_ g) s else s

/-- `WaitGroup::OnFinished`: the first error. -/
def onError (g : G) (error : Bool) (s : Sched F G Q M S) : Sched F G Q M S :=
  if error && !s.first_error_ g then
    unpark? (s.groupWaiter_ g) { s with first_error_ := update s.first_error_ g true }
  else s

/-- `WaitGroup::OnFinished`; on a `ServerGroup`, where nobody is `waiter_`, it is
`Group::OnFinished`. -/
def waitOnFinished (g : G) (f : F) (error : Bool) (s : Sched F G Q M S) : Sched F G Q M S :=
  let s := onFinished g f (onError g error s)
  if s.fibers_ g = [] then unpark? (s.groupWaiter_ g) s else s

/-- `group_->OnFinished`, which is virtual: once the destructor has begun, all that is left of a
`WaitGroup` is a `Group`. -/
def callOnFinished (g : G) (f : F) (error : Bool) (s : Sched F G Q M S) : Sched F G Q M S :=
  if s.life g = .alive then waitOnFinished g f error s else onFinished g f s

/-- The end of `FiberImpl::Run`. -/
def die (f : F) (s : Sched F G Q M S) : Sched F G Q M S :=
  unpark? (s.waiter_ f) { s with state_ := update s.state_ f (some .Dead), loop := .poll }

/-- The end of `FiberImpl::Run`, and `Cleanup`. -/
def finish (f : F) (error : Bool) (s : Sched F G Q M S) : Sched F G Q M S :=
  match s.group_ f with
  | some g => callOnFinished g f error (die f s)
  | none => die f s

/-- A timer is activated. -/
def activate (f : F) (deadline : ℕ) (guard : Bool) (s : Sched F G Q M S) : Sched F G Q M S :=
  { s with timers_ := s.timers_ ++ [⟨s.timers, deadline, f, guard⟩], timers := s.timers + 1 }

/-- The end of the innermost scope. -/
def endScope (f : F) (s : Sched F G Q M S) : Sched F G Q M S :=
  match s.scopes f with
  | [] => s
  | .timeoutGuard timer :: rest =>
    deactivate timer { s with
      scopes := update s.scopes f rest,
      owed := update s.owed f ((s.owed f).erase timer) }
  | .cancelGuard saved :: rest => restore f saved { s with scopes := update s.scopes f rest }

/-- A call of the fiber that runs, up to where it returns or the fiber is left. -/
def call (f : F) (s : Sched F G Q M S) : Op F G Q M S → Sched F G Q M S
  | .yield => park f .yield (unpark f s)
  | .sleepUntil deadline => park f (.sleep s.timers) (activate f deadline false s)
  | .timeoutGuard duration =>
    activate f (s.now_ + duration) true
      { s with scopes := update s.scopes f (.timeoutGuard s.timers :: s.scopes f) }
  | .cancelGuard =>
    { s with scopes := update s.scopes f (.cancelGuard (s.cancel_guarded_ f) :: s.scopes f),
             cancel_guarded_ := update s.cancel_guarded_ f true }
  | .endScope => endScope f s
  | .fiber c => newFiber c { s with object := update s.object c true }
  | .destroyFiber c => destroyFiber f c s
  | .spawn g c => spawn g c s
  | .destroyGroup g => destroyGroup f g s
  | .waitGroup g => waitGroup f g s
  | .wait q => wait f (.wait q) (.queue q) s
  | .notifyOne q => notifyOne (.queue q) s
  | .notifyAll q => notifyAll (.queue q) s
  | .lock m => lock f (.lock m) m s
  | .unlock m => unlock f m s
  | .condWait cv m => wait f (.condWait cv m) (.queue cv) (unlock f m s)
  | .fdWait slot => park f (.fd slot) { s with slot_ := update s.slot_ slot (some f) }
  | .fdReset slot => unpark? (s.slot_ slot) { s with slot_ := update s.slot_ slot none }
  | .finish error => finish f error s

/-- May the fiber make the call?  A fiber and its objects are created once and destroyed once, in
the order of their scopes; a mutex is unlocked by the fiber that has locked it; and the `CHECK`s of
the source. -/
def allowed (f : F) (s : Sched F G Q M S) : Op F G Q M S → Bool
  | .endScope => s.scopes f ≠ []
  | .fiber c => s.state_ c = none
  | .destroyFiber c => s.object c
  | .spawn g c => s.state_ c = none ∧ s.life g ≠ .gone
  | .destroyGroup g => s.life g = .alive
  | .waitGroup g => s.life g = .alive ∧ s.groupWaiter_ g = none
  | .unlock m => m ∈ s.held f
  | .condWait _ m => m ∈ s.held f
  | .fdWait slot => s.slot_ slot = none
  | .finish _ => s.scopes f = []
  | _ => true

/-! ## The loop -/

/-- What happens next. -/
inductive Action (F G Q M S : Type) where
  /-- The fiber that runs calls. -/
  | call (op : Op F G Q M S)
  /-- `Poll` finds that a file descriptor is ready. -/
  | event (slot : S)
  /-- The clock is read. -/
  | tick (d : ℕ)
  /-- The minimal timer has expired. -/
  | expire (timer : ℕ)
  /-- No fiber is in the run queue. -/
  | idle
  /-- The first fiber of the run queue is run. -/
  | run
deriving DecidableEq, Repr

/-- `OnExpired`. -/
def onExpired (t : Timer F) (s : Sched F G Q M S) : Sched F G Q M S :=
  if t.guard then notifyTimeout t.fiber t.id s else unpark t.fiber s

/-- No timer has expired. -/
def drained (s : Sched F G Q M S) : Bool := s.timers_.all fun t ↦ s.now_ ≤ t.deadline

/-- `RunFiber`. -/
def runFiber (f : F) (s : Sched F G Q M S) : Sched F G Q M S :=
  match s.parked f with
  | some w => unparked f w { s with loop := .fiber f, parked := update s.parked f none }
  | none => { s with loop := .fiber f, state_ := update s.state_ f (some .Running) }

/-- One step of the scheduler, if it can be taken. -/
def act (s : Sched F G Q M S) : Action F G Q M S → Option (Sched F G Q M S)
  | .call op =>
    match s.loop with
    | .fiber f => if allowed f s op then some (call f s op) else none
    | _ => none
  | .event slot =>
    if s.loop = .poll ∧ s.state_ s.main_fiber_ ≠ some .Dead then
      some (unpark? (s.slot_ slot) { s with slot_ := update s.slot_ slot none })
    else none
  | .tick d =>
    if s.loop = .poll ∧ s.state_ s.main_fiber_ ≠ some .Dead then
      some { s with loop := .drain, now_ := s.now_ + d }
    else none
  | .expire timer =>
    match s.timers_.find? fun t ↦ t.id = timer with
    | some t =>
      if s.loop = .drain ∧ t.deadline < s.now_ ∧ ∀ t' ∈ s.timers_, t.deadline ≤ t'.deadline then
        some (onExpired t (deactivate timer s))
      else none
    | none => none
  | .idle =>
    if s.loop = .drain ∧ drained s ∧ s.run_queue_ = [] then some { s with loop := .poll } else none
  | .run =>
    match s.run_queue_ with
    | f :: rest =>
      if s.loop = .drain ∧ drained s then some (runFiber f { s with run_queue_ := rest }) else none
    | [] => none

/-- One step. -/
def Step (s : Sched F G Q M S) (a : Action F G Q M S) (s' : Sched F G Q M S) : Prop :=
  act s a = some s'

/-- `Scheduler::Run` has put the main fiber into the run queue. -/
def init (main : F) : Sched F G Q M S where
  loop := .poll
  now_ := 0
  timers_ := []
  run_queue_ := [main]
  main_fiber_ := main
  state_ := update (fun _ ↦ none) main (some .Ready)
  timedout_ := fun _ ↦ false
  canceled_ := fun _ ↦ false
  cancel_guarded_ := fun _ ↦ false
  waiter_ := fun _ ↦ none
  group_ := fun _ ↦ none
  parked := fun _ ↦ none
  wakeup := fun _ ↦ none
  scopes := fun _ ↦ []
  fibers_ := fun _ ↦ []
  joiner_ := fun _ ↦ none
  groupWaiter_ := fun _ ↦ none
  first_error_ := fun _ ↦ false
  waiters_ := fun _ ↦ []
  locked_ := fun _ ↦ false
  slot_ := fun _ ↦ none
  timers := 0
  notifications := 0
  held := fun _ ↦ []
  owed := fun _ ↦ []
  object := fun _ ↦ false
  life := fun _ ↦ .alive
  log := []

/-- A run by a list of actions, if all of them can be taken. -/
def play : List (Action F G Q M S) → Sched F G Q M S →
    Option (List (Sched F G Q M S × Action F G Q M S) × Sched F G Q M S)
  | [], s => some ([], s)
  | a :: as, s => (act s a).bind fun s₁ ↦ (play as s₁).map fun (h, s₂) ↦ ((s, a) :: h, s₂)

/-- What is played is a run. -/
theorem trace_of_play {as : List (Action F G Q M S)} {s s' : Sched F G Q M S}
    {h : List (Sched F G Q M S × Action F G Q M S)} (hplay : play as s = some (h, s')) :
    Lib.Trace Step s h s' := by
  induction as generalizing s h with
  | nil =>
    obtain ⟨rfl, rfl⟩ := Prod.mk.inj (Option.some.inj hplay)
    exact .nil
  | cons a as ih =>
    obtain ⟨s₁, hact, hrest⟩ := Option.bind_eq_some_iff.mp hplay
    obtain ⟨⟨h', s₂⟩, hplay', heq⟩ := Option.map_eq_some_iff.mp hrest
    obtain ⟨rfl, rfl⟩ := Prod.mk.inj heq
    exact .cons hact (ih hplay')

/-- A list of actions that can be played, and ends as tested, is a run that ends so. -/
theorem exists_trace_of_play (s : Sched F G Q M S) (as : List (Action F G Q M S))
    (p : List (Sched F G Q M S × Action F G Q M S) × Sched F G Q M S → Bool)
    (hplay : (play as s).any p = true) :
    ∃ h s', Lib.Trace Step s h s' ∧ p (h, s') = true := by
  obtain ⟨⟨h, s'⟩, hplay, hp⟩ := (Option.any_eq_true _ _).mp hplay
  exact ⟨h, s', trace_of_play hplay, hp⟩

end Cactus
end ManyTasks
