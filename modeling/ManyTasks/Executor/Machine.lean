import ManyTasks.Lib.Threads
import ManyTasks.Lib.Transition

/-!
# The executor as a machine

`Task`, `TasksQueue`, `TimerQueue` and `Executor` as threads that share a memory.  An instruction is
one atomic access of the source (a load, a store, a compare-exchange, a flag operation), one
acquisition or release of a mutex, or one operation on what a mutex protects; the functions of the
source are the instructions they put on the stack.  `exec` says what each instruction does.

* Worker threads and timer threads begin in the loops of the constructor of `Executor`.
* User threads call `AddDependency`, `AddTrigger`, `SetTimeTrigger`, `Submit`, `Cancel` and
  `StartShutdown` (`Call`), as may the body of a task that a worker runs.  What is added to a task
  is added before it is submitted, as users of the executor do (`Allowed`).
* The clock moves forward, and a thread may wake from a condition variable without a reason.

Some things are simpler than in the source, where no thread can tell the difference.  A vector that
a mutex protects is changed in the same step as the counter next to it; `OnFinished` takes the tasks
off `depended_` and `triggered_` one by one instead of clearing the vectors at the end, which it
does under the mutex in both cases; the heap of the timer is a list of which a task with the least
start time is the front.  Tasks and queues are never destroyed, so no `weak_ptr` is expired other
than the `queue_` of a task that was never submitted.
-/

set_option autoImplicit false

namespace ManyTasks
namespace Executor

open Lib (Effect Config Trace)

/-! ## Memory -/

/-- `TaskStates`. -/
inductive TaskStates where
  | Created
  | Submitted
  | Enqueued
  | Completed
  | Failed
  | Canceled
deriving DecidableEq, Repr

/-- `state_ > TaskStates::Enqueued`. -/
def TaskStates.finished : TaskStates → Bool
  | .Created | .Submitted | .Enqueued => false
  | .Completed | .Failed | .Canceled => true

/-- A `Task`, and the `result_` of a `Future`. -/
structure Task (Θ T V E : Type) where
  state_ : TaskStates
  /-- `queue_` has been set. -/
  queue_ : Bool
  /-- The thread that holds the mutex. -/
  edit_task_ : Option Θ
  dependencies_ : List T
  depended_ : List T
  dependecies_cnt_ : ℕ
  has_dependencies_ : Bool
  triggers_ : List T
  triggered_ : List T
  has_triggers_ : Bool
  triggers_activated_ : Bool
  start_at_ : ℕ
  has_time_trigger_ : Bool
  result_ : V
  exc_ptr_ : Option E

/-- A new task. -/
def Task.new (Θ T V E : Type) [Inhabited V] : Task Θ T V E where
  state_ := .Created
  queue_ := false
  edit_task_ := none
  dependencies_ := []
  depended_ := []
  dependecies_cnt_ := 0
  has_dependencies_ := false
  triggers_ := []
  triggered_ := []
  has_triggers_ := false
  triggers_activated_ := false
  start_at_ := 0
  has_time_trigger_ := false
  result_ := default
  exc_ptr_ := none

/-- `IsReadyToEnque` once `triggers_activated_` has been tested. -/
def Task.readyWithoutTriggers {Θ T V E : Type} (r : Task Θ T V E) : Bool :=
  (r.has_dependencies_ && r.dependecies_cnt_ == 0) ||
    (!r.has_triggers_ && !r.has_dependencies_ && !r.has_time_trigger_)

/-- `IsReadyToEnque`. -/
def Task.isReadyToEnque {Θ T V E : Type} (r : Task Θ T V E) : Bool :=
  (r.has_triggers_ && r.triggers_activated_) || r.readyWithoutTriggers

/-- The two queues of an executor. -/
inductive Which where
  /-- `queue_`, a `TasksQueue`. -/
  | tasks
  /-- `timer_queue_`, a `TimerQueue`. -/
  | timer
deriving DecidableEq, Repr

/-- A `TasksQueue` or a `TimerQueue`. -/
structure Queue (Θ T : Type) where
  queue_ : List T
  /-- The thread that holds the mutex. -/
  edit_queue_ : Option Θ
  closed_ : Bool
  /-- The threads asleep on the condition variable that have not been notified. -/
  waiting_pop_ : List Θ

/-- The memory. -/
structure Mem (Θ T V E : Type) where
  task : T → Task Θ T V E
  queue : Which → Queue Θ T
  /-- `std::chrono::system_clock::now()`. -/
  now : ℕ
  /-- `Submit` has been called on the task. -/
  submitted : T → Bool

namespace Mem

variable {Θ T V E : Type} [DecidableEq T]

/-- Change a task. -/
def onTask (m : Mem Θ T V E) (t : T) (f : Task Θ T V E → Task Θ T V E) : Mem Θ T V E :=
  { m with task := Function.update m.task t (f (m.task t)) }

/-- Change a queue. -/
def onQueue (m : Mem Θ T V E) (q : Which) (f : Queue Θ T → Queue Θ T) : Mem Θ T V E :=
  { m with queue := Function.update m.queue q (f (m.queue q)) }

end Mem

/-! ## Instructions -/

/-- Who calls `TryToEnque` or `Enque` on a task. -/
inductive Caller (T : Type) where
  /-- `Submit` of the task. -/
  | submit
  /-- `OnFinished` of another task. -/
  | finished (d : T)
  /-- The timer thread. -/
  | timer
deriving DecidableEq, Repr

/-- What a user can call. -/
inductive Call (T : Type) where
  | addDependency (t d : T)
  | addTrigger (t d : T)
  | setTimeTrigger (t : T) (at_ : ℕ)
  | submit (t : T)
  | cancel (t : T)
  | startShutdown
deriving DecidableEq, Repr

/-- The instructions, in the order of the source. -/
inductive Instr (T V E : Type) where
  /-- Worker: `task->IsCanceled()`. -/
  | testCanceled (t : T)
  /-- Worker: `task->Run()` is about to begin. -/
  | run (t : T)
  /-- `Run` has begun. -/
  | running (t : T)
  /-- `task->SetError(std::current_exception())`. -/
  | setError (t : T) (e : E)
  /-- Timer: `task->IsCanceled()`. -/
  | timerTest (t : T)
  /-- `Executor::Submit`: `task->IsEnqued()`. -/
  | testEnqueued (t : T)
  /-- `Executor::Submit`: `task->IsFinished()`, and `HasTimeTrigger()`. -/
  | testFinished (t : T)
  /-- `AddDepended` of `d`: lock `edit_task_`. -/
  | addDepended (d t : T)
  /-- `AddDepended`: `IsFinished()`. -/
  | testDepended (d t : T)
  /-- `AddDepended`: `++dep->dependecies_cnt_`, and into `depended_`. -/
  | register (d t : T)
  /-- `AddDependency`: into `dependencies_`, and set `has_dependencies_`. -/
  | linkDependency (t d : T)
  /-- `AddTriggered` of `d`: lock `edit_task_`. -/
  | addTriggered (d t : T)
  /-- `AddTriggered`: `IsFinished()`. -/
  | testTriggered (d t : T)
  /-- `AddTriggered`: into `triggered_`. -/
  | registerTrigger (d t : T)
  /-- `AddTriggered`: `dep->triggers_activated_.test_and_set()`. -/
  | activate (d t : T)
  /-- `AddTrigger`: into `triggers_`, and set `has_triggers_`. -/
  | linkTrigger (t d : T)
  /-- `SetTimeTrigger`. -/
  | setTimeTrigger (t : T) (at_ : ℕ)
  /-- `OnFinished`: lock `edit_task_`. -/
  | onFinished (t : T)
  /-- `OnFinished`: the loop over `depended_`. -/
  | finishDepended (t : T)
  /-- `OnFinished`: the loop over `triggered_`. -/
  | finishTriggered (t : T)
  /-- The end of the scope of a lock on `edit_task_`. -/
  | unlockTask (t : T)
  /-- `TryToEnque`: `state_ != TaskStates::Submitted`. -/
  | testSubmitted (by_ : Caller T) (t : T)
  /-- `IsReadyToEnque`: `triggers_activated_.test()`. -/
  | testTriggers (by_ : Caller T) (t : T)
  /-- `IsReadyToEnque`: `dependecies_cnt_`. -/
  | testDependencies (by_ : Caller T) (t : T)
  /-- `Enque`: `queue_.expired()`. -/
  | testQueue (by_ : Caller T) (t : T)
  /-- `Enque`: the compare-exchange of `Submitted` by `Enqueued`. -/
  | casEnqueued (by_ : Caller T) (t : T)
  /-- `Enque`: `dependencies_.clear()` and `triggers_.clear()`. -/
  | clearLists (t : T)
  /-- `Task::Submit`: `queue_ = queue`. -/
  | setQueue (t : T)
  /-- `Task::Submit`: the compare-exchange of `Created` by `Submitted`. -/
  | casSubmitted (t : T)
  /-- `Complete`, `Fail` and `Cancel`: the assignment of `state_`. -/
  | store (t : T) (state : TaskStates)
  /-- `Push`: `closed_.test()`. -/
  | testClosed (q : Which) (t : T)
  /-- `Push`: lock `edit_queue_`. -/
  | lockPush (q : Which) (t : T)
  /-- `Push`: into the queue. -/
  | emplace (q : Which) (t : T)
  /-- `waiting_pop_.notify_one()`. -/
  | notifyOne (q : Which)
  /-- `waiting_pop_.notify_all()`. -/
  | notifyAll (q : Which)
  /-- The end of the scope of a lock on `edit_queue_`. -/
  | unlockQueue (q : Which)
  /-- `Pop`: lock `edit_queue_`. -/
  | lockPop (q : Which)
  /-- `Pop`: `closed_.test() || !queue_.empty()`, and what follows. -/
  | testPop (q : Which)
  /-- `Pop`: asleep in `wait`. -/
  | sleep (q : Which)
  /-- `TimerQueue::Pop`: lock `edit_queue_` again after `wait_until`. -/
  | lockTimer
  /-- `TimerQueue::Pop`: compare the clock with the start time of the front. -/
  | testDeadline
  /-- `TimerQueue::Pop`: asleep in `wait_until`. -/
  | sleepUntil (at_ : ℕ)
  /-- `Close`: `closed_.test_and_set()`. -/
  | setClosed (q : Which)
  /-- `Close`: lock `edit_queue_`. -/
  | lockClose (q : Which)
  /-- `Close`: the loop over the queue. -/
  | cancelAll (q : Which)
  /-- A call of the user returns. -/
  | returned (c : Call T)
deriving DecidableEq

instance {T V E : Type} [DecidableEq T] [DecidableEq V] [DecidableEq E] : LawfulBEq (Instr T V E) :=
  inferInstance

/-- What is left to chance in the execution of an instruction. -/
inductive Choice (Θ T V E : Type) where
  /-- Nothing. -/
  | none
  /-- `Run` returns, and a `Future` has this `result_`. -/
  | value (v : V)
  /-- `Run` throws. -/
  | throw (e : E)
  /-- The thread that is notified. -/
  | wake (θ : Θ)
  /-- The front of the heap. -/
  | front (t : T)

/-- What can be seen of a step. -/
inductive Label (T : Type) where
  | none
  | called (c : Call T)
  | returned (c : Call T)
  /-- The state of the task goes from `Submitted` to `Enqueued`. -/
  | enqueued (t : T)
  /-- `Run` of the task begins. -/
  | started (t : T)
  /-- The state of the task is assigned. -/
  | stored (t : T) (state : TaskStates)
deriving DecidableEq

/-! ## What the instructions do -/

section

variable {Θ T V E : Type} [DecidableEq Θ] [DecidableEq T]

/-- Change the memory and go on with `next`. -/
def go (mem : Mem Θ T V E) (next : List (Instr T V E)) :
    Effect (Mem Θ T V E) (Instr T V E) (Label T) :=
  ⟨true, mem, next, .none⟩

/-- Lock the mutex of a task, or wait for it. -/
def lockTask (θ : Θ) (m : Mem Θ T V E) (t : T) (next : List (Instr T V E)) :
    Effect (Mem Θ T V E) (Instr T V E) (Label T) :=
  ⟨(m.task t).edit_task_.isNone, m.onTask t fun r ↦ { r with edit_task_ := some θ }, next, .none⟩

/-- Lock the mutex of a queue, or wait for it. -/
def lockQueue (θ : Θ) (m : Mem Θ T V E) (q : Which) (next : List (Instr T V E)) :
    Effect (Mem Θ T V E) (Instr T V E) (Label T) :=
  ⟨(m.queue q).edit_queue_.isNone, m.onQueue q fun r ↦ { r with edit_queue_ := some θ }, next,
    .none⟩

/-- Release the mutex of a queue and go to sleep on its condition variable. -/
def wait (θ : Θ) (m : Mem Θ T V E) (q : Which) : Mem Θ T V E :=
  m.onQueue q fun r ↦ { r with edit_queue_ := none, waiting_pop_ := θ :: r.waiting_pop_ }

/-- The execution of an instruction by the thread `θ`. -/
def exec (θ : Θ) (m : Mem Θ T V E) (c : Choice Θ T V E) :
    Instr T V E → Effect (Mem Θ T V E) (Instr T V E) (Label T)
  | .testCanceled t => go m (if (m.task t).state_ = .Canceled then [] else [.run t])
  | .run t => ⟨true, m, [.running t], .started t⟩
  | .running t =>
    match c with
    | .value v => go (m.onTask t fun r ↦ { r with result_ := v }) [.store t .Completed]
    | .throw e => go m [.setError t e]
    | _ => ⟨false, m, [], .none⟩
  | .setError t e => go (m.onTask t fun r ↦ { r with exc_ptr_ := some e }) [.store t .Failed]
  | .timerTest t => go m (if (m.task t).state_ = .Canceled then [] else [.testQueue .timer t])
  | .testEnqueued t => go m (if (m.task t).state_ = .Enqueued then [] else [.testFinished t])
  | .testFinished t =>
    go m (if (m.task t).state_.finished || !(m.task t).has_time_trigger_ then []
      else [.testClosed .timer t])
  | .addDepended d t => lockTask θ m d [.testDepended d t]
  | .testDepended d t =>
    go m (if (m.task d).state_.finished then [.unlockTask d, .linkDependency t d]
      else [.register d t])
  | .register d t =>
    go ((m.onTask t fun r ↦ { r with dependecies_cnt_ := r.dependecies_cnt_ + 1 }).onTask d
      fun r ↦ { r with depended_ := r.depended_ ++ [t] }) [.unlockTask d, .linkDependency t d]
  | .linkDependency t d =>
    go (m.onTask t fun r ↦
      { r with dependencies_ := r.dependencies_ ++ [d], has_dependencies_ := true }) []
  | .addTriggered d t => lockTask θ m d [.testTriggered d t]
  | .testTriggered d t =>
    go m (if (m.task d).state_.finished then [.activate d t] else [.registerTrigger d t])
  | .registerTrigger d t =>
    go (m.onTask d fun r ↦ { r with triggered_ := r.triggered_ ++ [t] })
      [.unlockTask d, .linkTrigger t d]
  | .activate d t =>
    go (m.onTask t fun r ↦ { r with triggers_activated_ := true })
      [.unlockTask d, .linkTrigger t d]
  | .linkTrigger t d =>
    go (m.onTask t fun r ↦ { r with triggers_ := r.triggers_ ++ [d], has_triggers_ := true }) []
  | .setTimeTrigger t at_ =>
    go (m.onTask t fun r ↦ { r with has_time_trigger_ := true, start_at_ := at_ }) []
  | .onFinished t => lockTask θ m t [.finishDepended t]
  | .finishDepended t =>
    match (m.task t).depended_ with
    | [] => go m [.finishTriggered t]
    | x :: xs =>
      go ((m.onTask t fun r ↦ { r with depended_ := xs }).onTask x
        fun r ↦ { r with dependecies_cnt_ := r.dependecies_cnt_ - 1 })
        [.testSubmitted (.finished t) x, .finishDepended t]
  | .finishTriggered t =>
    match (m.task t).triggered_ with
    | [] => go m [.unlockTask t]
    | x :: xs =>
      go ((m.onTask t fun r ↦ { r with triggered_ := xs }).onTask x
        fun r ↦ { r with triggers_activated_ := true })
        [.testSubmitted (.finished t) x, .finishTriggered t]
  | .unlockTask t => go (m.onTask t fun r ↦ { r with edit_task_ := none }) []
  | .testSubmitted by_ t =>
    go m (if (m.task t).state_ = .Submitted then [.testTriggers by_ t] else [])
  | .testTriggers by_ t =>
    go m (if (m.task t).has_triggers_ && (m.task t).triggers_activated_ then [.testQueue by_ t]
      else [.testDependencies by_ t])
  | .testDependencies by_ t =>
    go m (if (m.task t).readyWithoutTriggers then [.testQueue by_ t] else [])
  | .testQueue by_ t => go m (if (m.task t).queue_ then [.casEnqueued by_ t] else [])
  | .casEnqueued _ t =>
    if (m.task t).state_ = .Submitted then
      ⟨true, m.onTask t fun r ↦ { r with state_ := .Enqueued },
        [.clearLists t, .testClosed .tasks t], .enqueued t⟩
    else go m []
  | .clearLists t =>
    go (m.onTask t fun r ↦ { r with dependencies_ := [], triggers_ := [] }) []
  | .setQueue t => go (m.onTask t fun r ↦ { r with queue_ := true }) [.casSubmitted t]
  | .casSubmitted t =>
    if (m.task t).state_ = .Created then
      go (m.onTask t fun r ↦ { r with state_ := .Submitted })
        [.testSubmitted .submit t, .testEnqueued t]
    else go m [.testEnqueued t]
  | .store t state =>
    ⟨true, m.onTask t fun r ↦ { r with state_ := state }, [.onFinished t], .stored t state⟩
  | .testClosed q t =>
    go m (if (m.queue q).closed_ then [.store t .Canceled] else [.lockPush q t])
  | .lockPush q t => lockQueue θ m q [.emplace q t, .notifyOne q, .unlockQueue q]
  | .emplace q t => go (m.onQueue q fun r ↦ { r with queue_ := r.queue_ ++ [t] }) []
  | .notifyOne q =>
    match c with
    | .wake θ' =>
      ⟨(m.queue q).waiting_pop_.contains θ',
        m.onQueue q fun r ↦ { r with waiting_pop_ := r.waiting_pop_.erase θ' }, [], .none⟩
    | _ => ⟨(m.queue q).waiting_pop_.isEmpty, m, [], .none⟩
  | .notifyAll q => go (m.onQueue q fun r ↦ { r with waiting_pop_ := [] }) []
  | .unlockQueue q => go (m.onQueue q fun r ↦ { r with edit_queue_ := none }) []
  | .lockPop q => lockQueue θ m q [.testPop q]
  | .testPop q =>
    match (m.queue q).queue_ with
    | [] => if (m.queue q).closed_ then go m [.unlockQueue q] else go (wait θ m q) [.sleep q]
    | t :: ts =>
      match q with
      | .tasks =>
        go (m.onQueue .tasks fun r ↦ { r with queue_ := ts })
          [.unlockQueue .tasks, .testCanceled t, .lockPop .tasks]
      | .timer => go m [.testDeadline]
  | .sleep q =>
    go (m.onQueue q fun r ↦ { r with waiting_pop_ := r.waiting_pop_.erase θ }) [.lockPop q]
  | .lockTimer => lockQueue θ m .timer [.testDeadline]
  | .testDeadline =>
    match c with
    | .front t =>
      if t ∈ (m.queue .timer).queue_ ∧
          ∀ x ∈ (m.queue .timer).queue_, (m.task t).start_at_ ≤ (m.task x).start_at_ then
        if m.now < (m.task t).start_at_ then
          go (wait θ m .timer) [.sleepUntil (m.task t).start_at_]
        else
          go (m.onQueue .timer fun r ↦ { r with queue_ := r.queue_.erase t })
            [.unlockQueue .timer, .timerTest t, .lockPop .timer]
      else ⟨false, m, [], .none⟩
    | _ => ⟨false, m, [], .none⟩
  | .sleepUntil _ =>
    go (m.onQueue .timer fun r ↦ { r with waiting_pop_ := r.waiting_pop_.erase θ }) [.lockTimer]
  | .setClosed q =>
    if (m.queue q).closed_ then go m []
    else go (m.onQueue q fun r ↦ { r with closed_ := true }) [.lockClose q]
  | .lockClose q =>
    lockQueue θ m q [.cancelAll q,
      match q with
      | .tasks => .notifyAll .tasks
      | .timer => .notifyOne .timer,
      .unlockQueue q]
  | .cancelAll q => go m ((m.queue q).queue_.map fun t ↦ .store t .Canceled)
  | .returned call => ⟨true, m, [], .returned call⟩

/-! ## Calls and steps -/

/-- The body of a call. -/
def Call.code : Call T → List (Instr T V E)
  | .addDependency t d => [.addDepended d t]
  | .addTrigger t d => [.addTriggered d t]
  | .setTimeTrigger t at_ => [.setTimeTrigger t at_]
  | .submit t => [.setQueue t]
  | .cancel t => [.store t .Canceled]
  | .startShutdown => [.setClosed .tasks, .setClosed .timer]

/-- The task whose dependencies, triggers or start time an instruction adds. -/
def Instr.addsTo : Instr T V E → Option T
  | .addDepended _ t | .testDepended _ t | .register _ t | .linkDependency t _ => some t
  | .addTriggered _ t | .testTriggered _ t | .registerTrigger _ t | .activate _ t => some t
  | .linkTrigger t _ | .setTimeTrigger t _ => some t
  | _ => none

/-- What a thread is for. -/
inductive Role where
  | user
  | worker
  | timer
deriving DecidableEq, Repr

/-- The state of the machine. -/
abbrev State (Θ T V E : Type) := Config Θ (Mem Θ T V E) (Instr T V E)

/-- What is added to a task is added before `Submit` is called on it. -/
def Allowed (s : State Θ T V E) : Call T → Prop
  | .addDependency t _ | .addTrigger t _ | .setTimeTrigger t _ => s.mem.submitted t = false
  | .submit t => ∀ i, s.Pending i → i.addsTo ≠ some t
  | .cancel _ | .startShutdown => True

/-- `Submit` is recorded when it is called. -/
def Mem.call (m : Mem Θ T V E) : Call T → Mem Θ T V E
  | .submit t => { m with submitted := Function.update m.submitted t true }
  | _ => m

/-- A thread may call: a user thread that is in no call, or a worker in the body of a task. -/
def CanCall (role : Θ → Role) (s : State Θ T V E) (θ : Θ) : Prop :=
  (role θ = .user ∧ s.stack θ = []) ∨ ∃ t rest, s.stack θ = .running t :: rest

/-- One step. -/
inductive Step (role : Θ → Role) : State Θ T V E → Label T → State Θ T V E → Prop where
  /-- A thread executes its next instruction. -/
  | exec {s : State Θ T V E} {θ : Θ} {i : Instr T V E} {rest : List (Instr T V E)}
      (c : Choice Θ T V E) (hstack : s.stack θ = i :: rest)
      (henabled : (exec θ s.mem c i).enabled = true) :
      Step role s (exec θ s.mem c i).label (s.after θ rest (exec θ s.mem c i))
  /-- A thread begins a call. -/
  | call {s : State Θ T V E} {θ : Θ} (c : Call T) (hcan : CanCall role s θ)
      (hallowed : Allowed s c) :
      Step role s (.called c)
        (s.after θ (s.stack θ) ⟨true, s.mem.call c, c.code ++ [.returned c], Label.called c⟩)
  /-- Time passes. -/
  | tick {s : State Θ T V E} (d : ℕ) :
      Step role s .none { s with mem := { s.mem with now := s.mem.now + d } }

/-- The executor has just been constructed. -/
def init [Inhabited V] (role : Θ → Role) : State Θ T V E where
  mem :=
    { task := fun _ ↦ Task.new Θ T V E
      queue := fun _ ↦ ⟨[], none, false, []⟩
      now := 0
      submitted := fun _ ↦ false }
  stack := fun θ ↦
    match role θ with
    | .user => []
    | .worker => [.lockPop .tasks]
    | .timer => [.lockPop .timer]

end

end Executor
end ManyTasks
