import ManyTasks.Executor.Machine

/-!
# What the instructions do to the memory

Here the instructions are gone through one by one, and nowhere after.  `TaskChange` lists what an
instruction can do to the tasks, `QueueChange` what it can do to the queues; for each field of a
task it follows which instructions change it, and how.
-/

set_option autoImplicit false

namespace ManyTasks
namespace Executor

variable {Θ T V E : Type}

/-! ## Reading a changed memory -/

namespace Mem

section

variable [DecidableEq T]

@[simp] theorem task_onTask_self (m : Mem Θ T V E) (t : T) (f : Task Θ T V E → Task Θ T V E) :
    (m.onTask t f).task t = f (m.task t) :=
  Function.update_self _ _ _

theorem task_onTask (m : Mem Θ T V E) (t : T) (f : Task Θ T V E → Task Θ T V E) (x : T) :
    (m.onTask t f).task x = if x = t then f (m.task t) else m.task x :=
  Function.update_apply _ _ _ _

theorem task_onTask_of_ne (m : Mem Θ T V E) {t x : T} (f : Task Θ T V E → Task Θ T V E)
    (h : x ≠ t) : (m.onTask t f).task x = m.task x :=
  Function.update_of_ne h _ _

/-- A change that leaves what is read of a task. -/
theorem onTask_field {A : Type} (g : Task Θ T V E → A) (m : Mem Θ T V E) {t : T}
    {f : Task Θ T V E → Task Θ T V E} (hf : ∀ r, g (f r) = g r) (x : T) :
    g ((m.onTask t f).task x) = g (m.task x) := by
  rw [task_onTask]
  split_ifs with hx
  · rw [hf, hx]
  · rfl

theorem onTask_onTask_field {A : Type} (g : Task Θ T V E → A) (m : Mem Θ T V E) {t t' : T}
    {f f' : Task Θ T V E → Task Θ T V E} (hf : ∀ r, g (f r) = g r) (hf' : ∀ r, g (f' r) = g r)
    (x : T) : g (((m.onTask t f).onTask t' f').task x) = g (m.task x) :=
  (onTask_field g _ hf' x).trans (onTask_field g m hf x)

@[simp] theorem queue_onTask (m : Mem Θ T V E) (t : T) (f : Task Θ T V E → Task Θ T V E) :
    (m.onTask t f).queue = m.queue := rfl

@[simp] theorem now_onTask (m : Mem Θ T V E) (t : T) (f : Task Θ T V E → Task Θ T V E) :
    (m.onTask t f).now = m.now := rfl

@[simp] theorem submitted_onTask (m : Mem Θ T V E) (t : T) (f : Task Θ T V E → Task Θ T V E) :
    (m.onTask t f).submitted = m.submitted := rfl

end

@[simp] theorem task_onQueue (m : Mem Θ T V E) (q : Which) (f : Queue Θ T → Queue Θ T) :
    (m.onQueue q f).task = m.task := rfl

@[simp] theorem queue_onQueue_self (m : Mem Θ T V E) (q : Which) (f : Queue Θ T → Queue Θ T) :
    (m.onQueue q f).queue q = f (m.queue q) :=
  Function.update_self _ _ _

theorem queue_onQueue_of_ne (m : Mem Θ T V E) {q q' : Which} (f : Queue Θ T → Queue Θ T)
    (h : q' ≠ q) : (m.onQueue q f).queue q' = m.queue q' :=
  Function.update_of_ne h _ _

@[simp] theorem now_onQueue (m : Mem Θ T V E) (q : Which) (f : Queue Θ T → Queue Θ T) :
    (m.onQueue q f).now = m.now := rfl

@[simp] theorem submitted_onQueue (m : Mem Θ T V E) (q : Which) (f : Queue Θ T → Queue Θ T) :
    (m.onQueue q f).submitted = m.submitted := rfl

end Mem

variable [DecidableEq T]

/-! ## What an instruction does to the tasks -/

/-- The state of a task, what was added to it, and who depends on it. -/
def Task.core (r : Task Θ T V E) : TaskStates × List T × List T × List T × Bool × Bool × Bool × ℕ :=
  (r.state_, r.depended_, r.dependencies_, r.triggers_, r.has_dependencies_, r.has_triggers_,
    r.has_time_trigger_, r.start_at_)

/-- The task whose mutex the instruction locks. -/
def Instr.locks : Instr T V E → Option T
  | .addDepended d _ | .addTriggered d _ | .onFinished d => some d
  | _ => none

/-- Does the instruction change the mutex or the `queue_` of a task? -/
def Instr.touches : Instr T V E → Bool
  | .addDepended _ _ | .addTriggered _ _ | .onFinished _ | .unlockTask _ | .setQueue _ => true
  | _ => false

/-- What an instruction can do to the tasks. -/
inductive TaskChange (θ : Θ) (m : Mem Θ T V E) :
    Instr T V E → (T → Task Θ T V E) → Prop where
  | same (i : Instr T V E) (h : i.touches = false) : TaskChange θ m i m.task
  | lock (i : Instr T V E) (t : T) (h : i.locks = some t) :
      TaskChange θ m i (m.onTask t fun r ↦ { r with edit_task_ := some θ }).task
  | unlockTask (t : T) :
      TaskChange θ m (.unlockTask t) (m.onTask t fun r ↦ { r with edit_task_ := none }).task
  | running (t : T) (v : V) :
      TaskChange θ m (.running t) (m.onTask t fun r ↦ { r with result_ := v }).task
  | setError (t : T) (e : E) :
      TaskChange θ m (.setError t e) (m.onTask t fun r ↦ { r with exc_ptr_ := some e }).task
  | setQueue (t : T) :
      TaskChange θ m (.setQueue t) (m.onTask t fun r ↦ { r with queue_ := true }).task
  | register (d t : T) :
      TaskChange θ m (.register d t)
        ((m.onTask t fun r ↦ { r with dependecies_cnt_ := r.dependecies_cnt_ + 1 }).onTask d
          fun r ↦ { r with depended_ := r.depended_ ++ [t] }).task
  | linkDependency (t d : T) :
      TaskChange θ m (.linkDependency t d) (m.onTask t fun r ↦
        { r with dependencies_ := r.dependencies_ ++ [d], has_dependencies_ := true }).task
  | registerTrigger (d t : T) :
      TaskChange θ m (.registerTrigger d t)
        (m.onTask d fun r ↦ { r with triggered_ := r.triggered_ ++ [t] }).task
  | activate (d t : T) :
      TaskChange θ m (.activate d t)
        (m.onTask t fun r ↦ { r with triggers_activated_ := true }).task
  | linkTrigger (t d : T) :
      TaskChange θ m (.linkTrigger t d) (m.onTask t fun r ↦
        { r with triggers_ := r.triggers_ ++ [d], has_triggers_ := true }).task
  | setTimeTrigger (t : T) (at_ : ℕ) :
      TaskChange θ m (.setTimeTrigger t at_) (m.onTask t fun r ↦
        { r with has_time_trigger_ := true, start_at_ := at_ }).task
  | finishDepended (t x : T) (xs : List T) (h : (m.task t).depended_ = x :: xs) :
      TaskChange θ m (.finishDepended t) ((m.onTask t fun r ↦ { r with depended_ := xs }).onTask x
        fun r ↦ { r with dependecies_cnt_ := r.dependecies_cnt_ - 1 }).task
  | finishTriggered (t x : T) (xs : List T) (h : (m.task t).triggered_ = x :: xs) :
      TaskChange θ m (.finishTriggered t) ((m.onTask t fun r ↦ { r with triggered_ := xs }).onTask x
        fun r ↦ { r with triggers_activated_ := true }).task
  | casEnqueued (by_ : Caller T) (t : T) (h : (m.task t).state_ = .Submitted) :
      TaskChange θ m (.casEnqueued by_ t)
        (m.onTask t fun r ↦ { r with state_ := .Enqueued }).task
  | clearLists (t : T) :
      TaskChange θ m (.clearLists t)
        (m.onTask t fun r ↦ { r with dependencies_ := [], triggers_ := [] }).task
  | casSubmitted (t : T) (h : (m.task t).state_ = .Created) :
      TaskChange θ m (.casSubmitted t) (m.onTask t fun r ↦ { r with state_ := .Submitted }).task
  | store (t : T) (state : TaskStates) :
      TaskChange θ m (.store t state) (m.onTask t fun r ↦ { r with state_ := state }).task

/-- The one place where the instructions are gone through. -/
theorem exec_taskChange [DecidableEq Θ] (θ : Θ) (m : Mem Θ T V E) (c : Choice Θ T V E)
    (i : Instr T V E) : TaskChange θ m i (exec θ m c i).mem.task := by
  cases i with
  | register d t => exact .register d t
  | linkDependency t d => exact .linkDependency t d
  | registerTrigger d t => exact .registerTrigger d t
  | activate d t => exact .activate d t
  | linkTrigger t d => exact .linkTrigger t d
  | setTimeTrigger t at_ => exact .setTimeTrigger t at_
  | finishDepended t =>
    dsimp only [exec]
    split
    · exact .same _ rfl
    · rename_i x xs h
      exact .finishDepended t x xs h
  | finishTriggered t =>
    dsimp only [exec]
    split
    · exact .same _ rfl
    · rename_i x xs h
      exact .finishTriggered t x xs h
  | casEnqueued by_ t =>
    dsimp only [exec]
    split
    · rename_i h
      exact .casEnqueued by_ t h
    · exact .same _ rfl
  | clearLists t => exact .clearLists t
  | casSubmitted t =>
    dsimp only [exec]
    split
    · rename_i h
      exact .casSubmitted t h
    · exact .same _ rfl
  | store t state => exact .store t state
  | running t =>
    cases c with
    | value v => exact .running t v
    | _ => exact .same _ rfl
  | setError t e => exact .setError t e
  | addDepended d t => exact .lock _ d rfl
  | addTriggered d t => exact .lock _ d rfl
  | onFinished t => exact .lock _ t rfl
  | unlockTask t => exact .unlockTask t
  | setQueue t => exact .setQueue t
  | notifyOne q => cases c <;> exact .same _ rfl
  | testPop q =>
    dsimp only [exec]
    split
    · split <;> exact .same _ rfl
    · cases q <;> exact .same _ rfl
  | testDeadline =>
    cases c with
    | front t =>
      dsimp only [exec]
      split
      · split <;> exact .same _ rfl
      · exact .same _ rfl
    | _ => exact .same _ rfl
  | setClosed q =>
    dsimp only [exec]
    split <;> exact .same _ rfl
  | _ => exact .same _ rfl

theorem submitted_exec [DecidableEq Θ] (θ : Θ) (m : Mem Θ T V E) (c : Choice Θ T V E)
    (i : Instr T V E) :
    (exec θ m c i).mem.submitted = m.submitted ∧ (exec θ m c i).mem.now = m.now := by
  cases i with
  | running t => cases c <;> exact ⟨rfl, rfl⟩
  | notifyOne q => cases c <;> exact ⟨rfl, rfl⟩
  | finishDepended t => dsimp only [exec]; split <;> exact ⟨rfl, rfl⟩
  | finishTriggered t => dsimp only [exec]; split <;> exact ⟨rfl, rfl⟩
  | casEnqueued by_ t => dsimp only [exec]; split <;> exact ⟨rfl, rfl⟩
  | casSubmitted t => dsimp only [exec]; split <;> exact ⟨rfl, rfl⟩
  | setClosed q => dsimp only [exec]; split <;> exact ⟨rfl, rfl⟩
  | testPop q =>
    dsimp only [exec]
    split
    · split <;> exact ⟨rfl, rfl⟩
    · cases q <;> exact ⟨rfl, rfl⟩
  | testDeadline =>
    cases c with
    | front t =>
      dsimp only [exec]
      split
      · split <;> exact ⟨rfl, rfl⟩
      · exact ⟨rfl, rfl⟩
    | _ => exact ⟨rfl, rfl⟩
  | _ => exact ⟨rfl, rfl⟩

/-! ## What an instruction does to the queues -/

/-- What an instruction can do to the queues. -/
inductive QueueChange (m : Mem Θ T V E) : Instr T V E → (Which → Queue Θ T) → Prop where
  | same (i : Instr T V E) : QueueChange m i m.queue
  | inert (i : Instr T V E) (q : Which) (f : Queue Θ T → Queue Θ T)
      (hf : ∀ r, (f r).queue_ = r.queue_ ∧ (r.closed_ = true → (f r).closed_ = true)) :
      QueueChange m i (m.onQueue q f).queue
  | emplace (q : Which) (t : T) :
      QueueChange m (.emplace q t)
        (m.onQueue q fun r ↦ { r with queue_ := r.queue_ ++ [t] }).queue
  | pop (t : T) (ts : List T) (h : (m.queue .tasks).queue_ = t :: ts) :
      QueueChange m (.testPop .tasks) (m.onQueue .tasks fun r ↦ { r with queue_ := ts }).queue
  | popTimer (t : T) :
      QueueChange m .testDeadline
        (m.onQueue .timer fun r ↦ { r with queue_ := r.queue_.erase t }).queue

theorem exec_queueChange [DecidableEq Θ] (θ : Θ) (m : Mem Θ T V E) (c : Choice Θ T V E)
    (i : Instr T V E) : QueueChange m i (exec θ m c i).mem.queue := by
  cases i with
  | lockPush q t => exact .inert _ q (fun r ↦ { r with edit_queue_ := some θ }) fun _ ↦ ⟨rfl, id⟩
  | emplace q t => exact .emplace q t
  | notifyOne q =>
    cases c with
    | wake θ' =>
      exact .inert _ q (fun r ↦ { r with waiting_pop_ := r.waiting_pop_.erase θ' })
        fun _ ↦ ⟨rfl, id⟩
    | _ => exact .same _
  | notifyAll q => exact .inert _ q (fun r ↦ { r with waiting_pop_ := [] }) fun _ ↦ ⟨rfl, id⟩
  | unlockQueue q => exact .inert _ q (fun r ↦ { r with edit_queue_ := none }) fun _ ↦ ⟨rfl, id⟩
  | lockPop q => exact .inert _ q (fun r ↦ { r with edit_queue_ := some θ }) fun _ ↦ ⟨rfl, id⟩
  | testPop q =>
    dsimp only [exec]
    split
    · split
      · exact .same _
      · exact .inert _ q
          (fun r ↦ { r with edit_queue_ := none, waiting_pop_ := θ :: r.waiting_pop_ })
          fun _ ↦ ⟨rfl, id⟩
    · rename_i t ts h
      cases q with
      | tasks => exact .pop t ts h
      | timer => exact .same _
  | sleep q =>
    exact .inert _ q (fun r ↦ { r with waiting_pop_ := r.waiting_pop_.erase θ }) fun _ ↦ ⟨rfl, id⟩
  | lockTimer =>
    exact .inert _ .timer (fun r ↦ { r with edit_queue_ := some θ }) fun _ ↦ ⟨rfl, id⟩
  | testDeadline =>
    cases c with
    | front t =>
      dsimp only [exec]
      split
      · split
        · exact .inert _ .timer
            (fun r ↦ { r with edit_queue_ := none, waiting_pop_ := θ :: r.waiting_pop_ })
            fun _ ↦ ⟨rfl, id⟩
        · exact .popTimer t
      · exact .same _
    | _ => exact .same _
  | sleepUntil at_ =>
    exact .inert _ .timer (fun r ↦ { r with waiting_pop_ := r.waiting_pop_.erase θ })
      fun _ ↦ ⟨rfl, id⟩
  | setClosed q =>
    dsimp only [exec]
    split
    · exact .same _
    · exact .inert _ q (fun r ↦ { r with closed_ := true }) fun _ ↦ ⟨rfl, fun _ ↦ rfl⟩
  | lockClose q => exact .inert _ q (fun r ↦ { r with edit_queue_ := some θ }) fun _ ↦ ⟨rfl, id⟩
  | running t => cases c <;> exact .same _
  | finishDepended t => dsimp only [exec]; split <;> exact .same _
  | finishTriggered t => dsimp only [exec]; split <;> exact .same _
  | casEnqueued by_ t => dsimp only [exec]; split <;> exact .same _
  | casSubmitted t => dsimp only [exec]; split <;> exact .same _
  | _ => exact .same _

omit [DecidableEq T] in
theorem Mem.queue_onQueue (m : Mem Θ T V E) (q : Which) (f : Queue Θ T → Queue Θ T) (q' : Which) :
    (m.onQueue q f).queue q' = if q' = q then f (m.queue q) else m.queue q' :=
  Function.update_apply _ _ _ _

/-- Who adds to a queue. -/
theorem QueueChange.mem_queue {m : Mem Θ T V E} {i : Instr T V E}
    {queue : Which → Queue Θ T} (h : QueueChange m i queue) {q : Which} {t : T}
    (ht : t ∈ (queue q).queue_) : t ∈ (m.queue q).queue_ ∨ i = .emplace q t := by
  cases h with
  | same => exact .inl ht
  | inert _ q' f hf =>
    have hq := hf (m.queue q')
    rw [Mem.queue_onQueue] at ht
    split_ifs at ht <;> simp_all
  | emplace q' x =>
    rw [Mem.queue_onQueue] at ht
    split_ifs at ht with hq
    · subst hq
      exact (List.mem_append.mp ht).imp_right fun hx ↦ by rw [List.mem_singleton.mp hx]
    · exact .inl ht
  | pop x xs heq =>
    rw [Mem.queue_onQueue] at ht
    split_ifs at ht with hq
    · subst hq
      rw [heq]
      exact .inl (List.mem_cons_of_mem x ht)
    · exact .inl ht
  | popTimer x =>
    rw [Mem.queue_onQueue] at ht
    split_ifs at ht with hq
    · subst hq
      exact .inl (List.mem_of_mem_erase ht)
    · exact .inl ht

/-- A queue is not opened again. -/
theorem QueueChange.closed {m : Mem Θ T V E} {i : Instr T V E}
    {queue : Which → Queue Θ T} (h : QueueChange m i queue) {q : Which}
    (hq : (m.queue q).closed_ = true) : (queue q).closed_ = true := by
  cases h with
  | same => exact hq
  | inert _ q' f hf =>
    have hq' := hf (m.queue q')
    rw [Mem.queue_onQueue]
    split_ifs <;> simp_all
  | _ =>
    rw [Mem.queue_onQueue]
    split_ifs <;> simp_all

/-! ## Field by field -/

section

variable {θ : Θ} {m : Mem Θ T V E} {i : Instr T V E} {task : T → Task Θ T V E}

/-- Who changes the state of a task. -/
theorem TaskChange.state_eq (h : TaskChange θ m i task) (t : T) :
    (task t).state_ = (m.task t).state_ ∨
      (i = .casSubmitted t ∧ (m.task t).state_ = .Created ∧ (task t).state_ = .Submitted) ∨
      (∃ by_, i = .casEnqueued by_ t ∧ (m.task t).state_ = .Submitted ∧
        (task t).state_ = .Enqueued) ∨
      ∃ state, i = .store t state ∧ (task t).state_ = state := by
  cases h with
  | same => exact .inl rfl
  | casEnqueued | casSubmitted | store =>
    simp only [Mem.task_onTask]
    split_ifs <;> simp_all
  | register | finishDepended | finishTriggered =>
    exact .inl (Mem.onTask_onTask_field Task.state_ m (fun _ ↦ by rfl) (fun _ ↦ by rfl) t)
  | _ => exact .inl (Mem.onTask_field Task.state_ m (fun _ ↦ by rfl) t)

/-- Who changes `depended_`. -/
theorem TaskChange.depended_eq (h : TaskChange θ m i task) (t : T) :
    (task t).depended_ = (m.task t).depended_ ∨
      (∃ x, i = .register t x ∧ (task t).depended_ = (m.task t).depended_ ++ [x]) ∨
      (i = .finishDepended t ∧ ∃ x, (m.task t).depended_ = x :: (task t).depended_) := by
  cases h with
  | same => exact .inl rfl
  | register | finishDepended =>
    simp only [Mem.task_onTask]
    split_ifs <;> simp_all
  | finishTriggered =>
    exact .inl (Mem.onTask_onTask_field Task.depended_ m (fun _ ↦ by rfl) (fun _ ↦ by rfl) t)
  | _ => exact .inl (Mem.onTask_field Task.depended_ m (fun _ ↦ by rfl) t)

/-- Who changes `dependecies_cnt_`. -/
theorem TaskChange.cnt_eq (h : TaskChange θ m i task) (t : T) :
    (task t).dependecies_cnt_ = (m.task t).dependecies_cnt_ ∨
      (∃ d, i = .register d t ∧ (task t).dependecies_cnt_ = (m.task t).dependecies_cnt_ + 1) ∨
      (∃ d xs, i = .finishDepended d ∧ (m.task d).depended_ = t :: xs ∧
        (task t).dependecies_cnt_ = (m.task t).dependecies_cnt_ - 1) := by
  cases h with
  | same => exact .inl rfl
  | register | finishDepended =>
    simp only [Mem.task_onTask]
    split_ifs <;> simp_all
  | finishTriggered =>
    exact .inl (Mem.onTask_onTask_field Task.dependecies_cnt_ m (fun _ ↦ by rfl) (fun _ ↦ by rfl) t)
  | _ => exact .inl (Mem.onTask_field Task.dependecies_cnt_ m (fun _ ↦ by rfl) t)

/-- Who changes `dependencies_` and `has_dependencies_`. -/
theorem TaskChange.dependencies_eq (h : TaskChange θ m i task) (t : T) :
    ((task t).dependencies_ = (m.task t).dependencies_ ∧
        (task t).has_dependencies_ = (m.task t).has_dependencies_) ∨
      (∃ d, i = .linkDependency t d ∧ (task t).dependencies_ = (m.task t).dependencies_ ++ [d] ∧
        (task t).has_dependencies_ = true) ∨
      (i = .clearLists t ∧ (task t).dependencies_ = [] ∧
        (task t).has_dependencies_ = (m.task t).has_dependencies_) := by
  cases h with
  | same => exact .inl ⟨rfl, rfl⟩
  | linkDependency | clearLists =>
    simp only [Mem.task_onTask]
    split_ifs <;> simp_all
  | register | finishDepended | finishTriggered =>
    exact .inl (Prod.mk.inj
      (Mem.onTask_onTask_field (fun r ↦ (r.dependencies_, r.has_dependencies_)) m (fun _ ↦ by rfl)
        (fun _ ↦ by rfl) t))
  | _ => exact .inl (Prod.mk.inj
      (Mem.onTask_field (fun r ↦ (r.dependencies_, r.has_dependencies_)) m (fun _ ↦ by rfl) t))

/-- Who changes `triggers_` and `has_triggers_`. -/
theorem TaskChange.triggers_eq (h : TaskChange θ m i task) (t : T) :
    ((task t).triggers_ = (m.task t).triggers_ ∧
        (task t).has_triggers_ = (m.task t).has_triggers_) ∨
      (∃ d, i = .linkTrigger t d ∧ (task t).triggers_ = (m.task t).triggers_ ++ [d] ∧
        (task t).has_triggers_ = true) ∨
      (i = .clearLists t ∧ (task t).triggers_ = [] ∧
        (task t).has_triggers_ = (m.task t).has_triggers_) := by
  cases h with
  | same => exact .inl ⟨rfl, rfl⟩
  | linkTrigger | clearLists =>
    simp only [Mem.task_onTask]
    split_ifs <;> simp_all
  | register | finishDepended | finishTriggered =>
    exact .inl (Prod.mk.inj
      (Mem.onTask_onTask_field (fun r ↦ (r.triggers_, r.has_triggers_)) m (fun _ ↦ by rfl)
        (fun _ ↦ by rfl) t))
  | _ => exact .inl (Prod.mk.inj
      (Mem.onTask_field (fun r ↦ (r.triggers_, r.has_triggers_)) m (fun _ ↦ by rfl) t))

/-- Who changes `triggered_`. -/
theorem TaskChange.triggered_eq (h : TaskChange θ m i task) (t : T) :
    (task t).triggered_ = (m.task t).triggered_ ∨
      (∃ x, i = .registerTrigger t x ∧ (task t).triggered_ = (m.task t).triggered_ ++ [x]) ∨
      (i = .finishTriggered t ∧ ∃ x, (m.task t).triggered_ = x :: (task t).triggered_ ∧
        (task x).triggers_activated_ = true) := by
  cases h with
  | same => exact .inl rfl
  | registerTrigger | finishTriggered =>
    simp only [Mem.task_onTask]
    split_ifs <;> simp_all
  | register | finishDepended =>
    exact .inl (Mem.onTask_onTask_field Task.triggered_ m (fun _ ↦ by rfl) (fun _ ↦ by rfl) t)
  | _ => exact .inl (Mem.onTask_field Task.triggered_ m (fun _ ↦ by rfl) t)

/-- Who changes `triggers_activated_`. -/
theorem TaskChange.activated_eq (h : TaskChange θ m i task) (t : T) :
    (task t).triggers_activated_ = (m.task t).triggers_activated_ ∨
      (∃ d, i = .activate d t ∧ (task t).triggers_activated_ = true) ∨
      (∃ d xs, i = .finishTriggered d ∧ (m.task d).triggered_ = t :: xs ∧
        (task t).triggers_activated_ = true) := by
  cases h with
  | same => exact .inl rfl
  | activate | finishTriggered =>
    simp only [Mem.task_onTask]
    split_ifs <;> simp_all
  | register | finishDepended =>
    exact .inl
      (Mem.onTask_onTask_field Task.triggers_activated_ m (fun _ ↦ by rfl) (fun _ ↦ by rfl) t)
  | _ => exact .inl (Mem.onTask_field Task.triggers_activated_ m (fun _ ↦ by rfl) t)

/-- Who locks and unlocks a task. -/
theorem TaskChange.edit_eq (h : TaskChange θ m i task) (t : T) :
    (i.locks = some t ∧ (task t).edit_task_ = some θ) ∨
      (i = .unlockTask t ∧ (task t).edit_task_ = none) ∨
      (i.locks ≠ some t ∧ i ≠ .unlockTask t ∧ (task t).edit_task_ = (m.task t).edit_task_) := by
  cases h with
  | same _ h =>
    refine .inr (.inr ⟨?_, ?_, rfl⟩)
    · cases i <;> simp_all [Instr.touches, Instr.locks]
    · rintro rfl
      cases h
  | lock _ x h =>
    by_cases hx : t = x
    · subst hx
      exact .inl ⟨h, by rw [Mem.task_onTask_self]⟩
    · refine .inr (.inr ⟨fun ht ↦ hx (Option.some.inj (ht.symm.trans h)), ?_,
        by rw [Mem.task_onTask_of_ne _ _ hx]⟩)
      rintro rfl
      cases h
  | unlockTask x =>
    by_cases hx : t = x
    · subst hx
      exact .inr (.inl ⟨rfl, by rw [Mem.task_onTask_self]⟩)
    · refine .inr (.inr ⟨(fun h ↦ nomatch h), fun h ↦ hx (Instr.unlockTask.inj h).symm, ?_⟩)
      rw [Mem.task_onTask_of_ne _ _ hx]
  | _ =>
    simp only [Mem.task_onTask, Instr.locks]
    split_ifs <;> simp_all

/-- Who sets `queue_`. -/
theorem TaskChange.queue_iff (h : TaskChange θ m i task) (t : T) :
    (task t).queue_ = true ↔ (m.task t).queue_ = true ∨ i = .setQueue t := by
  cases h with
  | same _ h =>
    refine ⟨.inl, ?_⟩
    rintro (h' | rfl)
    · exact h'
    · cases h
  | lock _ x h =>
    simp only [Mem.task_onTask]
    split_ifs <;> cases i <;> simp_all [Instr.locks]
  | setQueue x =>
    by_cases hx : t = x
    · subst hx
      rw [Mem.task_onTask_self]
      exact ⟨fun _ ↦ .inr rfl, fun _ ↦ rfl⟩
    · rw [Mem.task_onTask_of_ne _ _ hx]
      exact ⟨.inl, fun h ↦ h.resolve_right fun h ↦ hx (Instr.setQueue.inj h).symm⟩
  | _ =>
    simp only [Mem.task_onTask]
    split_ifs <;> simp_all

/-- Who changes what `Get` returns. -/
theorem TaskChange.result_eq (h : TaskChange θ m i task) (t : T) :
    i = .running t ∨ (∃ e, i = .setError t e) ∨
      ((task t).result_ = (m.task t).result_ ∧ (task t).exc_ptr_ = (m.task t).exc_ptr_) := by
  cases h with
  | same => exact .inr (.inr ⟨rfl, rfl⟩)
  | running | setError =>
    simp only [Mem.task_onTask]
    split_ifs <;> simp_all
  | register | finishDepended | finishTriggered =>
    exact .inr (.inr (Prod.mk.inj
      (Mem.onTask_onTask_field (fun r ↦ (r.result_, r.exc_ptr_)) m (fun _ ↦ by rfl) (fun _ ↦ by rfl)
        t)))
  | _ => exact .inr (.inr (Prod.mk.inj
      (Mem.onTask_field (fun r ↦ (r.result_, r.exc_ptr_)) m (fun _ ↦ by rfl) t)))

end

end Executor
end ManyTasks
