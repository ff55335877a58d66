import ManyTasks.Executor.Memory

/-!
# How the memory of the executor develops

Whatever the threads do, the memory develops in one direction (`Grows`): a finished task stays
finished, no task goes back to `Created` or to `Submitted`, what was added to a submitted task stays
as it was while it waits, and time does not go back.  Later invariants only use that what they say
of the memory is kept by growth.

`Ok` is what the memory looks like while an instruction is pending.
-/

set_option autoImplicit false

namespace ManyTasks
namespace Executor

variable {Θ T V E : Type}

namespace Mem

/-- `IsFinished()`. -/
def Finished (m : Mem Θ T V E) (t : T) : Prop := (m.task t).state_.finished = true

/-- The task has not been put on the queue of the workers. -/
def Waiting (m : Mem Θ T V E) (t : T) : Prop :=
  (m.task t).state_ = .Created ∨ (m.task t).state_ = .Submitted

/-- One of the conditions holds under which a submitted task may start. -/
def Due (m : Mem Θ T V E) (t : T) : Prop :=
  ((m.task t).dependencies_ ≠ [] ∧ ∀ d ∈ (m.task t).dependencies_, m.Finished d) ∨
    (∃ d ∈ (m.task t).triggers_, m.Finished d) ∨
    ((m.task t).has_time_trigger_ = true ∧ (m.task t).start_at_ ≤ m.now) ∨
    ((m.task t).dependencies_ = [] ∧ (m.task t).triggers_ = [] ∧
      (m.task t).has_time_trigger_ = false)

end Mem

/-! ## Growth -/

/-- What can become of a task, on which `Submit` has been called or not. -/
structure TaskGrows (submitted : Bool) (r r' : Task Θ T V E) : Prop where
  finished : r.state_.finished = true → r'.state_.finished = true
  created : r.state_ ≠ .Created → r'.state_ ≠ .Created
  state : r.state_ ≠ .Created → r'.state_ = .Submitted → r.state_ = .Submitted
  depended : ∀ t ∈ r.depended_, r.state_.finished = true ∨ t ∈ r'.depended_
  fixed : submitted = true → r'.has_dependencies_ = r.has_dependencies_ ∧
    r'.has_triggers_ = r.has_triggers_ ∧ r'.has_time_trigger_ = r.has_time_trigger_ ∧
    r'.start_at_ = r.start_at_
  lists : submitted = true → r'.state_ = .Submitted →
    r'.dependencies_ = r.dependencies_ ∧ r'.triggers_ = r.triggers_

/-- What can become of a memory. -/
structure Grows (m m' : Mem Θ T V E) : Prop where
  task : ∀ t, TaskGrows (m.submitted t) (m.task t) (m'.task t)
  submitted : m'.submitted = m.submitted
  now : m.now ≤ m'.now

theorem TaskGrows.refl (submitted : Bool) (r : Task Θ T V E) : TaskGrows submitted r r :=
  ⟨id, id, fun _ h ↦ h, fun _ h ↦ .inr h, fun _ ↦ ⟨rfl, rfl, rfl, rfl⟩, fun _ _ ↦ ⟨rfl, rfl⟩⟩

theorem TaskGrows.congr {submitted : Bool} {r r' r₁ r₁' : Task Θ T V E}
    (h : TaskGrows submitted r r') (hr : r₁.core = r.core) (hr' : r₁'.core = r'.core) :
    TaskGrows submitted r₁ r₁' := by
  simp only [Task.core, Prod.mk.injEq] at hr hr'
  obtain ⟨h1, h2, h3, h4, h5, h6, h7, h8⟩ := hr
  obtain ⟨h1', h2', h3', h4', h5', h6', h7', h8'⟩ := hr'
  obtain ⟨finished, created, state, depended, fixed, lists⟩ := h
  constructor
  · rw [h1, h1']; exact finished
  · rw [h1, h1']; exact created
  · rw [h1, h1']; exact state
  · rw [h1, h2, h2']; exact depended
  · rw [h5, h6, h7, h8, h5', h6', h7', h8']; exact fixed
  · rw [h3, h4, h1', h3', h4']; exact lists

theorem TaskGrows.of_core_eq {submitted : Bool} {r r' : Task Θ T V E} (h : r'.core = r.core) :
    TaskGrows submitted r r' :=
  (TaskGrows.refl submitted r).congr rfl h

theorem Grows.refl (m : Mem Θ T V E) : Grows m m :=
  ⟨fun _ ↦ .of_core_eq rfl, rfl, Nat.le_refl _⟩

theorem Grows.of_task_eq {m m' : Mem Θ T V E} (htask : m'.task = m.task)
    (hsub : m'.submitted = m.submitted) (hnow : m.now ≤ m'.now) : Grows m m' :=
  ⟨fun t ↦ .of_core_eq (by rw [htask]), hsub, hnow⟩

variable [DecidableEq T]

theorem Grows.onTask {m : Mem Θ T V E} {t : T} {f : Task Θ T V E → Task Θ T V E}
    (h : TaskGrows (m.submitted t) (m.task t) (f (m.task t))) : Grows m (m.onTask t f) := by
  refine ⟨fun x ↦ ?_, rfl, Nat.le_refl _⟩
  by_cases hx : x = t
  · subst hx
    rw [Mem.task_onTask_self]
    exact h
  · rw [Mem.task_onTask_of_ne _ _ hx]
    exact .of_core_eq rfl

theorem Mem.core_onTask (m : Mem Θ T V E) {t : T} {f : Task Θ T V E → Task Θ T V E}
    (hf : (f (m.task t)).core = (m.task t).core) (x : T) :
    ((m.onTask t f).task x).core = (m.task x).core := by
  by_cases hx : x = t
  · subst hx
    rw [task_onTask_self, hf]
  · rw [task_onTask_of_ne _ _ hx]

/-- A change before, outside the part that growth is about. -/
theorem Grows.of_onTask {m m' : Mem Θ T V E} {t : T} {f : Task Θ T V E → Task Θ T V E}
    (hf : (f (m.task t)).core = (m.task t).core) (h : Grows (m.onTask t f) m') : Grows m m' :=
  ⟨fun x ↦ (h.task x).congr (m.core_onTask hf x).symm rfl, h.submitted, h.now⟩

/-- A change after, outside the part that growth is about. -/
theorem Grows.then_onTask {m m' : Mem Θ T V E} (h : Grows m m') {t : T}
    {f : Task Θ T V E → Task Θ T V E} (hf : (f (m'.task t)).core = (m'.task t).core) :
    Grows m (m'.onTask t f) :=
  ⟨fun x ↦ (h.task x).congr rfl (m'.core_onTask hf x), h.submitted, h.now⟩

/-! ## Pending instructions -/

/-- The task is one that the timer thread may put on the queue of the workers. -/
def Mem.Timed (m : Mem Θ T V E) (t : T) : Prop :=
  m.submitted t = true ∧ (m.task t).has_time_trigger_ = true ∧ (m.task t).state_ ≠ .Created

/-- What is true of the memory while an instruction is pending. -/
def Mem.Ok (m : Mem Θ T V E) : Instr T V E → Prop
  | .addDepended _ t | .testDepended _ t | .register _ t => m.submitted t = false
  | .linkDependency t d =>
    m.submitted t = false ∧ (m.Finished d ∨ t ∈ (m.task d).depended_)
  | .addTriggered _ t | .testTriggered _ t | .registerTrigger _ t => m.submitted t = false
  | .activate d t => m.submitted t = false ∧ m.Finished d
  | .linkTrigger t _ | .setTimeTrigger t _ => m.submitted t = false
  | .setQueue t | .casSubmitted t => m.submitted t = true
  | .testEnqueued t | .testFinished t => m.submitted t = true ∧ (m.task t).state_ ≠ .Created
  | .testClosed .timer t | .lockPush .timer t | .emplace .timer t => m.Timed t
  | .timerTest t => m.Timed t ∧ (m.task t).start_at_ ≤ m.now
  | .store _ state => state.finished = true
  | .onFinished t | .finishDepended t | .finishTriggered t => m.Finished t
  | .testSubmitted (.finished d) _ => m.Finished d
  | .testTriggers _ t | .testDependencies _ t => (m.task t).state_ ≠ .Created
  | .testQueue _ t | .casEnqueued _ t =>
    (m.task t).state_ ≠ .Created ∧ ((m.task t).state_ = .Submitted → m.Due t)
  | .clearLists t => ¬ m.Waiting t
  | _ => True

theorem TaskChange.grows {θ : Θ} {m : Mem Θ T V E} {i : Instr T V E} {task : T → Task Θ T V E}
    (h : TaskChange θ m i task) (hok : m.Ok i) (t : T) :
    TaskGrows (m.submitted t) (m.task t) (task t) := by
  revert t
  cases h with
  | same => exact (Grows.refl m).task
  | lock _ t => exact (Grows.onTask (.of_core_eq rfl)).task
  | unlockTask t => exact (Grows.onTask (.of_core_eq rfl)).task
  | running t v => exact (Grows.onTask (.of_core_eq rfl)).task
  | setError t e => exact (Grows.onTask (.of_core_eq rfl)).task
  | setQueue t => exact (Grows.onTask (.of_core_eq rfl)).task
  | register d t =>
    refine (Grows.of_onTask (f := fun r ↦ { r with dependecies_cnt_ := r.dependecies_cnt_ + 1 }) rfl
      (.onTask ?_)).task
    exact ⟨id, id, fun _ h ↦ h, fun x hx ↦ .inr (List.mem_append_left _ hx),
      fun _ ↦ ⟨rfl, rfl, rfl, rfl⟩, fun _ _ ↦ ⟨rfl, rfl⟩⟩
  | linkDependency t d =>
    -- nothing is added to a task on which `Submit` has been called
    have hsub : m.submitted t ≠ true := by rw [hok.1]; exact Bool.false_ne_true
    exact (Grows.onTask ⟨id, id, fun _ h ↦ h, fun x hx ↦ .inr hx, fun h ↦ absurd h hsub,
      fun h ↦ absurd h hsub⟩).task
  | registerTrigger d t => exact (Grows.onTask (.of_core_eq rfl)).task
  | activate d t => exact (Grows.onTask (.of_core_eq rfl)).task
  | linkTrigger t d =>
    have hsub : m.submitted t ≠ true := by rw [hok]; exact Bool.false_ne_true
    exact (Grows.onTask ⟨id, id, fun _ h ↦ h, fun x hx ↦ .inr hx, fun h ↦ absurd h hsub,
      fun h ↦ absurd h hsub⟩).task
  | setTimeTrigger t at_ =>
    have hsub : m.submitted t ≠ true := by rw [hok]; exact Bool.false_ne_true
    exact (Grows.onTask ⟨id, id, fun _ h ↦ h, fun x hx ↦ .inr hx, fun h ↦ absurd h hsub,
      fun h ↦ absurd h hsub⟩).task
  | finishDepended t x xs =>
    -- only those that depend on a finished task are forgotten
    refine (Grows.then_onTask (.onTask ?_) rfl).task
    exact ⟨id, id, fun _ h ↦ h, fun x hx ↦ .inl hok, fun _ ↦ ⟨rfl, rfl, rfl, rfl⟩,
      fun _ _ ↦ ⟨rfl, rfl⟩⟩
  | finishTriggered t x xs => exact (Grows.then_onTask (.onTask (.of_core_eq rfl)) rfl).task
  | casEnqueued by_ t hstate =>
    refine (Grows.onTask ⟨fun h ↦ ?_, fun _ h ↦ ?_, fun _ h ↦ ?_, fun x hx ↦ .inr hx,
      fun _ ↦ ⟨rfl, rfl, rfl, rfl⟩, fun _ h ↦ ?_⟩).task
    · rw [hstate] at h
      cases h
    all_goals cases h
  | clearLists t =>
    exact (Grows.onTask ⟨id, id, fun _ h ↦ h, fun x hx ↦ .inr hx, fun _ ↦ ⟨rfl, rfl, rfl, rfl⟩,
      fun _ h ↦ absurd (.inr h) hok⟩).task
  | casSubmitted t hstate =>
    refine (Grows.onTask ⟨fun h ↦ ?_, fun h ↦ absurd hstate h, fun h ↦ absurd hstate h,
      fun x hx ↦ .inr hx, fun _ ↦ ⟨rfl, rfl, rfl, rfl⟩, fun _ _ ↦ ⟨rfl, rfl⟩⟩).task
    rw [hstate] at h
    cases h
  | store t state =>
    have hne {state' : TaskStates} (hnot : state'.finished = false) : state ≠ state' := by
      rintro rfl
      exact Bool.false_ne_true (hnot.symm.trans hok)
    have hgrows : Grows m (m.onTask t fun r ↦ { r with state_ := state }) :=
      .onTask ⟨fun _ ↦ hok, fun _ ↦ hne rfl, fun _ h ↦ absurd h (hne rfl), fun x hx ↦ .inr hx,
        fun _ ↦ ⟨rfl, rfl, rfl, rfl⟩, fun _ h ↦ absurd h (hne rfl)⟩
    exact hgrows.task

/-- **Growth.**  Whatever instruction is executed, the memory grows. -/
theorem exec_grows [DecidableEq Θ] (θ : Θ) {m : Mem Θ T V E} (c : Choice Θ T V E)
    {i : Instr T V E} (hok : m.Ok i) : Grows m (exec θ m c i).mem :=
  ⟨(exec_taskChange θ m c i).grows hok, (submitted_exec θ m c i).1,
    Nat.le_of_eq (submitted_exec θ m c i).2.symm⟩

/-! ## What growth keeps -/

section

omit [DecidableEq T]

variable {m m' : Mem Θ T V E}

theorem Mem.Finished.grows {t : T} (h : m.Finished t) (hm : Grows m m') : m'.Finished t :=
  (hm.task t).finished h

theorem Grows.not_created (hm : Grows m m') {t : T} (h : (m.task t).state_ ≠ .Created) :
    (m'.task t).state_ ≠ .Created :=
  (hm.task t).created h

/-- A task that waits has waited all the time. -/
theorem Grows.waiting (hm : Grows m m') {t : T} (h : m'.Waiting t) : m.Waiting t := by
  by_cases hstate : (m.task t).state_ = .Created
  · exact .inl hstate
  · rcases h with hc | hs
    · exact absurd hc (hm.not_created hstate)
    · exact .inr ((hm.task t).state hstate hs)

theorem Mem.Timed.grows {t : T} (h : m.Timed t) (hm : Grows m m') : m'.Timed t := by
  obtain ⟨hsub, htime, hstate⟩ := h
  refine ⟨by rw [hm.submitted]; exact hsub, ?_, hm.not_created hstate⟩
  rw [((hm.task t).fixed hsub).2.2.1]
  exact htime

/-- A submitted task that is due stays so while it waits. -/
theorem Mem.Due.grows {t : T} (h : m.Due t) (hm : Grows m m') (hsub : m.submitted t = true)
    (hstate : (m'.task t).state_ = .Submitted) : m'.Due t := by
  obtain ⟨-, -, htime, hstart⟩ := (hm.task t).fixed hsub
  obtain ⟨hdeps, htrigs⟩ := (hm.task t).lists hsub hstate
  rw [Mem.Due, hdeps, htrigs, htime, hstart]
  rcases h with ⟨hne, hall⟩ | ⟨d, hd, hfin⟩ | ⟨htime, hle⟩ | hnone
  · exact .inl ⟨hne, fun d hd ↦ (hall d hd).grows hm⟩
  · exact .inr (.inl ⟨d, hd, hfin.grows hm⟩)
  · exact .inr (.inr (.inl ⟨htime, Nat.le_trans hle hm.now⟩))
  · exact .inr (.inr (.inr hnone))

/-- Growth keeps what is true while an instruction is pending. -/
theorem Mem.Ok.grows {i : Instr T V E} (h : m.Ok i) (hm : Grows m m')
    (hsub : ∀ t, (m.task t).state_ = .Submitted → m.submitted t = true) : m'.Ok i := by
  have hdue {t : T} (h : (m.task t).state_ ≠ .Created ∧
      ((m.task t).state_ = .Submitted → m.Due t)) :
      (m'.task t).state_ ≠ .Created ∧ ((m'.task t).state_ = .Submitted → m'.Due t) := by
    refine ⟨hm.not_created h.1, fun hstate' ↦ ?_⟩
    have hstate := (hm.task t).state h.1 hstate'
    exact (h.2 hstate).grows hm (hsub t hstate) hstate'
  cases i with
  | linkDependency t d =>
    refine ⟨by rw [hm.submitted]; exact h.1, ?_⟩
    rcases h.2 with hfin | hmem
    · exact .inl (hfin.grows hm)
    · exact ((hm.task d).depended t hmem).imp_left fun hfin ↦ (hm.task d).finished hfin
  | activate d t => exact ⟨by rw [hm.submitted]; exact h.1, h.2.grows hm⟩
  | testEnqueued t => exact ⟨by rw [hm.submitted]; exact h.1, hm.not_created h.2⟩
  | testFinished t => exact ⟨by rw [hm.submitted]; exact h.1, hm.not_created h.2⟩
  | testClosed q t =>
    cases q with
    | tasks => trivial
    | timer => exact Mem.Timed.grows h hm
  | lockPush q t =>
    cases q with
    | tasks => trivial
    | timer => exact Mem.Timed.grows h hm
  | emplace q t =>
    cases q with
    | tasks => trivial
    | timer => exact Mem.Timed.grows h hm
  | timerTest t =>
    refine ⟨h.1.grows hm, ?_⟩
    rw [((hm.task t).fixed h.1.1).2.2.2]
    exact Nat.le_trans h.2 hm.now
  | store t state => exact h
  | onFinished t => exact Mem.Finished.grows h hm
  | finishDepended t => exact Mem.Finished.grows h hm
  | finishTriggered t => exact Mem.Finished.grows h hm
  | testSubmitted by_ t =>
    cases by_ with
    | finished d => exact Mem.Finished.grows h hm
    | _ => trivial
  | testTriggers by_ t => exact hm.not_created h
  | testDependencies by_ t => exact hm.not_created h
  | testQueue by_ t => exact hdue h
  | casEnqueued by_ t => exact hdue h
  | clearLists t =>
    intro hwait
    have hstate : (m.task t).state_ ≠ .Created := fun hc ↦ h (.inl hc)
    rcases hwait with hc | hs
    · exact hm.not_created hstate hc
    · exact h (.inr ((hm.task t).state hstate hs))
  | _ =>
    first
    | trivial
    | exact (congrFun hm.submitted _).trans h

end

end Executor
end ManyTasks
