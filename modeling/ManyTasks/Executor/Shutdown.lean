import ManyTasks.Executor.Invariant
import ManyTasks.Executor.Flow
import ManyTasks.Executor.Schedule

/-!
# Submission after shutdown

After `StartShutdown` both queues are closed.  `Submit` itself does not look at that; a task is
canceled only when a `Push` finds the queue closed.  So whether a task that is submitted then is
canceled depends on whether `Submit` comes to a `Push`: the task must be ready, or have a start time
(`Task.cancels`).  A task that waits for something else stays `Submitted`
(`submitted_after_shutdown`).

The call is followed through its instructions (`Phase`), while other threads do what they like, as
long as they leave the task alone.
-/

set_option autoImplicit false

namespace ManyTasks
namespace Executor

variable {Θ T V E : Type} [DecidableEq Θ] [DecidableEq T]

/-! ## The queues are closed -/

theorem closed_step {role : Θ → Role} {s s' : State Θ T V E} {l : Label T}
    (hstep : Step role s l s') {q : Which} (hq : (s.mem.queue q).closed_ = true) :
    (s'.mem.queue q).closed_ = true := by
  cases hstep with
  | @exec θ i rest c hs henabled => exact (exec_queueChange θ s.mem c i).closed hq
  | call call hcan hallowed => cases call <;> exact hq
  | tick d => exact hq

/-- Whoever returns from `StartShutdown` has closed the queue. -/
structure Closing (q : Which) (h : List (State Θ T V E × Label T)) (s : State Θ T V E) : Prop where
  above : s.Above (.setClosed q) (.returned .startShutdown) ((s.mem.queue q).closed_ = true)
  closed : (∃ x ∈ h, x.2 = .returned .startShutdown) → (s.mem.queue q).closed_ = true

omit [DecidableEq Θ] [DecidableEq T] in
theorem closing_init [Inhabited V] (role : Θ → Role) (q : Which) :
    Closing q [] (init role : State Θ T V E) := by
  refine ⟨fun θ pre post heq ↦ ?_, fun ⟨x, hx, _⟩ ↦ nomatch hx⟩
  have hmem : Instr.returned .startShutdown ∈ (init role : State Θ T V E).stack θ := by
    rw [heq]
    exact List.mem_append_right _ List.mem_cons_self
  dsimp only [init] at hmem
  cases hrole : role θ <;> simp [hrole] at hmem

theorem Closing.step {q : Which} {h : List (State Θ T V E × Label T)} {s : State Θ T V E}
    (hc : Closing q h s) {role : Θ → Role} {l : Label T} {s' : State Θ T V E}
    (hstep : Step role s l s') : Closing q (h ++ [(s, l)]) s' := by
  have hkeep : (s.mem.queue q).closed_ = true → (s'.mem.queue q).closed_ = true :=
    closed_step hstep
  refine ⟨?_, ?_⟩
  · cases hstep with
    | @exec θ i rest c hs henabled =>
      refine hc.above.after hs ((exec_flow θ s.mem c i).returned_not_mem _) (fun hi ↦ ?_) hkeep
      subst hi
      by_cases hq : (s.mem.queue q).closed_ = true
      · exact hkeep hq
      · show ((exec θ s.mem c (.setClosed q)).mem.queue q).closed_ = true
        dsimp only [exec]
        rw [if_neg hq]
        dsimp only [go]
        rw [Mem.queue_onQueue_self]
    | call call hcan hallowed =>
      refine hc.above.push (fun pre post heq ↦ ?_) hkeep
      obtain ⟨rfl, rfl⟩ := Call.split_code heq
      cases q <;> simp [Call.code]
    | tick d => exact fun θ pre post heq ↦ (hc.above θ pre post heq).imp_right hkeep
  · rintro ⟨x, hx, hl⟩
    rcases List.mem_append.mp hx with hx | hx
    · exact hkeep (hc.closed ⟨x, hx, hl⟩)
    · rw [List.mem_singleton.mp hx] at hl
      subst hl
      obtain ⟨θ, rest, hs⟩ := hstep.of_returned
      exact hkeep ((hc.above θ [] rest hs).resolve_left List.not_mem_nil)

/-- When `StartShutdown` has returned, both queues are closed. -/
theorem closed_of_returned [Inhabited V] {role : Θ → Role} {s : State Θ T V E}
    {h : List (State Θ T V E × Label T)} (hrun : Lib.Trace (Step role) (init role) h s)
    (hshut : ∃ x ∈ h, x.2 = .returned .startShutdown) (q : Which) :
    (s.mem.queue q).closed_ = true :=
  (hrun.invariant (I := fun h s ↦ Closing q h s) (closing_init role q)
    fun _ _ _ _ hc hstep ↦ hc.step hstep).closed hshut

/-! ## The course of `Submit` -/

/-- What the readiness of a task depends on. -/
def Task.conditions (r : Task Θ T V E) : ℕ × Bool × Bool × Bool × Bool :=
  (r.dependecies_cnt_, r.has_dependencies_, r.has_triggers_, r.triggers_activated_,
    r.has_time_trigger_)

/-- When the queues are closed, does `Submit` of the task come to a `Push`? -/
def Task.cancels (r : Task Θ T V E) : Prop :=
  (r.state_ = .Created ∧ (r.isReadyToEnque = true ∨ r.has_time_trigger_ = true)) ∨
    (r.state_ = .Submitted ∧ r.has_time_trigger_ = true)

/-- The task as it was, but for the state. -/
def Task.Like (r₀ : Task Θ T V E) (state : TaskStates) (r : Task Θ T V E) : Prop :=
  r.state_ = state ∧ r.conditions = r₀.conditions

/-- Instructions that do not change the state of a canceled task, and lead only to such. -/
def Instr.calm : Instr T V E → Bool
  | .store _ .Canceled | .onFinished _ | .finishDepended _ | .finishTriggered _ | .unlockTask _
  | .testSubmitted _ _ | .testTriggers _ _ | .testDependencies _ _ | .testQueue _ _
  | .casEnqueued _ _ | .clearLists _ | .testClosed _ _ | .lockPush _ _ | .emplace _ _
  | .notifyOne _ | .unlockQueue _ | .testEnqueued _ | .testFinished _ => true
  | _ => false

/-- Where `Submit` of `t` is: what is left of it on the stack, and the task; `r₀` is the task when
it was called. -/
inductive Phase (t : T) (r₀ : Task Θ T V E) : List (Instr T V E) → Task Θ T V E → Prop where
  | setQueue {r : Task Θ T V E} (hr : r₀.Like r₀.state_ r) : Phase t r₀ [.setQueue t] r
  | casSubmitted {r : Task Θ T V E} (hr : r₀.Like r₀.state_ r) (hq : r.queue_ = true) :
      Phase t r₀ [.casSubmitted t] r
  | testSubmitted {r : Task Θ T V E} (h₀ : r₀.state_ = .Created) (hr : r₀.Like .Submitted r)
      (hq : r.queue_ = true) : Phase t r₀ [.testSubmitted .submit t, .testEnqueued t] r
  | testTriggers {r : Task Θ T V E} (h₀ : r₀.state_ = .Created) (hr : r₀.Like .Submitted r)
      (hq : r.queue_ = true) : Phase t r₀ [.testTriggers .submit t, .testEnqueued t] r
  | testDependencies {r : Task Θ T V E} (h₀ : r₀.state_ = .Created) (hr : r₀.Like .Submitted r)
      (hq : r.queue_ = true) (hact : (r₀.has_triggers_ && r₀.triggers_activated_) = false) :
      Phase t r₀ [.testDependencies .submit t, .testEnqueued t] r
  | testQueue {r : Task Θ T V E} (h₀ : r₀.state_ = .Created) (hready : r₀.isReadyToEnque = true)
      (hr : r₀.Like .Submitted r) (hq : r.queue_ = true) :
      Phase t r₀ [.testQueue .submit t, .testEnqueued t] r
  | casEnqueued {r : Task Θ T V E} (h₀ : r₀.cancels) (hr : r₀.Like .Submitted r) :
      Phase t r₀ [.casEnqueued .submit t, .testEnqueued t] r
  | clearLists {r : Task Θ T V E} (h₀ : r₀.cancels) :
      Phase t r₀ [.clearLists t, .testClosed .tasks t, .testEnqueued t] r
  | testClosed {r : Task Θ T V E} (h₀ : r₀.cancels) :
      Phase t r₀ [.testClosed .tasks t, .testEnqueued t] r
  /-- The task is `Submitted`, now or already before, and waits for something. -/
  | testEnqueued {r : Task Θ T V E} (h₀ : r₀.cancels ↔ r₀.has_time_trigger_ = true)
      (hr : r₀.Like .Submitted r) : Phase t r₀ [.testEnqueued t] r
  | testFinished {r : Task Θ T V E} (h₀ : r₀.cancels ↔ r₀.has_time_trigger_ = true)
      (hr : r₀.Like .Submitted r) : Phase t r₀ [.testFinished t] r
  | testTimer {r : Task Θ T V E} (h₀ : r₀.cancels) : Phase t r₀ [.testClosed .timer t] r
  /-- The task was `Enqueued` before. -/
  | enqueued {r : Task Θ T V E} (h₀ : ¬ r₀.cancels) (hr : r₀.Like .Enqueued r) :
      Phase t r₀ [.testEnqueued t] r
  | store {pre : List (Instr T V E)} {r : Task Θ T V E} (h₀ : r₀.cancels)
      (hpre : ∀ i ∈ pre, i.calm = true) : Phase t r₀ (.store t .Canceled :: pre) r
  | canceled {pre : List (Instr T V E)} {r : Task Θ T V E} (h₀ : r₀.cancels)
      (hpre : ∀ i ∈ pre, i.calm = true) (hr : r.state_ = .Canceled) : Phase t r₀ pre r
  | returned {r : Task Θ T V E} (h₀ : ¬ r₀.cancels) (hr : r.state_ ≠ .Canceled) : Phase t r₀ [] r

omit [DecidableEq Θ] [DecidableEq T] in
theorem Flow.calm {m : Mem Θ T V E} {i : Instr T V E} {next : List (Instr T V E)} {l : Label T}
    {tasks : List T} (h : Flow m i next l tasks) (hi : i.calm = true) :
    ∀ j ∈ next, j.calm = true := by
  cases h with
  | quiet h =>
    cases h with
    | cancelAll q ts => cases hi
    | lockClose q j hnotify => cases hi
    | _ => simp_all [Instr.calm]
  | _ => simp_all [Instr.calm]

section

variable {t : T} {r₀ r : Task Θ T V E} {state : TaskStates}

omit [DecidableEq Θ] [DecidableEq T] in
theorem Task.Like.conditions_eq (h : r₀.Like state r) :
    r.dependecies_cnt_ = r₀.dependecies_cnt_ ∧ r.has_dependencies_ = r₀.has_dependencies_ ∧
      r.has_triggers_ = r₀.has_triggers_ ∧ r.triggers_activated_ = r₀.triggers_activated_ ∧
      r.has_time_trigger_ = r₀.has_time_trigger_ := by
  have hcond := h.2
  simp only [Task.conditions, Prod.mk.injEq] at hcond
  exact hcond

omit [DecidableEq Θ] [DecidableEq T] in
theorem Task.Like.ready_eq (h : r₀.Like state r) :
    r.readyWithoutTriggers = r₀.readyWithoutTriggers := by
  obtain ⟨hcnt, hdeps, htrigs, -, htime⟩ := h.conditions_eq
  rw [Task.readyWithoutTriggers, Task.readyWithoutTriggers, hcnt, hdeps, htrigs, htime]

omit [DecidableEq Θ] [DecidableEq T] in
/-- A task that is not ready is canceled only for its start time. -/
theorem Task.cancels_iff_of_not_ready (h₀ : r₀.state_ = .Created)
    (hready : r₀.isReadyToEnque = false) : r₀.cancels ↔ r₀.has_time_trigger_ = true := by
  simp [Task.cancels, h₀, hready]

/-- One instruction of `Submit`. -/
theorem Phase.exec {m : Mem Θ T V E} {i : Instr T V E} {pre : List (Instr T V E)} {θ : Θ}
    {c : Choice Θ T V E} (hp : Phase t r₀ (i :: pre) (m.task t))
    (hclosed : ∀ q, (m.queue q).closed_ = true) (hnot : r₀.state_.finished = false) :
    Phase t r₀ ((exec θ m c i).next ++ pre) ((exec θ m c i).mem.task t) := by
  cases hp with
  | setQueue hr =>
    simp only [Executor.exec, go, Mem.task_onTask_self]
    exact .casSubmitted hr rfl
  | casSubmitted hr hq =>
    by_cases hstate : (m.task t).state_ = .Created
    · simp only [Executor.exec, if_pos hstate, go, Mem.task_onTask_self]
      exact .testSubmitted (hr.1.symm.trans hstate) ⟨rfl, hr.2⟩ hq
    · simp only [Executor.exec, if_neg hstate, go]
      cases h₀ : r₀.state_ with
      | Created => exact absurd (hr.1.trans h₀) hstate
      | Submitted => exact .testEnqueued (by simp [Task.cancels, h₀]) ⟨hr.1.trans h₀, hr.2⟩
      | Enqueued => exact .enqueued (by simp [Task.cancels, h₀]) ⟨hr.1.trans h₀, hr.2⟩
      | _ => rw [h₀] at hnot; cases hnot
  | testSubmitted h₀ hr hq =>
    simp only [Executor.exec, if_pos hr.1, go]
    exact .testTriggers h₀ hr hq
  | testTriggers h₀ hr hq =>
    obtain ⟨-, -, htrigs, hact, -⟩ := hr.conditions_eq
    simp only [Executor.exec, htrigs, hact, go]
    split
    · rename_i hboth
      exact .testQueue h₀ (by rw [Task.isReadyToEnque, hboth, Bool.true_or]) hr hq
    · rename_i hboth
      exact .testDependencies h₀ hr hq (Bool.eq_false_of_not_eq_true hboth)
  | testDependencies h₀ hr hq hact =>
    simp only [Executor.exec, hr.ready_eq, go]
    split
    · rename_i hready
      exact .testQueue h₀ (by rw [Task.isReadyToEnque, hready, Bool.or_true]) hr hq
    · rename_i hready
      refine .testEnqueued (Task.cancels_iff_of_not_ready h₀ ?_) hr
      rw [Task.isReadyToEnque, hact, Bool.eq_false_of_not_eq_true hready, Bool.or_false]
  | testQueue h₀ hready hr hq =>
    simp only [Executor.exec, if_pos hq, go]
    exact .casEnqueued (.inl ⟨h₀, .inl hready⟩) hr
  | casEnqueued h₀ hr =>
    simp only [Executor.exec, if_pos hr.1]
    exact .clearLists h₀
  | clearLists h₀ => exact .testClosed h₀
  | testClosed h₀ =>
    simp only [Executor.exec, if_pos (hclosed .tasks), go]
    exact .store h₀ (by simp [Instr.calm])
  | testEnqueued h₀ hr =>
    simp only [Executor.exec, hr.1, reduceCtorEq, if_false, go]
    exact .testFinished h₀ hr
  | testFinished h₀ hr =>
    obtain ⟨-, -, -, -, htime⟩ := hr.conditions_eq
    simp only [Executor.exec, hr.1, htime, TaskStates.finished, Bool.false_or, go]
    split
    · rename_i hno
      refine .returned (fun hc ↦ ?_) (by rw [hr.1]; simp)
      rw [h₀.mp hc] at hno
      cases hno
    · rename_i hyes
      exact .testTimer (h₀.mpr (by simpa using hyes))
  | testTimer h₀ =>
    simp only [Executor.exec, if_pos (hclosed .timer), go]
    exact .store h₀ (by simp)
  | enqueued h₀ hr =>
    simp only [Executor.exec, if_pos hr.1, go]
    exact .returned h₀ (by rw [hr.1]; simp)
  | store h₀ hpre =>
    simp only [Executor.exec, Mem.task_onTask_self]
    refine .canceled h₀ (fun i hi ↦ ?_) rfl
    rcases List.mem_cons.mp hi with rfl | hi
    · rfl
    · exact hpre i hi
  | canceled h₀ hpre hr =>
    have hi := hpre i List.mem_cons_self
    refine .canceled h₀ (fun j hj ↦ ?_) ?_
    · rcases List.mem_append.mp hj with hj | hj
      · exact (exec_flow θ m c i).calm hi j hj
      · exact hpre j (List.mem_cons_of_mem _ hj)
    · rcases (exec_taskChange θ m c i).state_eq t with
        heq | ⟨rfl, -, -⟩ | ⟨by_, -, hc, -⟩ | ⟨state, rfl, heq⟩
      · exact heq.trans hr
      · cases hi
      · cases hc.symm.trans hr
      · cases state with
        | Canceled => exact heq
        | _ => cases hi

omit [DecidableEq Θ] [DecidableEq T] in
/-- Another thread has left alone what `Submit` reads. -/
theorem Phase.congr {pre : List (Instr T V E)} {r' : Task Θ T V E} (hp : Phase t r₀ pre r)
    (hstate : r'.state_ = r.state_) (hcond : r'.conditions = r.conditions)
    (hqueue : r.queue_ = true → r'.queue_ = true) : Phase t r₀ pre r' := by
  have hlike {state : TaskStates} (hr : r₀.Like state r) : r₀.Like state r' :=
    ⟨hstate.trans hr.1, hcond.trans hr.2⟩
  cases hp with
  | setQueue hr => exact .setQueue (hlike hr)
  | casSubmitted hr hq => exact .casSubmitted (hlike hr) (hqueue hq)
  | testSubmitted h₀ hr hq => exact .testSubmitted h₀ (hlike hr) (hqueue hq)
  | testTriggers h₀ hr hq => exact .testTriggers h₀ (hlike hr) (hqueue hq)
  | testDependencies h₀ hr hq hact => exact .testDependencies h₀ (hlike hr) (hqueue hq) hact
  | testQueue h₀ hready hr hq => exact .testQueue h₀ hready (hlike hr) (hqueue hq)
  | casEnqueued h₀ hr => exact .casEnqueued h₀ (hlike hr)
  | clearLists h₀ => exact .clearLists h₀
  | testClosed h₀ => exact .testClosed h₀
  | testEnqueued h₀ hr => exact .testEnqueued h₀ (hlike hr)
  | testFinished h₀ hr => exact .testFinished h₀ (hlike hr)
  | testTimer h₀ => exact .testTimer h₀
  | enqueued h₀ hr => exact .enqueued h₀ (hlike hr)
  | store h₀ hpre => exact .store h₀ hpre
  | canceled h₀ hpre hr => exact .canceled h₀ hpre (hstate.trans hr)
  | returned h₀ hr => exact .returned h₀ (by rw [hstate]; exact hr)

omit [DecidableEq Θ] [DecidableEq T] in
/-- `Submit` does not run tasks. -/
theorem Phase.ne_running {pre : List (Instr T V E)} {x : T}
    (hp : Phase t r₀ (.running x :: pre) r) : False := by
  cases hp with
  | canceled h₀ hpre hr => cases hpre _ List.mem_cons_self

/-! ## The result -/

/-- A step while thread `θ` is in a call of `Submit` of `t`, with `base` below it: the call has not
returned yet, and a step of another thread does not change the state of the task, its counter or its
flag. -/
structure DuringSubmit (role : Θ → Role) (θ : Θ) (t : T) (base : List (Instr T V E))
    (s s' : State Θ T V E) : Prop where
  step : ∃ l, Step role s l s'
  not_returned : s.stack θ ≠ .returned (.submit t) :: base
  undisturbed : s'.stack θ = s.stack θ →
    (s'.mem.task t).state_ = (s.mem.task t).state_ ∧
      (s'.mem.task t).dependecies_cnt_ = (s.mem.task t).dependecies_cnt_ ∧
      (s'.mem.task t).triggers_activated_ = (s.mem.task t).triggers_activated_

/-- The state of the machine during the call. -/
structure InSubmit (θ : Θ) (t : T) (base : List (Instr T V E)) (r₀ : Task Θ T V E)
    (s : State Θ T V E) : Prop where
  inv : Invariant s
  submitted : s.mem.submitted t = true
  closed : ∀ q, (s.mem.queue q).closed_ = true
  phase : ∃ pre, s.stack θ = pre ++ .returned (.submit t) :: base ∧ Phase t r₀ pre (s.mem.task t)

theorem InSubmit.step {role : Θ → Role} {θ : Θ} {base : List (Instr T V E)} {s s' : State Θ T V E}
    (h : InSubmit θ t base r₀ s) (hnot : r₀.state_.finished = false)
    (hduring : DuringSubmit role θ t base s s') : InSubmit θ t base r₀ s' := by
  obtain ⟨⟨l, hstep⟩, hrunning, hundisturbed⟩ := hduring
  obtain ⟨pre, hstack, hphase⟩ := h.phase
  have hclosed (q : Which) : (s'.mem.queue q).closed_ = true := closed_step hstep (h.closed q)
  have hinv := h.inv.step hstep
  cases hstep with
  | @exec θ' i rest c hs henabled =>
    have hgrows := exec_grows θ' c (h.inv.ok i (Lib.Config.pending_top hs))
    refine ⟨hinv, (congrFun hgrows.submitted t).trans h.submitted, hclosed, ?_⟩
    by_cases hθ : θ = θ'
    · subst hθ
      rcases pre with _ | ⟨i', pre⟩
      · exact absurd hstack hrunning
      · rw [hs, List.cons_append] at hstack
        obtain ⟨rfl, rfl⟩ := List.cons.inj hstack
        refine ⟨(exec θ s.mem c i).next ++ pre, ?_, hphase.exec h.closed hnot⟩
        rw [Lib.Config.stack_after_self, List.append_assoc]
    · have hsame : (s.after θ' rest (exec θ' s.mem c i)).stack θ = s.stack θ :=
        Lib.Config.stack_after_of_ne hθ
      obtain ⟨hstate, hcnt, hact⟩ := hundisturbed hsame
      obtain ⟨hdeps, htrigs, htime, -⟩ := (hgrows.task t).fixed h.submitted
      refine ⟨pre, hsame.trans hstack, hphase.congr hstate ?_ fun hq ↦ ?_⟩
      · simp only [Lib.Config.mem_after] at hcnt hact ⊢
        rw [Task.conditions, Task.conditions, hcnt, hdeps, htrigs, hact, htime]
      · exact ((exec_taskChange θ' s.mem c i).queue_iff t).mpr (.inl hq)
  | @call θ' call hcan hallowed =>
    have htask : (s.mem.call call).task = s.mem.task := by cases call <;> rfl
    refine ⟨hinv, ?_, hclosed, pre, ?_, ?_⟩
    · cases call with
      | submit x =>
        show Function.update s.mem.submitted x true t = true
        rw [Function.update_apply, h.submitted, ite_self]
      | _ => exact h.submitted
    · have hθ : θ ≠ θ' := by
        rintro rfl
        rcases hcan with ⟨-, hnil⟩ | ⟨x, rest, hrun⟩
        · rw [hnil] at hstack
          simp at hstack
        · rw [hrun] at hstack
          rcases pre with _ | ⟨i, pre⟩
          · cases (List.cons.inj hstack).1
          · obtain ⟨rfl, -⟩ := List.cons.inj hstack
            exact hphase.ne_running
      rw [Lib.Config.stack_after_of_ne hθ]
      exact hstack
    · show Phase t r₀ pre ((s.mem.call call).task t)
      rw [htask]
      exact hphase
  | tick d => exact ⟨hinv, h.submitted, hclosed, pre, hstack, hphase⟩

/-- **Submission after shutdown.**  `StartShutdown` has returned, the task is not finished and
`Submit` of it is called.  When the call returns, and no other thread has touched the task
meanwhile, the task is `Canceled` if and only if it was ready or had a start time, or was
`Submitted` before with a start time. -/
theorem canceled_after_shutdown_iff [Inhabited V] {role : Θ → Role} {θ : Θ} {s₀ s : State Θ T V E}
    {h : List (State Θ T V E × Label T)} (hrun : Lib.Trace (Step role) (init role) h s₀)
    (hshut : ∃ x ∈ h, x.2 = .returned .startShutdown) (hnot : ¬ s₀.mem.Finished t)
    (hallowed : Allowed s₀ (.submit t))
    (hsubmit : Relation.ReflTransGen (DuringSubmit role θ t (s₀.stack θ))
      (s₀.after θ (s₀.stack θ) ⟨true, s₀.mem.call (.submit t),
        Call.code (.submit t) ++ [.returned (.submit t)], Label.called (.submit t)⟩) s)
    (hreturn : s.stack θ = .returned (.submit t) :: s₀.stack θ) :
    (s.mem.task t).state_ = .Canceled ↔ (s₀.mem.task t).cancels := by
  have hunfinished : (s₀.mem.task t).state_.finished = false := Bool.eq_false_of_not_eq_true hnot
  have hin : InSubmit θ t (s₀.stack θ) (s₀.mem.task t) s := by
    refine Lib.invariant_of_step hsubmit ⟨(invariant_of_trace hrun).call hallowed, ?_, ?_, ?_⟩
      fun _ _ hin hduring ↦ hin.step hunfinished hduring
    · exact Function.update_self _ _ _
    · exact fun q ↦ closed_of_returned hrun hshut q
    · exact ⟨[.setQueue t], Lib.Config.stack_after_self, .setQueue ⟨rfl, rfl⟩⟩
  obtain ⟨pre, hstack, hphase⟩ := hin.phase
  have hpre : pre = [] := List.append_left_eq_self.mp (hstack.symm.trans hreturn)
  subst hpre
  cases hphase with
  | canceled h₀ hpre hr => exact ⟨fun _ ↦ h₀, fun _ ↦ hr⟩
  | returned h₀ hr => exact ⟨fun hc ↦ absurd hc hr, fun hc ↦ absurd hc h₀⟩

end

/-! ## `Submit` alone -/

/-- The own steps of the thread are steps during the call. -/
theorem duringSubmit_of_steps [Fintype Θ] {role : Θ → Role} {θ : Θ} {t : T}
    {base : List (Instr T V E)} {n : ℕ} {s s' : State Θ T V E}
    {h : List (State Θ T V E × Label T)}
    (hplay : play role (Action.steps θ n) s = some (h, s'))
    (hnot : ∀ x ∈ h, x.1.stack θ ≠ .returned (.submit t) :: base) :
    Relation.ReflTransGen (DuringSubmit role θ t base) s s' := by
  induction n generalizing s h with
  | zero =>
    obtain ⟨-, rfl⟩ := Prod.mk.inj (Option.some.inj hplay)
    exact .refl
  | succ n ih =>
    obtain ⟨⟨l, s₁⟩, hact, hrest⟩ := Option.bind_eq_some_iff.mp hplay
    obtain ⟨⟨h', s₂⟩, hplay', heq⟩ := Option.map_eq_some_iff.mp hrest
    obtain ⟨rfl, rfl⟩ := Prod.mk.inj heq
    refine .head ⟨⟨l, step_of_act hact⟩, hnot _ List.mem_cons_self, fun hstack ↦ ?_⟩
      (ih hplay' fun x hx ↦ hnot x (List.mem_cons_of_mem _ hx))
    -- the stack of the thread has changed
    dsimp only [act] at hact
    split at hact
    · cases hact
    · rename_i i rest hs
      split at hact
      · obtain ⟨-, rfl⟩ := Prod.mk.inj (Option.some.inj hact)
        rw [Lib.Config.stack_after_self, hs] at hstack
        have hnext : _ ++ rest = [i] ++ rest := hstack
        exact absurd (List.append_cancel_right hnext) (exec_flow θ s.mem _ i).next_ne
      · cases hact

/-- A user calls `StartShutdown`, does `as`, and then submits the task; `n` steps later the call
returns. -/
theorem exists_submit_after_shutdown (as : List (Action (Fin 2) (Fin 2) Unit Unit)) (t : Fin 2)
    (n : ℕ) (p : State (Fin 2) (Fin 2) Unit Unit → State (Fin 2) (Fin 2) Unit Unit → Bool)
    (hplay : (play oneWorker ([.call 0 .startShutdown] ++ Action.steps 0 11 ++ as)
      (init oneWorker)).any (fun x ↦ allowed x.2 (.submit t) &&
        (x.1.any fun y ↦ y.2 = .returned .startShutdown) &&
        (play oneWorker (Action.steps 0 n) (x.2.after 0 (x.2.stack 0)
          ⟨true, x.2.mem.call (.submit t), Call.code (.submit t) ++ [.returned (.submit t)],
            Label.called (.submit t)⟩)).any fun y ↦
          (y.1.all fun z ↦ z.1.stack 0 ≠ .returned (.submit t) :: x.2.stack 0) &&
            decide (y.2.stack 0 = .returned (.submit t) :: x.2.stack 0) && p x.2 y.2) = true) :
    ∃ h s₀ s, Lib.Trace (Step oneWorker) (init oneWorker : State (Fin 2) (Fin 2) Unit Unit) h s₀ ∧
      (∃ x ∈ h, x.2 = .returned .startShutdown) ∧ Allowed s₀ (.submit t) ∧
      Relation.ReflTransGen (DuringSubmit oneWorker 0 t (s₀.stack 0))
        (s₀.after 0 (s₀.stack 0) ⟨true, s₀.mem.call (.submit t),
          Call.code (.submit t) ++ [.returned (.submit t)], Label.called (.submit t)⟩) s ∧
      s.stack 0 = .returned (.submit t) :: s₀.stack 0 ∧ p s₀ s = true := by
  obtain ⟨⟨h, s₀⟩, hplay₀, hrest⟩ := (Option.any_eq_true _ _).mp hplay
  simp only [Bool.and_eq_true] at hrest
  obtain ⟨⟨hallowed, hshut⟩, hplay₁⟩ := hrest
  obtain ⟨⟨h₁, s⟩, hplay₁, hrest⟩ := (Option.any_eq_true _ _).mp hplay₁
  simp only [Bool.and_eq_true, List.all_eq_true, decide_eq_true_eq] at hrest
  obtain ⟨⟨hnot, hreturn⟩, hp⟩ := hrest
  simp only [List.any_eq_true, decide_eq_true_eq] at hshut
  exact ⟨h, s₀, s, trace_of_play hplay₀, hshut, allowed_sound hallowed,
    duringSubmit_of_steps hplay₁ hnot, hreturn, hp⟩

/-- A task without dependencies is canceled. -/
theorem canceled_after_shutdown_ready :
    ∃ (s₀ s : State (Fin 2) (Fin 2) Unit Unit), ¬ s₀.mem.Finished 0 ∧ (s₀.mem.task 0).cancels ∧
      (s.mem.task 0).state_ = .Canceled := by
  obtain ⟨h, s₀, s, hrun, hshut, hallowed, hsubmit, hreturn, hp⟩ :=
    exists_submit_after_shutdown [] 0 16
      (fun s₀ _ ↦ (s₀.mem.task 0).state_ = .Created ∧ (s₀.mem.task 0).isReadyToEnque = true)
      (by decide +kernel)
  obtain ⟨hcreated, hready⟩ := of_decide_eq_true hp
  have hcancels : (s₀.mem.task 0).cancels := .inl ⟨hcreated, .inl hready⟩
  have hnot : ¬ s₀.mem.Finished 0 := by
    rw [Mem.Finished, hcreated]
    exact Bool.false_ne_true
  exact ⟨s₀, s, hnot, hcancels,
    (canceled_after_shutdown_iff hrun hshut hnot hallowed hsubmit hreturn).mpr hcancels⟩

/-- A task that depends on a task that has not finished is not canceled. -/
theorem submitted_after_shutdown :
    ∃ h s₀ s, Lib.Trace (Step oneWorker) (init oneWorker : State (Fin 2) (Fin 2) Unit Unit) h s₀ ∧
      (∃ x ∈ h, x.2 = .returned .startShutdown) ∧ ¬ s₀.mem.Finished 1 ∧
      Allowed s₀ (.submit 1) ∧
      Relation.ReflTransGen (DuringSubmit oneWorker 0 1 (s₀.stack 0))
        (s₀.after 0 (s₀.stack 0) ⟨true, s₀.mem.call (.submit 1),
          Call.code (.submit 1) ++ [.returned (.submit 1)], Label.called (.submit 1)⟩) s ∧
      s.stack 0 = .returned (.submit 1) :: s₀.stack 0 ∧ (s.mem.task 1).state_ = .Submitted := by
  obtain ⟨h, s₀, s, hrun, hshut, hallowed, hsubmit, hreturn, hp⟩ :=
    exists_submit_after_shutdown ([.call 0 (.addDependency 1 0)] ++ Action.steps 0 6) 1 7
      (fun s₀ s ↦ (s₀.mem.task 1).state_ = .Created ∧ (s.mem.task 1).state_ = .Submitted)
      (by decide +kernel)
  obtain ⟨hcreated, hstate⟩ := of_decide_eq_true hp
  have hnot : ¬ s₀.mem.Finished 1 := by
    rw [Mem.Finished, hcreated]
    exact Bool.false_ne_true
  exact ⟨h, s₀, s, hrun, hshut, hnot, hallowed, hsubmit, hreturn, hstate⟩

end Executor
end ManyTasks
