import ManyTasks.Executor.Flow
import ManyTasks.Executor.Invariant
import ManyTasks.Executor.Schedule

/-!
# A task is started at most once, and only when it is due

`Submit`, the last dependency, any trigger and the timer may all try to enqueue a task.  One of them
wins the compare-exchange, and from then on the task is in one place: in the hands of a thread, in
the queue of the workers, or started.  So what the threads hold, what is in the queue and the starts
so far add up to at most one, and to nothing before the task has been enqueued.

The sum is a weight in the sense of `Lib.Config.load`: no instruction makes more of a task than
there was (`Flow.carries_le`), other than the one that enqueues it.
-/

set_option autoImplicit false

namespace ManyTasks
namespace Executor

variable {Θ T V E : Type} [DecidableEq T]

/-! ## Holding a task -/

/-- Does the thread have the task in its hands, on the way to the queue of the workers or from it to
`Run`? -/
def Instr.carries (t : T) : Instr T V E → ℕ
  | .testClosed .tasks x | .lockPush .tasks x | .emplace .tasks x => if x = t then 1 else 0
  | .testCanceled x | .run x => if x = t then 1 else 0
  | _ => 0

/-- Is the thread in `Run`, or about to assign what came of it? -/
def Instr.runs (t : T) : Instr T V E → ℕ
  | .running x | .setError x _ | .store x .Completed | .store x .Failed => if x = t then 1 else 0
  | _ => 0

variable {m : Mem Θ T V E} {i : Instr T V E} {next : List (Instr T V E)}

theorem Leads.carries_le (h : Leads m i next) (t : T) :
    (next.map (Instr.carries t)).sum ≤ i.carries t := by
  cases h with
  | cancelAll q ts => simp [Instr.carries, Function.comp_def]
  | lockClose q j hj => rcases hj with rfl | rfl <;> simp [Instr.carries]
  | testClosed q x => cases q <;> simp [Instr.carries]
  | lockPush q x => cases q <;> simp [Instr.carries]
  | _ => simp [Instr.carries]

theorem Leads.runs_le (h : Leads m i next) (t : T) :
    (next.map (Instr.runs t)).sum ≤ i.runs t := by
  cases h with
  | cancelAll q ts => simp [Instr.runs, Function.comp_def]
  | lockClose q j hj => rcases hj with rfl | rfl <;> simp [Instr.runs]
  | _ => simp [Instr.runs]

variable {l : Label T} {tasks : List T}

/-- Only the compare-exchange of `Enque` makes a task anew. -/
theorem Flow.carries_le (h : Flow m i next l tasks) (t : T) :
    (next.map (Instr.carries t)).sum + (tasks.count t + if l = .started t then 1 else 0) ≤
      i.carries t + ((m.queue .tasks).queue_.count t + if l = .enqueued t then 1 else 0) := by
  cases h with
  | quiet h =>
    have hle := h.carries_le t
    simp only [reduceCtorEq, if_false]
    omega
  | popTasks x ts h =>
    simp only [Instr.carries, h, List.count_cons, List.map_cons, List.map_nil, List.sum_cons,
      List.sum_nil, beq_iff_eq, reduceCtorEq, if_false]
    omega
  | emplaceTasks x =>
    simp only [Instr.carries, List.count_append, List.count_singleton, List.map_nil, List.sum_nil,
      beq_iff_eq, reduceCtorEq, if_false]
    omega
  | run x =>
    simp only [Instr.carries, List.map_cons, List.map_nil, List.sum_cons, List.sum_nil,
      Label.started.injEq, reduceCtorEq, if_false]
    omega
  | casEnqueued by_ x =>
    simp only [Instr.carries, List.map_cons, List.map_nil, List.sum_cons, List.sum_nil,
      Label.enqueued.injEq, reduceCtorEq, if_false]
    omega
  | _ => simp [Instr.carries]

/-- Only its start makes a task run. -/
theorem Flow.runs_le (h : Flow m i next l tasks) (t : T) :
    (next.map (Instr.runs t)).sum ≤ i.runs t + if l = .started t then 1 else 0 := by
  cases h with
  | quiet h => exact Nat.le_add_right_of_le (h.runs_le t)
  | _ => simp [Instr.runs]

omit [DecidableEq T] in
/-- Only the compare-exchange of `Enque` enqueues. -/
theorem Flow.enqueued (h : Flow m i next l tasks) {t : T} (hl : l = .enqueued t) :
    (∃ by_, i = .casEnqueued by_ t) ∧ (m.task t).state_ = .Submitted := by
  cases h with
  | casEnqueued by_ x hstate =>
    obtain rfl := Label.enqueued.inj hl
    exact ⟨⟨by_, rfl⟩, hstate⟩
  | _ => cases hl

omit [DecidableEq T] in
theorem Flow.started (h : Flow m i next l tasks) {t : T} (hl : l = .started t) : i = .run t := by
  cases h with
  | run x => rw [Label.started.inj hl]
  | _ => cases hl

/-! ## Runs -/

variable [DecidableEq Θ]

/-- How often `Run` of the task has begun. -/
def starts (t : T) (h : List (State Θ T V E × Label T)) : ℕ :=
  h.countP fun x ↦ x.2 = .started t

/-- `Submit` of the task has been called. -/
def SubmitCalled (t : T) (h : List (State Θ T V E × Label T)) : Prop :=
  ∃ x ∈ h, x.2 = .called (.submit t)

/-- After `Submit` had been called, the state of the task went from `Submitted` to `Enqueued`, and
the task was due. -/
def EnqueuedWhenDue (t : T) (h : List (State Θ T V E × Label T)) : Prop :=
  ∃ h₁ s₁ h₂, h = h₁ ++ (s₁, .enqueued t) :: h₂ ∧ SubmitCalled t h₁ ∧
    (s₁.mem.task t).state_ = .Submitted ∧ s₁.mem.Due t

omit [DecidableEq T] [DecidableEq Θ] in
theorem EnqueuedWhenDue.append {t : T} {h : List (State Θ T V E × Label T)}
    (hdue : EnqueuedWhenDue t h) (h' : List (State Θ T V E × Label T)) :
    EnqueuedWhenDue t (h ++ h') := by
  obtain ⟨h₁, s₁, h₂, rfl, hcalled⟩ := hdue
  exact ⟨h₁, s₁, h₂ ++ h', by rw [List.append_assoc, List.cons_append], hcalled⟩

omit [DecidableEq T] [DecidableEq Θ] in
theorem SubmitCalled.append {t : T} {h : List (State Θ T V E × Label T)}
    (hcalled : SubmitCalled t h) (h' : List (State Θ T V E × Label T)) :
    SubmitCalled t (h ++ h') := by
  obtain ⟨x, hx, hl⟩ := hcalled
  exact ⟨x, List.mem_append_left _ hx, hl⟩

omit [DecidableEq Θ] in
theorem starts_snoc (t : T) (h : List (State Θ T V E × Label T)) (s : State Θ T V E) (l : Label T) :
    starts t (h ++ [(s, l)]) = starts t h + if l = .started t then 1 else 0 := by
  rw [starts, List.countP_append, List.countP_singleton]
  simp [starts]

/-- Where the tasks are after the run `h`. -/
structure Placed (h : List (State Θ T V E × Label T)) (s : State Θ T V E) : Prop where
  inv : Invariant s
  called : ∀ t, s.mem.submitted t = true → SubmitCalled t h
  once : ∀ t F, s.load (Instr.carries t) F +
    ((s.mem.queue .tasks).queue_.count t + starts t h) ≤ 1
  nowhere : ∀ t, s.mem.Waiting t ∨ ¬ EnqueuedWhenDue t h → ∀ F,
    s.load (Instr.carries t) F + ((s.mem.queue .tasks).queue_.count t + starts t h) ≤ 0

theorem placed_init [Inhabited V] (role : Θ → Role) :
    Placed [] (init role : State Θ T V E) := by
  have hload (t : T) (F : Finset Θ) :
      (init role : State Θ T V E).load (Instr.carries t) F = 0 := by
    refine Finset.sum_eq_zero fun θ _ ↦ ?_
    dsimp only [init]
    cases role θ <;> rfl
  refine ⟨invariant_init role, (fun _ h ↦ nomatch h), fun t F ↦ ?_, fun t _ F ↦ ?_⟩
  all_goals
    rw [hload]
    exact Nat.zero_le _

section

variable {s : State Θ T V E} {h : List (State Θ T V E × Label T)} {θ : Θ}
  {rest : List (Instr T V E)} {c : Choice Θ T V E}

/-- What has just been enqueued is `Enqueued`. -/
theorem state_of_enqueued {m : Mem Θ T V E} {t : T}
    (hl : (exec θ m c i).label = .enqueued t) :
    ((exec θ m c i).mem.task t).state_ = .Enqueued := by
  obtain ⟨⟨by_, rfl⟩, hstate⟩ := (exec_flow θ m c i).enqueued hl
  simp only [exec, if_pos hstate, Mem.task_onTask_self]

theorem Placed.exec (hp : Placed h s) (hs : s.stack θ = i :: rest) :
    Placed (h ++ [(s, (exec θ s.mem c i).label)]) (s.after θ rest (exec θ s.mem c i)) := by
  have hflow := exec_flow θ s.mem c i
  have hok := hp.inv.ok i (Lib.Config.pending_top hs)
  have hgrows := exec_grows θ c hok
  refine ⟨hp.inv.exec hs, fun t ht ↦ ?_, fun t F ↦ ?_, fun t ht F ↦ ?_⟩
  · exact (hp.called t (by rw [← hgrows.submitted]; exact ht)).append _
  · have hle := hflow.carries_le t
    rw [starts_snoc]
    by_cases hl : (Executor.exec θ s.mem c i).label = .enqueued t
    · -- it was nowhere before
      have hnowhere := hp.nowhere t (.inl (.inr (hflow.enqueued hl).2))
      rw [if_pos hl] at hle
      refine Lib.Config.load_after_le (n := (s.mem.queue .tasks).queue_.count t + starts t h + 1) _
        hs (fun F ↦ Nat.succ_le_succ (hnowhere F)) ?_ F
      show _ + (((Executor.exec θ s.mem c i).mem.queue .tasks).queue_.count t + _) ≤ _
      omega
    · rw [if_neg hl] at hle
      refine Lib.Config.load_after_le _ hs (hp.once t) ?_ F
      show _ + (((Executor.exec θ s.mem c i).mem.queue .tasks).queue_.count t + _) ≤ _
      omega
  · have hl : (Executor.exec θ s.mem c i).label ≠ .enqueued t := by
      intro hl
      rcases ht with hwait | hnot
      · rcases hwait with hc | hc <;> exact nomatch hc.symm.trans (state_of_enqueued hl)
      · obtain ⟨⟨by_, rfl⟩, hstate⟩ := hflow.enqueued hl
        exact hnot ⟨h, s, [], by rw [hl], hp.called t (hp.inv.submitted t hstate), hstate,
          hok.2 hstate⟩
    have hbefore : s.mem.Waiting t ∨ ¬ EnqueuedWhenDue t h :=
      ht.imp hgrows.waiting fun hnot hdue ↦ hnot (hdue.append _)
    have hle := hflow.carries_le t
    rw [if_neg hl] at hle
    rw [starts_snoc]
    refine Lib.Config.load_after_le _ hs (hp.nowhere t hbefore) ?_ F
    show _ + (((Executor.exec θ s.mem c i).mem.queue .tasks).queue_.count t + _) ≤ _
    omega

omit [DecidableEq Θ] in
theorem Call.carries_code (call : Call T) (t : T) :
    ((call.code ++ [.returned call] : List (Instr T V E)).map (Instr.carries t)).sum = 0 := by
  cases call <;> rfl

theorem Placed.call (hp : Placed h s) {call : Call T} (hallowed : Allowed s call) :
    Placed (h ++ [(s, .called call)]) (s.after θ (s.stack θ)
      ⟨true, s.mem.call call, call.code ++ [.returned call], Label.called call⟩) := by
  have hqueue : (s.mem.call call).queue = s.mem.queue := by cases call <;> rfl
  have htask : (s.mem.call call).task = s.mem.task := by cases call <;> rfl
  refine ⟨hp.inv.call hallowed, fun t ht ↦ ?_, fun t F ↦ ?_, fun t ht F ↦ ?_⟩
  · by_cases hold : s.mem.submitted t = true
    · exact (hp.called t hold).append _
    · refine ⟨(s, .called call), List.mem_append_right _ List.mem_cons_self, ?_⟩
      cases call with
      | submit x =>
        rw [show t = x from by_contra fun hne ↦ hold
          ((Function.update_of_ne hne _ _).symm.trans ht)]
      | _ => exact absurd ht hold
  · rw [starts_snoc]
    show _ + (((s.mem.call call).queue .tasks).queue_.count t + _) ≤ _
    rw [hqueue]
    exact Lib.Config.load_push_le _ (hp.once t) (call.carries_code t) F
  · have hbefore : s.mem.Waiting t ∨ ¬ EnqueuedWhenDue t h := by
      refine ht.imp (fun hwait ↦ ?_) fun hnot hdue ↦ hnot (hdue.append _)
      rw [Mem.Waiting, Lib.Config.after, htask] at hwait
      exact hwait
    rw [starts_snoc]
    show _ + (((s.mem.call call).queue .tasks).queue_.count t + _) ≤ _
    rw [hqueue]
    exact Lib.Config.load_push_le _ (hp.nowhere t hbefore) (call.carries_code t) F

omit [DecidableEq Θ] in
theorem Placed.tick (hp : Placed h s) (d : ℕ) :
    Placed (h ++ [(s, .none)]) { s with mem := { s.mem with now := s.mem.now + d } } := by
  refine ⟨hp.inv.tick d, fun t ht ↦ (hp.called t ht).append _, fun t F ↦ ?_, fun t ht F ↦ ?_⟩
  · rw [starts_snoc]
    exact hp.once t F
  · rw [starts_snoc]
    exact hp.nowhere t (ht.imp_right fun hnot hdue ↦ hnot (hdue.append _)) F

theorem Placed.step (hp : Placed h s) {role : Θ → Role} {s' : State Θ T V E}
    (hstep : Step role s l s') : Placed (h ++ [(s, l)]) s' := by
  cases hstep with
  | exec c hs henabled => exact hp.exec hs
  | call c hcan hallowed => exact hp.call hallowed
  | tick d => exact hp.tick d

theorem placed_of_trace [Inhabited V] {role : Θ → Role}
    (hrun : Lib.Trace (Step role) (init role) h s) : Placed h s :=
  hrun.invariant (placed_init role) fun _ _ _ _ hp hstep ↦ hp.step hstep

/-- Only what a worker is about to run is started. -/
theorem Step.pending_of_started {role : Θ → Role} {s' : State Θ T V E} {t : T}
    (hstep : Step role s (.started t) s') : s.Pending (.run t) := by
  generalize hl : Label.started t = l at hstep
  cases hstep with
  | @exec θ i rest c hs henabled =>
    rw [← (exec_flow θ s.mem c i).started hl.symm]
    exact Lib.Config.pending_top hs
  | call c hcan hallowed => cases hl
  | tick d => cases hl

/-- **Exactly once, and only when due.**  In every run, `Run` of a task begins at most once, and
only after `Submit` of the task has been called and the task has been enqueued when it was due: all
of its dependencies had finished, or one of its triggers had, or its start time had come, or it has
none of the three. -/
theorem started_once_when_due [Inhabited V] {role : Θ → Role}
    (hrun : Lib.Trace (Step role) (init role) h s) (t : T) :
    starts t h ≤ 1 ∧
      ∀ h₁ s₁ h₂, h = h₁ ++ (s₁, .started t) :: h₂ → EnqueuedWhenDue t h₁ := by
  refine ⟨?_, ?_⟩
  · have hle := (placed_of_trace hrun).once t ∅
    omega
  · rintro h₁ s₁ h₂ rfl
    obtain ⟨hbefore, s₂, hstep, -⟩ := hrun.split
    obtain ⟨θ, hpend⟩ := hstep.pending_of_started
    by_contra hnot
    have hzero := (placed_of_trace hbefore).nowhere t (.inr hnot) {θ}
    have hone := Lib.Config.le_load (Instr.carries t) hpend
    rw [Instr.carries, if_pos rfl] at hone
    omega

end

/-- A user makes task `1` depend on task `0`, submits it and cancels task `0`, which starts it. -/
theorem started_once_when_due_dependency :
    ∃ h s, Lib.Trace (Step oneWorker) (init oneWorker : State (Fin 2) (Fin 2) Unit Unit) h s ∧
      starts 1 h = 1 ∧
      ∀ h₁ s₁ h₂, h = h₁ ++ (s₁, .started 1) :: h₂ → EnqueuedWhenDue 1 h₁ := by
  obtain ⟨h, s, hrun, hstarts⟩ := exists_trace_of_play oneWorker
    (init oneWorker : State (Fin 2) (Fin 2) Unit Unit)
    ([.call 0 (.addDependency 1 0)] ++ Action.steps 0 6 ++ [.call 0 (.submit 1)] ++
      Action.steps 0 8 ++ [.call 0 (.cancel 0)] ++ Action.steps 0 15 ++ Action.steps 1 5)
    (fun x ↦ starts 1 x.1 == 1) (by decide +kernel)
  exact ⟨h, s, hrun, by simpa using hstarts, (started_once_when_due hrun 1).2⟩

end Executor
end ManyTasks
