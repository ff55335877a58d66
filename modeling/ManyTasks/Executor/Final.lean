import ManyTasks.Executor.Start

/-!
# Finished states

`Complete`, `Fail` and `Cancel` assign the state of a task without looking at it.  So a finished
state is final only as long as no task is canceled at the wrong moment, after a worker has tested
`IsCanceled`.  Here it is shown that there is no other way to change a finished state
(`finished_is_final`), and that this one does (`finished_not_final`).

It rests on that a task is in one place from when it is enqueued until what came of it is assigned
(`Single`).
-/

set_option autoImplicit false

namespace ManyTasks
namespace Executor

variable {Θ T V E : Type} [DecidableEq T]

/-! ## One worker at a time -/

/-- Does the thread have the task in its hands, from `Enque` to the assignment of what came of
it? -/
def Instr.has (t : T) (i : Instr T V E) : ℕ := i.carries t + i.runs t

/-- The state was assigned by a worker. -/
def Mem.Done (m : Mem Θ T V E) (t : T) : Prop :=
  (m.task t).state_ = .Completed ∨ (m.task t).state_ = .Failed

theorem Flow.has_le {m : Mem Θ T V E} {i : Instr T V E} {next : List (Instr T V E)} {l : Label T}
    {tasks : List T} (h : Flow m i next l tasks) (t : T) :
    (next.map (Instr.has t)).sum + tasks.count t ≤
      i.has t + ((m.queue .tasks).queue_.count t + if l = .enqueued t then 1 else 0) := by
  have hsum : (next.map (Instr.has t)).sum =
      (next.map (Instr.carries t)).sum + (next.map (Instr.runs t)).sum := List.sum_map_add
  have hcarries := h.carries_le t
  have hruns := h.runs_le t
  rw [hsum, Instr.has]
  omega

variable [DecidableEq Θ]

/-- A task is in at most one place, and in none before it is enqueued and when what came of it has
been assigned. -/
structure Single (s : State Θ T V E) : Prop where
  inv : Invariant s
  one : ∀ t F, s.load (Instr.has t) F + (s.mem.queue .tasks).queue_.count t ≤ 1
  none : ∀ t, s.mem.Waiting t ∨ s.mem.Done t → ∀ F,
    s.load (Instr.has t) F + (s.mem.queue .tasks).queue_.count t ≤ 0

theorem single_init [Inhabited V] (role : Θ → Role) : Single (init role : State Θ T V E) := by
  have hload (t : T) (F : Finset Θ) : (init role : State Θ T V E).load (Instr.has t) F = 0 := by
    refine Finset.sum_eq_zero fun θ _ ↦ ?_
    dsimp only [init]
    cases role θ <;> rfl
  refine ⟨invariant_init role, fun t F ↦ ?_, fun t _ F ↦ ?_⟩
  all_goals
    rw [hload]
    exact Nat.zero_le _

section

variable {s : State Θ T V E} {θ : Θ} {i : Instr T V E} {rest : List (Instr T V E)}
  {c : Choice Θ T V E}

theorem Single.exec (h : Single s) (hs : s.stack θ = i :: rest) :
    Single (s.after θ rest (exec θ s.mem c i)) := by
  have hflow := exec_flow θ s.mem c i
  have hok := h.inv.ok i (Lib.Config.pending_top hs)
  have hgrows := exec_grows θ c hok
  have hone (t : T) (F : Finset Θ) : (s.after θ rest (Executor.exec θ s.mem c i)).load
      (Instr.has t) F + ((Executor.exec θ s.mem c i).mem.queue .tasks).queue_.count t ≤ 1 := by
    have hle := hflow.has_le t
    by_cases hl : (Executor.exec θ s.mem c i).label = .enqueued t
    · have hnone := h.none t (.inl (.inr (hflow.enqueued hl).2))
      rw [if_pos hl] at hle
      exact Lib.Config.load_after_le (n := (s.mem.queue .tasks).queue_.count t + 1) _ hs
        (fun F ↦ Nat.succ_le_succ (hnone F)) hle F
    · rw [if_neg hl] at hle
      exact Lib.Config.load_after_le _ hs (h.one t) hle F
  refine ⟨h.inv.exec hs, hone, fun t ht F ↦ ?_⟩
  have hl : (Executor.exec θ s.mem c i).label ≠ .enqueued t := by
    intro hl
    rcases ht with (hc | hc) | hc | hc <;> exact nomatch hc.symm.trans (state_of_enqueued hl)
  have hle := hflow.has_le t
  rw [if_neg hl] at hle
  rcases (exec_taskChange θ s.mem c i).state_eq t with
    heq | ⟨rfl, hc, -⟩ | ⟨by_, -, -, heq⟩ | ⟨state, rfl, heq⟩
  · have hbefore : s.mem.Waiting t ∨ s.mem.Done t := by
      rw [Mem.Waiting, Mem.Done, ← heq]
      exact ht
    exact Lib.Config.load_after_le _ hs (h.none t hbefore) hle F
  · exact Lib.Config.load_after_le _ hs (h.none t (.inl (.inl hc))) hle F
  · rcases ht with (hc | hc) | hc | hc <;> exact nomatch hc.symm.trans heq
  · -- the thread that assigns the state had the task in its hands
    have hdone : state = .Completed ∨ state = .Failed := by
      rcases ht with hwait | hdone
      · have hfin : state.finished = true := hok
        rcases hwait with hc | hc <;> rw [heq.symm.trans hc] at hfin <;> cases hfin
      · exact hdone.imp heq.symm.trans heq.symm.trans
    have hhas : (Instr.store t state : Instr T V E).has t = 1 := by
      rcases hdone with rfl | rfl <;> simp [Instr.has, Instr.carries, Instr.runs]
    have hnext : ((Executor.exec θ s.mem c (.store t state)).next.map (Instr.has t)).sum = 0 := rfl
    have hle : (s.after θ rest (Executor.exec θ s.mem c (.store t state))).load (Instr.has t) F +
        ((s.mem.queue .tasks).queue_.count t + 1) ≤ 1 :=
      Lib.Config.load_after_le _ hs (h.one t) (by omega) F
    exact Nat.le_of_succ_le_succ hle

omit [DecidableEq Θ] in
theorem Call.has_code (call : Call T) (t : T) :
    ((call.code ++ [.returned call] : List (Instr T V E)).map (Instr.has t)).sum = 0 := by
  cases call <;> rfl

theorem Single.step (h : Single s) {role : Θ → Role} {l : Label T} {s' : State Θ T V E}
    (hstep : Step role s l s') : Single s' := by
  cases hstep with
  | exec c hs henabled => exact h.exec hs
  | @call θ c hcan hallowed =>
    have hqueue : (s.mem.call c).queue = s.mem.queue := by cases c <;> rfl
    have htask : (s.mem.call c).task = s.mem.task := by cases c <;> rfl
    refine ⟨h.inv.call hallowed, fun t F ↦ ?_, fun t ht F ↦ ?_⟩
    · show _ + ((s.mem.call c).queue .tasks).queue_.count t ≤ _
      rw [hqueue]
      exact Lib.Config.load_push_le _ (h.one t) (c.has_code t) F
    · have hbefore : s.mem.Waiting t ∨ s.mem.Done t := by
        rw [Mem.Waiting, Mem.Done, Lib.Config.after, htask] at ht
        exact ht
      show _ + ((s.mem.call c).queue .tasks).queue_.count t ≤ _
      rw [hqueue]
      exact Lib.Config.load_push_le _ (h.none t hbefore) (c.has_code t) F
  | tick d => exact ⟨h.inv.tick d, h.one, h.none⟩

omit [DecidableEq Θ] in
theorem Single.has_eq_zero [DecidableEq Θ] (h : Single s) {t : T}
    (ht : s.mem.Waiting t ∨ s.mem.Done t) (hi : s.Pending i) : i.has t = 0 := by
  obtain ⟨θ, hi⟩ := hi
  have hle := Lib.Config.le_load (Instr.has t) hi
  have hzero := h.none t ht {θ}
  omega

/-! ## Finished states -/

/-- What `Get` of a `Future` comes to: a value or an exception, or nothing while it waits. -/
def Task.get [Inhabited V] (r : Task Θ T V E) : Option (Except (Option E) V) :=
  match r.state_ with
  | .Completed => some (.ok r.result_)
  | .Failed => some (.error r.exc_ptr_)
  | .Canceled => some (.ok default)
  | _ => none

instance (m : Mem Θ T V E) (t : T) : Decidable (m.Done t) :=
  inferInstanceAs (Decidable (_ ∨ _))

instance (m : Mem Θ T V E) (t : T) : Decidable (m.Finished t) :=
  inferInstanceAs (Decidable (_ = true))

/-- A worker has found the task not canceled, and has not yet assigned what came of it. -/
def Taken (s : State Θ T V E) (t : T) : Prop :=
  ∃ i, s.Pending i ∧ (i = .run t ∨ 0 < i.runs t)

/-- If the step cancels this task, it does so before a worker takes it. -/
def InTime (s : State Θ T V E) (l : Label T) (t : T) : Prop :=
  l = .stored t .Canceled → ¬ s.mem.Done t ∧ ¬ Taken s t

/-- If the step cancels a task, it does so before a worker takes it. -/
def CanceledInTime (s : State Θ T V E) (l : Label T) : Prop :=
  ∀ t, l = .stored t .Canceled → ¬ s.mem.Done t ∧ ¬ Taken s t

instance [Fintype Θ] [DecidableEq V] [DecidableEq E] (s : State Θ T V E) (t : T) :
    Decidable (Taken s t) :=
  decidable_of_iff (∃ θ, ∃ i ∈ s.stack θ, i = .run t ∨ 0 < i.runs t)
    ⟨fun ⟨θ, i, hi, h⟩ ↦ ⟨i, ⟨θ, hi⟩, h⟩, fun ⟨i, ⟨θ, hi⟩, h⟩ ↦ ⟨θ, i, hi, h⟩⟩

instance [Fintype Θ] [DecidableEq V] [DecidableEq E] (s : State Θ T V E) (l : Label T) (t : T) :
    Decidable (InTime s l t) :=
  inferInstanceAs (Decidable (l = .stored t .Canceled → ¬ s.mem.Done t ∧ ¬ Taken s t))

instance [Fintype Θ] [Fintype T] [DecidableEq V] [DecidableEq E] (s : State Θ T V E) (l : Label T) :
    Decidable (CanceledInTime s l) :=
  inferInstanceAs (Decidable (∀ t, l = .stored t .Canceled → ¬ s.mem.Done t ∧ ¬ Taken s t))

omit [DecidableEq Θ] in
/-- A worker runs only what it has taken. -/
theorem Flow.taken_of_mem {m : Mem Θ T V E} {next : List (Instr T V E)} {l : Label T}
    {tasks : List T} (h : Flow m i next l tasks) {t : T} {j : Instr T V E} (hj : j ∈ next)
    (hruns : 0 < j.runs t) : i = .run t ∨ 0 < i.runs t := by
  have hle := h.runs_le t
  have hone : j.runs t ≤ (next.map (Instr.runs t)).sum :=
    List.single_le_sum (fun _ _ ↦ Nat.zero_le _) _ (List.mem_map_of_mem hj)
  by_cases hl : l = .started t
  · exact .inl (h.started hl)
  · rw [if_neg hl] at hle
    exact .inr (by omega)

omit [DecidableEq Θ] in
theorem Instr.has_pos_of_taken {t : T} (h : i = .run t ∨ 0 < i.runs t) : 0 < i.has t := by
  rcases h with rfl | h
  · simp [Instr.has, Instr.carries]
  · exact Nat.lt_of_lt_of_le h (Nat.le_add_left _ _)

/-- What a worker has taken is `Enqueued`, in runs that cancel in time. -/
def TakenEnqueued (s : State Θ T V E) : Prop :=
  ∀ t, Taken s t → (s.mem.task t).state_ = .Enqueued

/-- For one task it is enough that this task is canceled in time. -/
theorem state_of_taken_exec (h : Single s) {t : T}
    (htaken : Taken s t → (s.mem.task t).state_ = .Enqueued) (hs : s.stack θ = i :: rest)
    (hcond : InTime s (exec θ s.mem c i).label t)
    (ht : Taken (s.after θ rest (exec θ s.mem c i)) t) :
    ((s.after θ rest (exec θ s.mem c i)).mem.task t).state_ = .Enqueued := by
  obtain ⟨j, hj, hrun⟩ := ht
  show ((Executor.exec θ s.mem c i).mem.task t).state_ = .Enqueued
  have hok := h.inv.ok i (Lib.Config.pending_top hs)
  -- the state stays if the instruction does not assign it
  have keep (hold : (s.mem.task t).state_ = .Enqueued) (hne : ∀ state, i ≠ .store t state) :
      ((Executor.exec θ s.mem c i).mem.task t).state_ = .Enqueued := by
    rcases (exec_taskChange θ s.mem c i).state_eq t with
      heq | ⟨-, hc, -⟩ | ⟨by_, -, hc, -⟩ | ⟨state, heq, -⟩
    · exact heq.trans hold
    · exact nomatch hc.symm.trans hold
    · exact nomatch hc.symm.trans hold
    · exact absurd heq (hne state)
  rcases Lib.Config.pending_after hs hj with hnext | hpend
  · have hne (state : TaskStates) : i ≠ .store t state := by
      rintro rfl
      rw [List.mem_singleton.mp hnext] at hrun
      rcases hrun with hrun | hrun <;> cases hrun
    refine keep ?_ hne
    rcases hrun with rfl | hruns
    · -- the worker has just found it not canceled
      obtain ⟨rfl, hcanceled⟩ := (exec_flow θ s.mem c i).of_mem_run hnext
      have hhas : (Instr.testCanceled t : Instr T V E).has t ≠ 0 := by
        simp [Instr.has, Instr.carries]
      have hplace : ¬ (s.mem.Waiting t ∨ s.mem.Done t) :=
        fun hw ↦ hhas (h.has_eq_zero hw (Lib.Config.pending_top hs))
      simp only [Mem.Waiting, Mem.Done, not_or] at hplace
      cases hstate : (s.mem.task t).state_ <;> simp_all
    · exact htaken ⟨i, Lib.Config.pending_top hs,
        (exec_flow θ s.mem c i).taken_of_mem hnext hruns⟩
  · have hold := htaken ⟨j, hpend, hrun⟩
    refine keep hold ?_
    rintro state rfl
    have hfin : state.finished = true := hok
    have hstate : ((Executor.exec θ s.mem c (.store t state)).mem.task t).state_ = state := by
      dsimp only [Executor.exec]
      rw [Mem.task_onTask_self]
    -- only the worker that has the task could assign `Completed` or `Failed`
    have hdone (hd : (Executor.exec θ s.mem c (.store t state)).mem.Done t) : False := by
      have hzero := (h.exec hs).has_eq_zero (.inr hd) hj
      have hpos := Instr.has_pos_of_taken hrun
      omega
    cases state with
    | Completed => exact hdone (.inl hstate)
    | Failed => exact hdone (.inr hstate)
    | Canceled => exact (hcond rfl).2 ⟨j, hpend, hrun⟩
    | _ => cases hfin

theorem state_of_taken_step (h : Single s) {t : T}
    (htaken : Taken s t → (s.mem.task t).state_ = .Enqueued) {role : Θ → Role} {l : Label T}
    {s' : State Θ T V E} (hstep : Step role s l s') (hcond : InTime s l t) (ht : Taken s' t) :
    (s'.mem.task t).state_ = .Enqueued := by
  cases hstep with
  | exec c hs henabled => exact state_of_taken_exec h htaken hs hcond ht
  | call call hcan hallowed =>
    obtain ⟨j, hj, hrun⟩ := ht
    have hold : (s.mem.task t).state_ = .Enqueued := by
      rcases Lib.Config.pending_push.mp hj with hcode | hj
      · have hle : j.has t ≤ _ := List.single_le_sum (fun _ _ ↦ Nat.zero_le _) _
          (List.mem_map_of_mem (f := Instr.has t) hcode)
        have hpos := Instr.has_pos_of_taken hrun
        rw [call.has_code t] at hle
        omega
      · exact htaken ⟨j, hj, hrun⟩
    cases call <;> exact hold
  | tick d => exact htaken ht

theorem takenEnqueued_step (h : Single s) (htaken : TakenEnqueued s) {role : Θ → Role} {l : Label T}
    {s' : State Θ T V E} (hstep : Step role s l s') (hcond : CanceledInTime s l) :
    TakenEnqueued s' := fun t ↦ state_of_taken_step h (htaken t) hstep (hcond t)

/-- What is finished does not change in a step that cancels it in time. -/
theorem finished_step (h : Single s) {t : T}
    (htaken : Taken s t → (s.mem.task t).state_ = .Enqueued) {role : Θ → Role} {l : Label T}
    {s' : State Θ T V E} (hstep : Step role s l s') (hcond : InTime s l t)
    (hfin : s.mem.Finished t) :
    (s'.mem.task t).state_ = (s.mem.task t).state_ ∧
      (s'.mem.task t).result_ = (s.mem.task t).result_ ∧
      (s'.mem.task t).exc_ptr_ = (s.mem.task t).exc_ptr_ := by
  cases hstep with
  | @exec θ i rest c hs henabled =>
    have htop := Lib.Config.pending_top hs
    have hnot (htake : i = .run t ∨ 0 < i.runs t) : False := by
      rw [Mem.Finished, htaken ⟨i, htop, htake⟩] at hfin
      cases hfin
    have hresult := (exec_taskChange θ s.mem c i).result_eq t
    refine ⟨?_, ?_⟩
    · show ((exec θ s.mem c i).mem.task t).state_ = _
      rcases (exec_taskChange θ s.mem c i).state_eq t with
        heq | ⟨-, hc, -⟩ | ⟨by_, -, hc, -⟩ | ⟨state, rfl, heq⟩
      · exact heq
      · rw [Mem.Finished, hc] at hfin
        cases hfin
      · rw [Mem.Finished, hc] at hfin
        cases hfin
      · have hok : state.finished = true := h.inv.ok _ htop
        rw [heq]
        cases state with
        | Canceled =>
          have hdone := (hcond rfl).1
          simp only [Mem.Done, not_or] at hdone
          rw [Mem.Finished] at hfin
          cases hstate : (s.mem.task t).state_ <;> simp_all [TaskStates.finished]
        | Completed => exact (hnot (.inr (by simp [Instr.runs]))).elim
        | Failed => exact (hnot (.inr (by simp [Instr.runs]))).elim
        | _ => cases hok
    · rcases hresult with rfl | ⟨e, rfl⟩ | hresult
      · exact (hnot (.inr (by simp [Instr.runs]))).elim
      · exact (hnot (.inr (by simp [Instr.runs]))).elim
      · exact hresult
  | call call hcan hallowed => cases call <;> exact ⟨rfl, rfl, rfl⟩
  | tick d => exact ⟨rfl, rfl, rfl⟩

theorem takenEnqueued_init [Inhabited V] (role : Θ → Role) :
    TakenEnqueued (init role : State Θ T V E) := by
  rintro t ⟨i, hi, hrun⟩
  have hzero := (single_init (T := T) (V := V) (E := E) role).has_eq_zero (.inl (.inl rfl)) hi
    (t := t)
  have hpos := Instr.has_pos_of_taken hrun
  omega

/-- **Finished states are final in runs that cancel in time.**  If no step of a run cancels a task
that is `Completed` or `Failed`, or that a worker has taken, then a task that is finished keeps its
state to the end of the run, and what `Get` comes to. -/
theorem finished_is_final [Inhabited V] {role : Θ → Role} {s₁ s₂ : State Θ T V E}
    {h₁ h₂ : List (State Θ T V E × Label T)} (hrun₁ : Lib.Trace (Step role) (init role) h₁ s₁)
    (hrun₂ : Lib.Trace (Step role) s₁ h₂ s₂)
    (hcond : ∀ x ∈ h₁ ++ h₂, CanceledInTime x.1 x.2) {t : T} (hfin : s₁.mem.Finished t) :
    (s₂.mem.task t).state_ = (s₁.mem.task t).state_ ∧
      (s₂.mem.task t).get = (s₁.mem.task t).get := by
  have h₁ : Single s₁ ∧ TakenEnqueued s₁ := by
    refine hrun₁.invariant_of_forall (I := fun s ↦ Single s ∧ TakenEnqueued s)
      (fun x hx ↦ hcond x (List.mem_append_left _ hx))
      ⟨single_init role, takenEnqueued_init role⟩ ?_
    rintro s l s' ⟨hsingle, htaken⟩ hstep hc
    exact ⟨hsingle.step hstep, takenEnqueued_step hsingle htaken hstep hc⟩
  have h₂ : (Single s₂ ∧ TakenEnqueued s₂) ∧
      (s₂.mem.task t).state_ = (s₁.mem.task t).state_ ∧
      (s₂.mem.task t).result_ = (s₁.mem.task t).result_ ∧
      (s₂.mem.task t).exc_ptr_ = (s₁.mem.task t).exc_ptr_ := by
    refine hrun₂.invariant_of_forall (I := fun s ↦ (Single s ∧ TakenEnqueued s) ∧
      (s.mem.task t).state_ = (s₁.mem.task t).state_ ∧
      (s.mem.task t).result_ = (s₁.mem.task t).result_ ∧
      (s.mem.task t).exc_ptr_ = (s₁.mem.task t).exc_ptr_)
      (fun x hx ↦ hcond x (List.mem_append_right _ hx)) ⟨h₁, rfl, rfl, rfl⟩ ?_
    rintro s l s' ⟨⟨hsingle, htaken⟩, hstate, hresult, hexc⟩ hstep hc
    have hfin' : s.mem.Finished t := by
      rw [Mem.Finished, hstate]
      exact hfin
    obtain ⟨hstate', hresult', hexc'⟩ := finished_step hsingle (htaken t) hstep (hc t) hfin'
    exact ⟨⟨hsingle.step hstep, takenEnqueued_step hsingle htaken hstep hc⟩,
      hstate'.trans hstate, hresult'.trans hresult, hexc'.trans hexc⟩
  obtain ⟨-, hstate, hresult, hexc⟩ := h₂
  refine ⟨hstate, ?_⟩
  rw [Task.get, Task.get, hstate, hresult, hexc]

end

/-- A user submits task `0`, and a worker runs it; its result is `true`. -/
def completeTask : List (Action (Fin 2) (Fin 2) Bool Unit) :=
  [.call 0 (.submit 0)] ++ Action.steps 0 15 ++ Action.steps 1 5 ++ [.exec 1 (.value true)] ++
    Action.steps 1 1

/-- Task `1` is canceled before it is submitted, task `0` is completed and stays so. -/
theorem finished_is_final_completed :
    ∃ (h₁ h₂ : List (State (Fin 2) (Fin 2) Bool Unit × Label (Fin 2)))
      (s₁ s₂ : State (Fin 2) (Fin 2) Bool Unit),
      Lib.Trace (Step oneWorker) (init oneWorker) h₁ s₁ ∧ Lib.Trace (Step oneWorker) s₁ h₂ s₂ ∧
        (∀ x ∈ h₁ ++ h₂, CanceledInTime x.1 x.2) ∧ (s₁.mem.task 0).state_ = .Completed ∧
        (s₂.mem.task 0).state_ = .Completed ∧ (s₂.mem.task 0).get = (s₁.mem.task 0).get := by
  obtain ⟨h₁, s₁, hrun₁, hs₁⟩ := exists_trace_of_play oneWorker
    (init oneWorker : State (Fin 2) (Fin 2) Bool Unit)
    ([.call 0 (.cancel 1)] ++ Action.steps 0 6 ++ completeTask)
    (fun x ↦ (play oneWorker (Action.steps 1 4) x.2).any fun y ↦
      (x.2.mem.task 0).state_ = .Completed ∧ ∀ z ∈ x.1 ++ y.1, CanceledInTime z.1 z.2)
    (by decide +kernel)
  obtain ⟨⟨h₂, s₂⟩, hplay, hs₂⟩ := (Option.any_eq_true _ _).mp hs₁
  obtain ⟨hstate, hcond⟩ := of_decide_eq_true hs₂
  have hrun₂ := trace_of_play hplay
  have hfin : s₁.mem.Finished 0 := by
    rw [Mem.Finished, hstate]
    rfl
  obtain ⟨hstate', hget⟩ := finished_is_final hrun₁ hrun₂ hcond hfin
  exact ⟨h₁, h₂, s₁, s₂, hrun₁, hrun₂, hcond, hstate, hstate'.trans hstate, hget⟩

/-- Task `0` is completed, and `Get` returns its result; then it is canceled, and `Get` returns a
default value. -/
theorem finished_not_final :
    ∃ (h₁ h₂ : List (State (Fin 2) (Fin 2) Bool Unit × Label (Fin 2)))
      (s₁ s₂ : State (Fin 2) (Fin 2) Bool Unit),
      Lib.Trace (Step oneWorker) (init oneWorker) h₁ s₁ ∧ Lib.Trace (Step oneWorker) s₁ h₂ s₂ ∧
        s₁.mem.Finished 0 ∧ (s₁.mem.task 0).state_ = .Completed ∧
        (s₂.mem.task 0).state_ = .Canceled ∧ (s₁.mem.task 0).get = some (.ok true) ∧
        (s₂.mem.task 0).get = some (.ok false) := by
  obtain ⟨h₁, s₁, hrun₁, hs₁⟩ := exists_trace_of_play oneWorker
    (init oneWorker : State (Fin 2) (Fin 2) Bool Unit) completeTask
    (fun x ↦ (play oneWorker ([.call 0 (.cancel 0)] ++ Action.steps 0 1) x.2).any fun y ↦
      (x.2.mem.task 0).state_ = .Completed ∧ (x.2.mem.task 0).result_ = true ∧
        (y.2.mem.task 0).state_ = .Canceled)
    (by decide +kernel)
  obtain ⟨⟨h₂, s₂⟩, hplay, hs₂⟩ := (Option.any_eq_true _ _).mp hs₁
  obtain ⟨hstate₁, hresult, hstate₂⟩ := of_decide_eq_true hs₂
  refine ⟨h₁, h₂, s₁, s₂, hrun₁, trace_of_play hplay, ?_, hstate₁, hstate₂, ?_, ?_⟩
  · rw [Mem.Finished, hstate₁]
    rfl
  · rw [Task.get, hstate₁, ← hresult]
  · rw [Task.get, hstate₂]
    rfl

end Executor
end ManyTasks
