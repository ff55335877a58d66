import ManyTasks.Executor.Final

/-!
# Cancellation before the start

A worker tests `IsCanceled` and then starts the task.  A `Cancel` that returns in between comes too
late (`started_after_cancel`).  At every other moment it is in time: the worker finds the task
canceled, or what came of it has been assigned already and nobody has the task in its hands
(`not_started_after_cancel`).
-/

set_option autoImplicit false

namespace ManyTasks
namespace Executor

variable {Θ T V E : Type} [DecidableEq T] [DecidableEq Θ]

section

variable {s : State Θ T V E} {θ : Θ} {i : Instr T V E} {rest : List (Instr T V E)}
  {c : Choice Θ T V E}

/-- No thread is going to start the task: none is about to, and a worker that tests it finds it
canceled, or has none to test. -/
structure Dead (s : State Θ T V E) (t : T) : Prop where
  not_run : ¬ s.Pending (.run t)
  not_waiting : ¬ s.mem.Waiting t
  canceled : (s.mem.task t).state_ = .Canceled ∨
    ∀ F, s.load (Instr.carries t) F + (s.mem.queue .tasks).queue_.count t ≤ 0

/-- The step does not cancel the task between the test of `IsCanceled` by a worker and the start. -/
def CancelSeen (t : T) (s : State Θ T V E) (l : Label T) : Prop :=
  l = .stored t .Canceled → ¬ s.Pending (.run t)

omit [DecidableEq Θ] in
theorem Instr.carries_le_has (t : T) (i : Instr T V E) : i.carries t ≤ i.has t :=
  Nat.le_add_right _ _

theorem Dead.exec {t : T} (hd : Dead s t) (h : Single s) (hs : s.stack θ = i :: rest) :
    Dead (s.after θ rest (exec θ s.mem c i)) t := by
  have hflow := exec_flow θ s.mem c i
  have hok := h.inv.ok i (Lib.Config.pending_top hs)
  have hgrows := exec_grows θ c hok
  constructor
  case not_run =>
    intro hrun
    rcases Lib.Config.pending_after hs hrun with hnext | hpend
    · obtain ⟨rfl, hstate⟩ := hflow.of_mem_run hnext
      have hzero := hd.canceled.resolve_left hstate {θ}
      have hone := Lib.Config.le_load (Instr.carries t)
        (show Instr.testCanceled t ∈ s.stack θ by rw [hs]; exact List.mem_cons_self)
      rw [Instr.carries, if_pos rfl] at hone
      omega
    · exact hd.not_run hpend
  case not_waiting => exact fun hw ↦ hd.not_waiting (hgrows.waiting hw)
  case canceled =>
    have hl : (Executor.exec θ s.mem c i).label ≠ .enqueued t :=
      fun hl ↦ hd.not_waiting (.inr (hflow.enqueued hl).2)
    -- what came of the task has been assigned, so nobody carries it
    have hdone (hdone : (Executor.exec θ s.mem c i).mem.Done t) (F : Finset Θ) :
        (s.after θ rest (Executor.exec θ s.mem c i)).load (Instr.carries t) F +
          ((Executor.exec θ s.mem c i).mem.queue .tasks).queue_.count t ≤ 0 :=
      Nat.le_trans (Nat.add_le_add_right (Lib.Config.load_le_load (Instr.carries_le_has t) _ F) _)
        ((h.exec hs).none t (.inr hdone) F)
    rcases hd.canceled with hstate | hzero
    · rcases (exec_taskChange θ s.mem c i).state_eq t with
        heq | ⟨-, hc, -⟩ | ⟨by_, -, hc, -⟩ | ⟨state, rfl, heq⟩
      · exact .inl (heq.trans hstate)
      · cases hc.symm.trans hstate
      · cases hc.symm.trans hstate
      · have hfin : state.finished = true := hok
        cases state with
        | Canceled => exact .inl heq
        | Completed => exact .inr (hdone (.inl heq))
        | Failed => exact .inr (hdone (.inr heq))
        | _ => cases hfin
    · have hle := hflow.carries_le t
      rw [if_neg hl] at hle
      refine .inr (Lib.Config.load_after_le _ hs hzero ?_)
      rw [Lib.Config.mem_after]
      omega

theorem Dead.step {t : T} (hd : Dead s t) (h : Single s) {role : Θ → Role} {l : Label T}
    {s' : State Θ T V E} (hstep : Step role s l s') : Dead s' t := by
  cases hstep with
  | exec c hs henabled => exact hd.exec h hs
  | @call θ call hcan hallowed =>
    have hqueue : (s.mem.call call).queue = s.mem.queue := by cases call <;> rfl
    have htask : (s.mem.call call).task = s.mem.task := by cases call <;> rfl
    refine ⟨fun hrun ↦ ?_, fun hw ↦ ?_, ?_⟩
    · rcases Lib.Config.pending_push.mp hrun with hcode | hrun
      · cases call <;> simp [Call.code] at hcode
      · exact hd.not_run hrun
    · rw [Mem.Waiting, Lib.Config.after, htask] at hw
      exact hd.not_waiting hw
    · rw [Lib.Config.after, htask, hqueue]
      exact hd.canceled.imp_right fun hzero ↦
        Lib.Config.load_push_le (e := ⟨true, _, _, Label.called call⟩) _ hzero (call.carries_code t)
  | tick d => exact ⟨hd.not_run, hd.not_waiting, hd.canceled⟩

/-- Whoever returns from `Cancel` has canceled the task, and in runs that meet the condition nobody
is going to start it then. -/
structure CancelDone (t : T) (h : List (State Θ T V E × Label T)) (s : State Θ T V E) : Prop where
  single : Single s
  above : s.Above (.store t .Canceled) (.returned (.cancel t)) (Dead s t)
  dead : (∃ x ∈ h, x.2 = .returned (.cancel t)) → Dead s t

theorem cancelDone_init [Inhabited V] (role : Θ → Role) (t : T) :
    CancelDone t [] (init role : State Θ T V E) := by
  refine ⟨single_init role, fun θ pre post heq ↦ ?_, fun ⟨x, hx, _⟩ ↦ nomatch hx⟩
  have hmem : Instr.returned (.cancel t) ∈ (init role : State Θ T V E).stack θ := by
    rw [heq]
    exact List.mem_append_right _ List.mem_cons_self
  dsimp only [init] at hmem
  cases hrole : role θ <;> simp [hrole] at hmem

/-- The assignment of `Cancel`, seen by every worker. -/
theorem dead_of_store {t : T} (hs : s.stack θ = .store t .Canceled :: rest)
    (hcond : ¬ s.Pending (.run t)) :
    Dead (s.after θ rest (exec θ s.mem c (.store t .Canceled))) t := by
  have hstate : ((exec θ s.mem c (.store t .Canceled)).mem.task t).state_ = .Canceled := by
    dsimp only [exec]
    rw [Mem.task_onTask_self]
  refine ⟨fun hrun ↦ ?_, fun hw ↦ ?_, .inl hstate⟩
  · rcases Lib.Config.pending_after hs hrun with hnext | hpend
    · cases List.mem_singleton.mp hnext
    · exact hcond hpend
  · rcases hw with hc | hc <;> exact nomatch hc.symm.trans hstate

theorem CancelDone.step {t : T} {h : List (State Θ T V E × Label T)} (hd : CancelDone t h s)
    {role : Θ → Role} {l : Label T} {s' : State Θ T V E} (hstep : Step role s l s')
    (hcond : CancelSeen t s l) : CancelDone t (h ++ [(s, l)]) s' := by
  have hkeep : Dead s t → Dead s' t := fun h ↦ h.step hd.single hstep
  refine ⟨hd.single.step hstep, ?_, ?_⟩
  · cases hstep with
    | @exec θ i rest c hs henabled =>
      refine hd.above.after hs ((exec_flow θ s.mem c i).returned_not_mem _) (fun hi ↦ ?_) hkeep
      subst hi
      exact dead_of_store hs (hcond rfl)
    | call call hcan hallowed =>
      refine hd.above.push (fun pre post heq ↦ ?_) hkeep
      obtain ⟨rfl, rfl⟩ := Call.split_code heq
      exact List.mem_cons_self
    | tick d => exact fun θ pre post heq ↦ (hd.above θ pre post heq).imp_right hkeep
  · rintro ⟨x, hx, hl⟩
    rcases List.mem_append.mp hx with hx | hx
    · exact hkeep (hd.dead ⟨x, hx, hl⟩)
    · -- the return is on top of the stack, so nothing is above it
      rw [List.mem_singleton.mp hx] at hl
      subst hl
      obtain ⟨θ, rest, hs⟩ := hstep.of_returned
      exact hkeep ((hd.above θ [] rest hs).resolve_left List.not_mem_nil)

theorem cancelDone_of_trace [Inhabited V] {role : Θ → Role} {t : T}
    {h : List (State Θ T V E × Label T)} (hrun : Lib.Trace (Step role) (init role) h s)
    (hcond : ∀ x ∈ h, CancelSeen t x.1 x.2) : CancelDone t h s := by
  revert hcond
  refine hrun.invariant (I := fun h s ↦ (∀ x ∈ h, CancelSeen t x.1 x.2) → CancelDone t h s)
    (fun _ ↦ cancelDone_init role t) fun h s l s' ih hstep hcond ↦ ?_
  exact (ih fun x hx ↦ hcond x (List.mem_append_left _ hx)).step hstep
    (hcond (s, l) (List.mem_append_right _ List.mem_cons_self))

/-- **A canceled task is not started, in runs where every worker sees the cancellation.**  If in a
run the task is never canceled between the test of `IsCanceled` by a worker and the start, then
`Run` of the task does not begin after `Cancel` has returned. -/
theorem not_started_after_cancel [Inhabited V] {role : Θ → Role} {t : T}
    {h₁ h₂ : List (State Θ T V E × Label T)} {s₁ : State Θ T V E}
    (hrun : Lib.Trace (Step role) (init role) (h₁ ++ (s₁, .returned (.cancel t)) :: h₂) s)
    (hcond : ∀ x ∈ h₁ ++ (s₁, .returned (.cancel t)) :: h₂, CancelSeen t x.1 x.2) :
    ∀ x ∈ h₂, x.2 ≠ .started t := by
  rintro ⟨s₂, l⟩ hx (rfl : l = .started t)
  obtain ⟨h₃, h₄, rfl⟩ := List.append_of_mem hx
  -- the run up to the start
  rw [← List.cons_append, ← List.append_assoc] at hrun hcond
  obtain ⟨hbefore, s₃, hstep, -⟩ := hrun.split
  have hdone := cancelDone_of_trace hbefore fun x hx ↦ hcond x (List.mem_append_left _ hx)
  have hdead := hdone.dead ⟨_, List.mem_append_right _ List.mem_cons_self, rfl⟩
  exact hdead.not_run hstep.pending_of_started

end

instance [Fintype Θ] [DecidableEq V] [DecidableEq E] (t : T) (s : State Θ T V E) (l : Label T) :
    Decidable (CancelSeen t s l) :=
  decidable_of_iff (l = .stored t .Canceled → ¬ ∃ θ, .run t ∈ s.stack θ) Iff.rfl

/-- A user submits task `0`, and a worker tests whether it is canceled. -/
def enqueueTask : List (Action (Fin 2) (Fin 1) Unit Unit) :=
  [.call 0 (.submit 0)] ++ Action.steps 0 15 ++ Action.steps 1 3

/-- Task `0` is canceled when a worker has taken it off the queue; the worker finds it canceled. -/
theorem not_started_after_cancel_enqueued :
    ∃ (h₁ h₂ : List (State (Fin 2) (Fin 1) Unit Unit × Label (Fin 1)))
      (s₁ s : State (Fin 2) (Fin 1) Unit Unit),
      Lib.Trace (Step oneWorker) (init oneWorker)
          (h₁ ++ (s₁, .returned (.cancel 0)) :: h₂) s ∧
        s₁.Pending (.testCanceled 0) ∧ h₂.length = 3 ∧ ∀ x ∈ h₂, x.2 ≠ .started 0 := by
  obtain ⟨h₁, s₁, l, h₂, s, hrun, hp⟩ := exists_trace_through oneWorker
    (init oneWorker : State (Fin 2) (Fin 1) Unit Unit)
    (enqueueTask ++ [.call 0 (.cancel 0)] ++ Action.steps 0 5) (.exec 0 .none) (Action.steps 1 3)
    (fun h₁ s₁ l h₂ ↦ l = .returned (.cancel 0) ∧ .testCanceled 0 ∈ s₁.stack 1 ∧ h₂.length = 3 ∧
      ∀ x ∈ h₁ ++ (s₁, l) :: h₂, CancelSeen 0 x.1 x.2)
    (by decide +kernel)
  obtain ⟨rfl, htest, hlength, hcond⟩ := of_decide_eq_true hp
  exact ⟨h₁, h₂, s₁, s, hrun, ⟨1, htest⟩, hlength, not_started_after_cancel hrun hcond⟩

/-- A worker finds task `0` not canceled; then `Cancel` is called and returns; then the worker
starts the task. -/
theorem started_after_cancel :
    ∃ (h₁ h₂ : List (State (Fin 2) (Fin 1) Unit Unit × Label (Fin 1)))
      (s₁ s : State (Fin 2) (Fin 1) Unit Unit),
      Lib.Trace (Step oneWorker) (init oneWorker)
          (h₁ ++ (s₁, .returned (.cancel 0)) :: h₂) s ∧
        (∀ x ∈ h₁, x.2 ≠ .started 0) ∧ ∃ x ∈ h₂, x.2 = .started 0 := by
  obtain ⟨h₁, s₁, l, h₂, s, hrun, hp⟩ := exists_trace_through oneWorker
    (init oneWorker : State (Fin 2) (Fin 1) Unit Unit)
    (enqueueTask ++ Action.steps 1 1 ++ [.call 0 (.cancel 0)] ++ Action.steps 0 5) (.exec 0 .none)
    (Action.steps 1 1)
    (fun h₁ _ l h₂ ↦ l = .returned (.cancel 0) ∧ (∀ x ∈ h₁, x.2 ≠ .started 0) ∧
      ∃ x ∈ h₂, x.2 = .started 0)
    (by decide +kernel)
  obtain ⟨rfl, hbefore, hafter⟩ := of_decide_eq_true hp
  exact ⟨h₁, h₂, s₁, s, hrun, hbefore, hafter⟩

end Executor
end ManyTasks
