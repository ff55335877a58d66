import ManyTasks.Executor.Final
import ManyTasks.Executor.Section

/-!
# What is left in the queue after `Close`

`Push` tests `closed_` before it locks the queue, and `Close` sets it before it locks the queue.  So
a task may be put into the queue when `Close` has already gone through it; if all workers have left
by then, nobody takes the task out and it is never finished (`left_in_queue`).  Here it is shown
that this is the only way to lose a task: as long as every `Push` that has tested `closed_` too
early is met by a `Close` that has not locked the queue yet or by a worker that still pops, the
queue is drained (`finished_after_close`).

* A task that has been enqueued is in the queue, in the hands of a thread (`Instr.has`), or about to
  be canceled by a `Push` (`Pushing`).
* A task in the queue that is not finished is going to be popped or canceled (`Drain`).
-/

set_option autoImplicit false

namespace ManyTasks
namespace Executor

variable {Θ T V E : Type}

/-! ## Workers -/

/-- The loop of a worker. -/
def Instr.loops : Instr T V E → Bool
  | .lockPop .tasks | .testPop .tasks | .sleep .tasks => true
  | _ => false

/-- What only workers do. -/
def Instr.works : Instr T V E → Bool
  | .lockPop .tasks | .testPop .tasks | .sleep .tasks => true
  | .testCanceled _ | .run _ | .running _ | .setError _ _ => true
  | .store _ .Completed | .store _ .Failed => true
  | _ => false

section

variable {m : Mem Θ T V E} {i : Instr T V E} {next : List (Instr T V E)} {l : Label T}
  {tasks : List T}

theorem Leads.works_eq (h : Leads m i next) (hi : i.works = false) :
    ∀ j ∈ next, j.works = false := by
  cases h with
  | lockClose q k hk => rcases hk with rfl | rfl <;> simp [Instr.works]
  | lockPop q => cases q <;> simp_all [Instr.works]
  | popClosed q => cases q <;> simp_all [Instr.works]
  | popEmpty q => cases q <;> simp_all [Instr.works]
  | sleep q => cases q <;> simp_all [Instr.works]
  | _ => simp_all [Instr.works]

/-- Only a worker comes to what workers do. -/
theorem Flow.works_eq (h : Flow m i next l tasks) (hi : i.works = false) :
    ∀ j ∈ next, j.works = false := by
  cases h with
  | quiet h => exact h.works_eq hi
  | _ => simp_all [Instr.works]

/-! ## Callers of `Push` -/

/-- What the callers of `Enque` do next: the rest of `Submit` and of `OnFinished`, and the loop of
the timer. -/
def Instr.afterEnque : Instr T V E → Bool
  | .testEnqueued _ | .finishDepended _ | .finishTriggered _ | .lockPop .timer => true
  | _ => false

/-- The course of `TryToEnque` and `Enque` up to the test of `Push`. -/
def Instr.enques : Instr T V E → Bool
  | .testSubmitted _ _ | .testTriggers _ _ | .testDependencies _ _ | .testQueue _ _
  | .casEnqueued _ _ | .testClosed .tasks _ | .timerTest _ => true
  | _ => false

/-- `Enque` is followed by what its caller does next. -/
def Followed (i : Instr T V E) (l : List (Instr T V E)) : Prop :=
  i.enques = true → ∃ j l', l = j :: l' ∧ j.afterEnque = true

theorem Leads.followed (h : Leads m i next) {rest : List (Instr T V E)} (hi : Followed i rest) :
    Lib.Each (fun j l ↦ Followed j (l ++ rest)) next := by
  cases h with
  | lockClose q k hk => rcases hk with rfl | rfl <;> simp [Lib.Each, Followed, Instr.enques]
  | cancelAll q ts => exact Lib.each_of_forall (by simp [Followed, Instr.enques])
  | testSubmitted | testTriggers | readyTriggers | testDependencies | testQueue | timerTest
  | finishDepended | finishTriggered | casSubmitted | setQueue | testDeadline =>
    simp_all [Lib.Each, Followed, Instr.enques, Instr.afterEnque]
  | _ => simp only [Lib.Each, Followed, Instr.enques, Bool.false_eq_true, false_implies, and_self]

theorem Flow.followed (h : Flow m i next l tasks) {rest : List (Instr T V E)}
    (hi : Followed i rest) : Lib.Each (fun j l ↦ Followed j (l ++ rest)) next := by
  cases h with
  | quiet h => exact h.followed hi
  | _ => simp_all [Lib.Each, Followed, Instr.enques]

end

variable [DecidableEq T] [DecidableEq Θ]

/-- The stacks of the threads: workers work, and `Enque` returns to its caller. -/
structure Stacks (role : Θ → Role) (s : State Θ T V E) : Prop where
  works : ∀ θ, ∀ i ∈ s.stack θ, i.works = true → role θ = .worker
  followed : ∀ θ, Lib.Each Followed (s.stack θ)

omit [DecidableEq T] [DecidableEq Θ] in
theorem stacks_init [Inhabited V] (role : Θ → Role) : Stacks role (init role : State Θ T V E) := by
  constructor
  · intro θ i hi hworks
    dsimp only [init] at hi
    cases hrole : role θ <;> simp [hrole] at hi
    · rfl
    · subst hi
      cases hworks
  · intro θ
    dsimp only [init]
    cases role θ <;> simp [Lib.Each, Followed, Instr.enques]

omit [DecidableEq T] [DecidableEq Θ] in
theorem Call.followed_code (call : Call T) (rest : List (Instr T V E)) :
    Lib.Each (fun j l ↦ Followed j (l ++ rest)) (call.code ++ [.returned call]) := by
  cases call <;> simp [Lib.Each, Followed, Call.code, Instr.enques]

omit [DecidableEq T] [DecidableEq Θ] in
theorem Call.works_code (call : Call T) :
    ∀ i ∈ (call.code ++ [.returned call] : List (Instr T V E)), i.works = false := by
  cases call <;> simp [Call.code, Instr.works]

theorem Stacks.step {role : Θ → Role} {s s' : State Θ T V E} {l : Label T} (h : Stacks role s)
    (hstep : Step role s l s') : Stacks role s' := by
  cases hstep with
  | @exec θ i rest c hs henabled =>
    have hflow := exec_flow θ s.mem c i
    constructor
    · intro θ' j hj hworks
      rcases Lib.Config.mem_stack_after hs hj with ⟨rfl, hnext⟩ | hold
      · by_cases hi : i.works = true
        · exact h.works θ' i (by rw [hs]; exact List.mem_cons_self) hi
        · rw [hflow.works_eq (Bool.eq_false_of_not_eq_true hi) j hnext] at hworks
          cases hworks
      · exact h.works θ' j hold hworks
    · exact Lib.Config.each_after h.followed hs hflow.followed
  | @call θ call hcan hallowed =>
    constructor
    · intro θ' j hj hworks
      by_cases hθ : θ' = θ
      · subst hθ
        rw [Lib.Config.stack_after_self] at hj
        rcases List.mem_append.mp hj with hj | hj
        · rw [call.works_code j hj] at hworks
          cases hworks
        · exact h.works θ' j hj hworks
      · rw [Lib.Config.stack_after_of_ne hθ] at hj
        exact h.works θ' j hj hworks
    · exact Lib.Config.each_push h.followed (call.followed_code _)
  | tick d => exact ⟨h.works, h.followed⟩

/-! ## Where an enqueued task is -/

/-- A `Push` of the task to the queue of the workers is in progress: it has not tested `closed_`
yet, or the task has not been put into the queue yet, or it has not been canceled yet. -/
def Pushing (s : State Θ T V E) (t : T) : Prop :=
  s.Pending (.testClosed .tasks t) ∨ s.Pending (.lockPush .tasks t) ∨
    s.Pending (.emplace .tasks t) ∨
    ∃ j l, s.Comes (.store t .Canceled :: j :: l) ∧ j.afterEnque = true

/-- Some worker will pop again. -/
def WorkerLoops (s : State Θ T V E) : Prop := ∃ i, s.Pending i ∧ i.loops = true

/-- What is put into the queue will be taken out: the queue is not closed, or `Close` has not locked
it yet, or some worker will pop again. -/
def Draining (s : State Θ T V E) : Prop :=
  (s.mem.queue .tasks).closed_ = false ∨ s.Pending (.lockClose .tasks) ∨ WorkerLoops s

/-- `Close` is going to cancel the task. -/
def CloseCancels (s : State Θ T V E) (t : T) : Prop :=
  ∃ i l, s.Comes (i :: l) ∧ .notifyAll .tasks ∈ l ∧
    (i = .cancelAll .tasks ∨ i = .store t .Canceled)

/-- If a `Push` is about to put a task into the queue, it will be taken out. -/
def PushedInTime (s : State Θ T V E) : Prop :=
  ∀ t, s.Pending (.emplace .tasks t) → Draining s

/-- Where the tasks are that have been enqueued and are not finished. -/
structure Drain (role : Θ → Role) (s : State Θ T V E) : Prop where
  single : Single s
  shape : Stacks role s
  enqueued : ∀ t, (s.mem.task t).state_ = .Enqueued →
    t ∈ (s.mem.queue .tasks).queue_ ∨ (∃ i, s.Pending i ∧ 0 < i.has t) ∨
      ∃ j l, s.Comes (.store t .Canceled :: j :: l) ∧ j.afterEnque = true
  queued : ∀ t ∈ (s.mem.queue .tasks).queue_, ¬ s.mem.Finished t →
    Draining s ∨ CloseCancels s t

section

variable {s : State Θ T V E} {θ : Θ} {i : Instr T V E} {rest : List (Instr T V E)}
  {c : Choice Θ T V E}

theorem WorkerLoops.exec (h : WorkerLoops s) (hs : s.stack θ = i :: rest)
    (hqueue : ((exec θ s.mem c i).mem.queue .tasks).queue_ ≠ []) :
    WorkerLoops (s.after θ rest (exec θ s.mem c i)) := by
  obtain ⟨j, hj, hloops⟩ := h
  rcases hj.after (e := Executor.exec θ s.mem c i) hs with rfl | hj
  · -- a worker leaves its loop only when the queue is empty
    have hnext : ∃ k ∈ (Executor.exec θ s.mem c j).next, k.loops = true := by
      cases j with
      | lockPop q => cases q with
        | tasks => exact ⟨.testPop .tasks, List.mem_cons_self, rfl⟩
        | timer => cases hloops
      | sleep q => cases q with
        | tasks => exact ⟨.lockPop .tasks, List.mem_cons_self, rfl⟩
        | timer => cases hloops
      | testPop q => cases q with
        | tasks =>
          dsimp only [Executor.exec] at hqueue ⊢
          split at hqueue
          · rename_i hempty
            split at hqueue
            · exact absurd hempty hqueue
            · rename_i hopen
              rw [if_neg hopen]
              exact ⟨.sleep .tasks, List.mem_cons_self, rfl⟩
          · exact ⟨.lockPop .tasks, by simp [go], rfl⟩
        | timer => cases hloops
      | _ => cases hloops
    obtain ⟨k, hk, hloops⟩ := hnext
    exact ⟨k, Lib.Config.pending_next hk, hloops⟩
  · exact ⟨j, hj, hloops⟩

/-- What is in the queue stays in good hands. -/
theorem Draining.exec (h : Draining s) (hs : s.stack θ = i :: rest)
    (henabled : (exec θ s.mem c i).enabled = true) {t : T}
    (ht : t ∈ ((exec θ s.mem c i).mem.queue .tasks).queue_) :
    Draining (s.after θ rest (exec θ s.mem c i)) ∨
      CloseCancels (s.after θ rest (exec θ s.mem c i)) t := by
  rcases h with hopen | hclose | hloops
  · left
    rcases (exec_headChange θ s.mem c i henabled).closed hopen with hopen | ⟨-, hnext⟩
    · exact .inl hopen
    · refine .inr (.inl (Lib.Config.pending_next ?_))
      rw [hnext]
      exact List.mem_cons_self
  · rcases hclose.after (e := Executor.exec θ s.mem c i) hs with rfl | hclose
    · exact .inr ⟨.cancelAll .tasks, _, Lib.Config.comes_next List.suffix_rfl, by simp, .inl rfl⟩
    · exact .inl (.inr (.inl hclose))
  · exact .inl (.inr (.inr (hloops.exec hs (List.ne_nil_of_mem ht))))

/-- `Close` cancels what was in the queue when it locked it. -/
theorem CloseCancels.exec {t : T} (h : CloseCancels s t) (hs : s.stack θ = i :: rest)
    (ht : t ∈ (s.mem.queue .tasks).queue_) :
    (exec θ s.mem c i).mem.Finished t ∨ CloseCancels (s.after θ rest (exec θ s.mem c i)) t := by
  obtain ⟨j, l, hcomes, hl, hj⟩ := h
  rcases hcomes.after (e := Executor.exec θ s.mem c i) hs with heq | hcomes
  · obtain ⟨rfl, rfl⟩ := List.cons.inj heq
    rcases hj with rfl | rfl
    · obtain ⟨pre, post, heq⟩ := List.append_of_mem ht
      have hsuffix : (.store t .Canceled :: post.map fun t ↦ .store t .Canceled) <:+
          (Executor.exec θ s.mem c (.cancelAll .tasks)).next := by
        refine ⟨pre.map fun t ↦ .store t .Canceled, ?_⟩
        simp [Executor.exec, go, heq]
      exact .inr ⟨.store t .Canceled, _, Lib.Config.comes_next hsuffix,
        List.mem_append_right _ hl, .inr rfl⟩
    · left
      simp [Mem.Finished, Executor.exec, TaskStates.finished]
  · exact .inr ⟨j, l, hcomes, hl, hj⟩

omit [DecidableEq Θ] in
/-- What is taken out of the queue is in the hands of a worker. -/
theorem Flow.mem_queue {m : Mem Θ T V E} {next : List (Instr T V E)} {l : Label T} {tasks : List T}
    (h : Flow m i next l tasks) {t : T} (ht : t ∈ (m.queue .tasks).queue_) :
    t ∈ tasks ∨ ∃ j ∈ next, 0 < j.has t := by
  cases h with
  | popTasks x ts heq =>
    rw [heq, List.mem_cons] at ht
    rcases ht with rfl | ht
    · exact .inr ⟨.testCanceled t, by simp, by simp [Instr.has, Instr.carries]⟩
    · exact .inl ht
  | emplaceTasks x => exact .inl (List.mem_append_left _ ht)
  | _ => exact .inl ht

omit [DecidableEq Θ] in
/-- Who has a task in his hands: a `Push` or a worker. -/
theorem Instr.of_has_pos {t : T} (h : 0 < i.has t) :
    i = .testClosed .tasks t ∨ i = .lockPush .tasks t ∨ i = .emplace .tasks t ∨
      i = .testCanceled t ∨ i = .run t ∨ i = .running t ∨ (∃ e, i = .setError t e) ∨
      i = .store t .Completed ∨ i = .store t .Failed := by
  have hone (x : T) : (0 < if x = t then 1 else 0) ↔ x = t := by
    split_ifs <;> simp_all
  cases i with
  | testClosed q x => cases q <;> simp_all [Instr.has, Instr.carries, Instr.runs]
  | lockPush q x => cases q <;> simp_all [Instr.has, Instr.carries, Instr.runs]
  | emplace q x => cases q <;> simp_all [Instr.has, Instr.carries, Instr.runs]
  | store x state => cases state <;> simp_all [Instr.has, Instr.carries, Instr.runs]
  | _ => simp_all [Instr.has, Instr.carries, Instr.runs]

/-- Whoever has a task in his hands passes it on, unless it is finished. -/
theorem has_exec {m : Mem Θ T V E} {t : T} (hhas : 0 < i.has t)
    (henabled : (exec θ m c i).enabled = true)
    (hstate : ((exec θ m c i).mem.task t).state_ = .Enqueued) :
    t ∈ ((exec θ m c i).mem.queue .tasks).queue_ ∨ (∃ j ∈ (exec θ m c i).next, 0 < j.has t) ∨
      (i = .testClosed .tasks t ∧ (exec θ m c i).next = [.store t .Canceled]) := by
  rcases Instr.of_has_pos hhas with
    rfl | rfl | rfl | rfl | rfl | rfl | ⟨e, rfl⟩ | rfl | rfl
  · dsimp only [exec]
    split
    · exact .inr (.inr ⟨rfl, rfl⟩)
    · exact .inr (.inl ⟨_, List.mem_cons_self, hhas⟩)
  · exact .inr (.inl ⟨_, List.mem_cons_self, hhas⟩)
  · left
    simp [exec, go]
  · dsimp only [exec] at hstate ⊢
    split
    · rename_i hcanceled
      cases hcanceled.symm.trans hstate
    · exact .inr (.inl ⟨_, List.mem_cons_self, hhas⟩)
  · exact .inr (.inl ⟨_, List.mem_cons_self, by simp [Instr.has, Instr.runs]⟩)
  · cases c with
    | value v => exact .inr (.inl ⟨_, List.mem_cons_self, hhas⟩)
    | throw e => exact .inr (.inl ⟨_, List.mem_cons_self, hhas⟩)
    | _ => cases henabled
  · exact .inr (.inl ⟨_, List.mem_cons_self, hhas⟩)
  · simp [exec] at hstate
  · simp [exec] at hstate

theorem Drain.exec {role : Θ → Role} (h : Drain role s) (hs : s.stack θ = i :: rest)
    (henabled : (exec θ s.mem c i).enabled = true) (hcond : PushedInTime s) :
    Drain role (s.after θ rest (exec θ s.mem c i)) := by
  have hflow := exec_flow θ s.mem c i
  have hok := h.single.inv.ok i (Lib.Config.pending_top hs)
  have hgrows := exec_grows θ c hok
  have hstep : Step role s _ (s.after θ rest (Executor.exec θ s.mem c i)) := .exec c hs henabled
  refine ⟨h.single.exec hs, h.shape.step hstep, fun t ht ↦ ?_, fun t ht hnot ↦ ?_⟩
  · -- who has it, and who is handed it
    have hhands (hnext : ∃ j ∈ (Executor.exec θ s.mem c i).next, 0 < j.has t) :
        ∃ j, (s.after θ rest (Executor.exec θ s.mem c i)).Pending j ∧ 0 < j.has t := by
      obtain ⟨j, hj, hhas⟩ := hnext
      exact ⟨j, Lib.Config.pending_next hj, hhas⟩
    rcases (exec_taskChange θ s.mem c i).state_eq t with
      heq | ⟨rfl, -, heq⟩ | ⟨by_, rfl, hsub, -⟩ | ⟨state, rfl, heq⟩
    · rcases h.enqueued t (heq.symm.trans ht) with hqueue | ⟨j, hj, hhas⟩ | ⟨j, l, hcomes, hj⟩
      · exact (hflow.mem_queue hqueue).imp_right fun hnext ↦ .inl (hhands hnext)
      · rcases hj.after (e := Executor.exec θ s.mem c i) hs with rfl | hj
        · rcases has_exec hhas henabled ht with hqueue | hnext | ⟨rfl, hnext⟩
          · exact .inl hqueue
          · exact .inr (.inl (hhands hnext))
          · -- `Push` has found the queue closed, and its caller is below it
            obtain ⟨k, l, rfl, hk⟩ := (hs ▸ h.shape.followed θ).1 rfl
            refine .inr (.inr ⟨k, l, ?_, hk⟩)
            have hcomes : [Instr.store t .Canceled] <:+
                (Executor.exec θ s.mem c (.testClosed .tasks t)).next := by
              rw [hnext]
            exact Lib.Config.comes_next hcomes
        · exact .inr (.inl ⟨j, hj, hhas⟩)
      · rcases hcomes.after (e := Executor.exec θ s.mem c i) hs with heq' | hcomes
        · obtain ⟨rfl, rfl⟩ := List.cons.inj heq'
          simp [Executor.exec] at ht
        · exact .inr (.inr ⟨j, l, hcomes, hj⟩)
    · cases heq.symm.trans ht
    · refine .inr (.inl (hhands ⟨.testClosed .tasks t, ?_, by simp [Instr.has, Instr.carries]⟩))
      simp [Executor.exec, hsub]
    · rw [heq.symm.trans ht] at hok
      cases hok
  · have hbefore : ¬ s.mem.Finished t := fun hfin ↦ hnot (Mem.Finished.grows hfin hgrows)
    have hcases : t ∈ (s.mem.queue .tasks).queue_ ∨ i = .emplace .tasks t :=
      (exec_queueChange θ s.mem c i).mem_queue ht
    rcases hcases with hqueue | rfl
    · rcases h.queued t hqueue hbefore with hdrain | hclose
      · exact hdrain.exec hs henabled ht
      · exact .inr ((hclose.exec hs hqueue).resolve_left hnot)
    · exact (hcond t (Lib.Config.pending_top hs)).exec hs henabled ht

theorem Drain.step {role : Θ → Role} {l : Label T} {s' : State Θ T V E} (h : Drain role s)
    (hstep : Step role s l s') (hcond : PushedInTime s) : Drain role s' := by
  have hsingle := h.single.step hstep
  have hshape := h.shape.step hstep
  cases hstep with
  | exec c hs henabled => exact h.exec hs henabled hcond
  | @call θ call hcan hallowed =>
    have hqueue : (s.mem.call call).queue = s.mem.queue := by cases call <;> rfl
    have htask : (s.mem.call call).task = s.mem.task := by cases call <;> rfl
    refine ⟨hsingle, hshape, fun t ht ↦ ?_, fun t ht hnot ↦ ?_⟩
    · rw [Lib.Config.mem_after, htask] at ht
      rw [Lib.Config.mem_after, hqueue]
      rcases h.enqueued t ht with hmem | ⟨j, hj, hhas⟩ | ⟨j, l, hcomes, hj⟩
      · exact .inl hmem
      · exact .inr (.inl ⟨j, Lib.Config.pending_push.mpr (.inr hj), hhas⟩)
      · exact .inr (.inr ⟨j, l, hcomes.push, hj⟩)
    · rw [Lib.Config.mem_after, hqueue] at ht
      rw [Mem.Finished, Lib.Config.mem_after, htask] at hnot
      rcases h.queued t ht hnot with (hopen | hclose | ⟨i, hi, hloops⟩) | ⟨i, l, hcomes, hl, hi⟩
      · exact .inl (.inl (by rw [Lib.Config.mem_after, hqueue]; exact hopen))
      · exact .inl (.inr (.inl (Lib.Config.pending_push.mpr (.inr hclose))))
      · exact .inl (.inr (.inr ⟨i, Lib.Config.pending_push.mpr (.inr hi), hloops⟩))
      · exact .inr ⟨i, l, hcomes.push, hl, hi⟩
  | tick d => exact ⟨hsingle, hshape, h.enqueued, h.queued⟩

theorem drain_init [Inhabited V] (role : Θ → Role) : Drain role (init role : State Θ T V E) :=
  ⟨single_init role, stacks_init role, (fun _ h ↦ nomatch h), fun _ h ↦ nomatch h⟩

theorem drain_of_trace [Inhabited V] {role : Θ → Role} {h : List (State Θ T V E × Label T)}
    (hrun : Lib.Trace (Step role) (init role) h s) (hcond : ∀ x ∈ h, PushedInTime x.1) :
    Drain role s :=
  hrun.invariant_of_forall (C := fun s _ ↦ PushedInTime s) hcond (drain_init role)
    fun _ _ _ hinv hstep hc ↦ hinv.step hstep hc

/-! ## The result -/

/-- `Close` of the queue of the workers has returned: it is closed, and nobody is going to lock it
for `Close` or is in the critical section of `Close`. -/
structure Closed (s : State Θ T V E) : Prop where
  closed : (s.mem.queue .tasks).closed_ = true
  not_lock : ¬ s.Pending (.lockClose .tasks)
  not_section : ¬ s.Pending (.notifyAll .tasks)

/-- A task that has been enqueued is not `Waiting` any more. -/
theorem not_waiting_of_enqueued [Inhabited V] {role : Θ → Role}
    {h : List (State Θ T V E × Label T)} (hrun : Lib.Trace (Step role) (init role) h s) {t : T}
    (ht : ∃ x ∈ h, x.2 = .enqueued t) : ¬ s.mem.Waiting t := by
  refine (hrun.invariant
    (I := fun h s ↦ Invariant s ∧ ((∃ x ∈ h, x.2 = .enqueued t) → ¬ s.mem.Waiting t))
    ⟨invariant_init role, fun ⟨x, hx, _⟩ ↦ nomatch hx⟩
    fun h s l s' ⟨hinv, hwait⟩ hstep ↦ ⟨hinv.step hstep, ?_⟩).2 ht
  · cases hstep with
    | @exec θ i rest c hs henabled =>
      rintro ⟨x, hx, hl⟩ hw
      rcases List.mem_append.mp hx with hx | hx
      · exact hwait ⟨x, hx, hl⟩
          ((exec_grows θ c (hinv.ok i (Lib.Config.pending_top hs))).waiting hw)
      · rw [List.mem_singleton.mp hx] at hl
        rcases hw with hc | hc <;> exact nomatch hc.symm.trans (state_of_enqueued hl)
    | call call hcan hallowed =>
      rintro ⟨x, hx, hl⟩ hw
      rcases List.mem_append.mp hx with hx | hx
      · refine hwait ⟨x, hx, hl⟩ ?_
        rw [Mem.Waiting, Lib.Config.mem_after,
          show (s.mem.call call).task = s.mem.task by cases call <;> rfl] at hw
        exact hw
      · rw [List.mem_singleton.mp hx] at hl
        cases hl
    | tick d =>
      rintro ⟨x, hx, hl⟩ hw
      rcases List.mem_append.mp hx with hx | hx
      · exact hwait ⟨x, hx, hl⟩ hw
      · rw [List.mem_singleton.mp hx] at hl
        cases hl

/-- **Shutdown loses no task, in runs where every `Push` is in time.**  If in a run no `Push` is
about to put a task into the queue of the workers when it is closed, `Close` has locked it and no
worker will pop again, then in a state in which `Close` has returned, all workers have left and no
`Push` is in progress, every task that was ever enqueued is finished, and so is every task in the
queue. -/
theorem finished_after_close [Inhabited V] {role : Θ → Role} {h : List (State Θ T V E × Label T)}
    (hrun : Lib.Trace (Step role) (init role) h s) (hcond : ∀ x ∈ h, PushedInTime x.1)
    (hclosed : Closed s) (hworkers : ∀ θ, role θ = .worker → s.stack θ = [])
    (hpush : ∀ t, ¬ Pushing s t) :
    (∀ t, (∃ x ∈ h, x.2 = .enqueued t) → s.mem.Finished t) ∧
      ∀ t ∈ (s.mem.queue .tasks).queue_, s.mem.Finished t := by
  have hdrain := drain_of_trace hrun hcond
  have hleft {i : Instr T V E} (hi : s.Pending i) : i.works = false := by
    obtain ⟨θ, hi⟩ := hi
    by_contra hworks
    have hrole := hdrain.shape.works θ i hi (Bool.eq_true_of_not_eq_false hworks)
    rw [hworkers θ hrole] at hi
    cases hi
  have hqueue : ∀ t ∈ (s.mem.queue .tasks).queue_, s.mem.Finished t := by
    intro t ht
    by_contra hnot
    rcases hdrain.queued t ht hnot with (hopen | hclose | ⟨i, hi, hloops⟩) | ⟨i, l, hcomes, hl, -⟩
    · exact Bool.false_ne_true (hopen.symm.trans hclosed.closed)
    · exact hclosed.not_lock hclose
    · have hworks := hleft hi
      cases i with
      | lockPop q => cases q <;> simp_all [Instr.loops, Instr.works]
      | testPop q => cases q <;> simp_all [Instr.loops, Instr.works]
      | sleep q => cases q <;> simp_all [Instr.loops, Instr.works]
      | _ => cases hloops
    · exact hclosed.not_section (hcomes.pending_of_mem (List.mem_cons_of_mem i hl))
  refine ⟨fun t ht ↦ ?_, hqueue⟩
  have hwait := not_waiting_of_enqueued hrun ht
  by_contra hnot
  have hstate : (s.mem.task t).state_ = .Enqueued := by
    rw [Mem.Finished] at hnot
    rw [Mem.Waiting] at hwait
    cases hc : (s.mem.task t).state_ <;> simp_all [TaskStates.finished]
  rcases hdrain.enqueued t hstate with hmem | ⟨i, hi, hhas⟩ | ⟨j, l, hcomes, hj⟩
  · exact hnot (hqueue t hmem)
  · -- it is in the hands of a `Push` or of a worker
    have hworks := hleft hi
    rcases Instr.of_has_pos hhas with
      rfl | rfl | rfl | rfl | rfl | rfl | ⟨e, rfl⟩ | rfl | rfl
    · exact hpush t (.inl hi)
    · exact hpush t (.inr (.inl hi))
    · exact hpush t (.inr (.inr (.inl hi)))
    all_goals cases hworks
  · exact hpush t (.inr (.inr (.inr ⟨j, l, hcomes, hj⟩)))

end

section

variable [Fintype Θ] [DecidableEq V] [DecidableEq E]

instance (s : State Θ T V E) (i : Instr T V E) : Decidable (s.Pending i) :=
  decidable_of_iff (∃ θ, i ∈ s.stack θ) Iff.rfl

instance (s : State Θ T V E) : Decidable (Draining s) :=
  decidable_of_iff ((s.mem.queue .tasks).closed_ = false ∨ s.Pending (.lockClose .tasks) ∨
      ∃ θ, ∃ i ∈ s.stack θ, i.loops = true)
    (or_congr Iff.rfl (or_congr Iff.rfl
      ⟨fun ⟨θ, i, hi, h⟩ ↦ ⟨i, ⟨θ, hi⟩, h⟩, fun ⟨i, ⟨θ, hi⟩, h⟩ ↦ ⟨θ, i, hi, h⟩⟩))

instance [Fintype T] (s : State Θ T V E) : Decidable (PushedInTime s) :=
  inferInstanceAs (Decidable (∀ t, s.Pending (.emplace .tasks t) → Draining s))

end

omit [DecidableEq T] [DecidableEq Θ] in
/-- When all threads have come to their end, nothing is in progress. -/
theorem not_pending_of_idle {s : State Θ T V E} (hidle : ∀ θ, s.stack θ = []) (i : Instr T V E) :
    ¬ s.Pending i := by
  rintro ⟨θ, hi⟩
  rw [hidle θ] at hi
  cases hi

omit [DecidableEq T] [DecidableEq Θ] in
theorem not_pushing_of_idle {s : State Θ T V E} (hidle : ∀ θ, s.stack θ = []) (t : T) :
    ¬ Pushing s t := by
  rintro (h | h | h | ⟨j, l, h, -⟩)
  · exact not_pending_of_idle hidle _ h
  · exact not_pending_of_idle hidle _ h
  · exact not_pending_of_idle hidle _ h
  · exact not_pending_of_idle hidle _ h.pending

/-- A task is in the queue when `Close` locks it; `Close` cancels it, and a worker pops it and
leaves. -/
theorem finished_after_close_queued :
    ∃ (h : List (State (Fin 3) (Fin 1) Unit Unit × Label (Fin 1)))
      (s : State (Fin 3) (Fin 1) Unit Unit),
      Lib.Trace (Step twoUsers) (init twoUsers) h s ∧ Closed s ∧ (∃ x ∈ h, x.2 = .enqueued 0) ∧
        s.mem.Finished 0 := by
  obtain ⟨h, s, hrun, hp⟩ := exists_trace_of_play twoUsers
    (init twoUsers : State (Fin 3) (Fin 1) Unit Unit)
    ([.call 0 (.submit 0)] ++ Action.steps 0 15 ++ [.call 1 .startShutdown] ++ Action.steps 1 16 ++
      Action.steps 2 7)
    (fun x ↦ (∀ θ, x.2.stack θ = []) ∧ (x.2.mem.queue .tasks).closed_ = true ∧
      (∀ y ∈ x.1, PushedInTime y.1) ∧ ∃ y ∈ x.1, y.2 = .enqueued 0)
    (by decide +kernel)
  obtain ⟨hidle, hqueue, hcond, henqueued⟩ := of_decide_eq_true hp
  have hclosed : Closed s :=
    ⟨hqueue, not_pending_of_idle hidle _, not_pending_of_idle hidle _⟩
  exact ⟨h, s, hrun, hclosed, henqueued,
    (finished_after_close hrun hcond hclosed (fun θ _ ↦ hidle θ) (not_pushing_of_idle hidle)).1 0
      henqueued⟩

/-- `Push` finds the queue open; then `Close` goes through the empty queue and the worker leaves;
then `Push` puts the task into the queue, where it stays. -/
theorem left_in_queue :
    ∃ (h : List (State (Fin 3) (Fin 1) Unit Unit × Label (Fin 1)))
      (s : State (Fin 3) (Fin 1) Unit Unit),
      Lib.Trace (Step twoUsers) (init twoUsers) h s ∧ Closed s ∧
        (∀ θ, twoUsers θ = .worker → s.stack θ = []) ∧ (∀ t, ¬ Pushing s t) ∧
        (∃ x ∈ h, x.2 = .enqueued 0) ∧ 0 ∈ (s.mem.queue .tasks).queue_ ∧ ¬ s.mem.Finished 0 := by
  obtain ⟨h, s, hrun, hp⟩ := exists_trace_of_play twoUsers
    (init twoUsers : State (Fin 3) (Fin 1) Unit Unit)
    ([.call 0 (.submit 0)] ++ Action.steps 0 9 ++ [.call 1 .startShutdown] ++ Action.steps 1 11 ++
      Action.steps 2 3 ++ Action.steps 0 6)
    (fun x ↦ (∀ θ, x.2.stack θ = []) ∧ (x.2.mem.queue .tasks).closed_ = true ∧
      (∃ y ∈ x.1, y.2 = .enqueued 0) ∧ 0 ∈ (x.2.mem.queue .tasks).queue_ ∧ ¬ x.2.mem.Finished 0)
    (by decide +kernel)
  obtain ⟨hidle, hqueue, henqueued, hmem, hnot⟩ := of_decide_eq_true hp
  exact ⟨h, s, hrun, ⟨hqueue, not_pending_of_idle hidle _, not_pending_of_idle hidle _⟩,
    fun θ _ ↦ hidle θ, not_pushing_of_idle hidle, henqueued, hmem, hnot⟩

end Executor
end ManyTasks
