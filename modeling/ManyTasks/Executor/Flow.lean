import ManyTasks.Executor.Machine

/-!
# Where the instructions lead

`Flow m i next l tasks` lists the branches of `exec`: in the memory `m` the instruction `i` may go
on with `next`, it is seen as `l`, and leaves `tasks` in the queue of the workers.  Most branches
are not seen and leave that queue alone (`Leads`).  What an instruction does to the rest of the
memory is not in it.  Arguments about what the threads have in their hands are arguments about these
lists.
-/

set_option autoImplicit false

namespace ManyTasks
namespace Executor

variable {Θ T V E : Type}

/-- Nothing may follow from the instruction. -/
def Instr.mayEnd : Instr T V E → Bool
  | .testCanceled _ | .running _ | .timerTest _ | .testEnqueued _ | .testFinished _ => true
  | .linkDependency _ _ | .linkTrigger _ _ | .setTimeTrigger _ _ | .unlockTask _ => true
  | .testSubmitted _ _ | .testDependencies _ _ | .testQueue _ _ | .casEnqueued _ _ => true
  | .clearLists _ | .emplace .timer _ | .notifyOne _ | .notifyAll _ | .unlockQueue _ => true
  | .testDeadline | .setClosed _ => true
  | _ => false

/-- The branches of `exec` that are not seen, and leave the queue of the workers as it is. -/
inductive Leads (m : Mem Θ T V E) : Instr T V E → List (Instr T V E) → Prop where
  | testCanceled (t : T) (h : (m.task t).state_ ≠ .Canceled) : Leads m (.testCanceled t) [.run t]
  | returns (t : T) : Leads m (.running t) [.store t .Completed]
  | throws (t : T) (e : E) : Leads m (.running t) [.setError t e]
  | setError (t : T) (e : E) : Leads m (.setError t e) [.store t .Failed]
  | timerTest (t : T) : Leads m (.timerTest t) [.testQueue .timer t]
  | testEnqueued (t : T) : Leads m (.testEnqueued t) [.testFinished t]
  | testFinished (t : T) : Leads m (.testFinished t) [.testClosed .timer t]
  | addDepended (d t : T) : Leads m (.addDepended d t) [.testDepended d t]
  | testDepended (d t : T) (h : (m.task d).state_.finished = false) :
      Leads m (.testDepended d t) [.register d t]
  | tooLate (d t : T) : Leads m (.testDepended d t) [.unlockTask d, .linkDependency t d]
  | register (d t : T) : Leads m (.register d t) [.unlockTask d, .linkDependency t d]
  | addTriggered (d t : T) : Leads m (.addTriggered d t) [.testTriggered d t]
  | testTriggered (d t : T) (h : (m.task d).state_.finished = false) :
      Leads m (.testTriggered d t) [.registerTrigger d t]
  | triggered (d t : T) : Leads m (.testTriggered d t) [.activate d t]
  | registerTrigger (d t : T) : Leads m (.registerTrigger d t) [.unlockTask d, .linkTrigger t d]
  | activate (d t : T) : Leads m (.activate d t) [.unlockTask d, .linkTrigger t d]
  | onFinished (t : T) : Leads m (.onFinished t) [.finishDepended t]
  | finishDepended (t x : T) :
      Leads m (.finishDepended t) [.testSubmitted (.finished t) x, .finishDepended t]
  | dependedDone (t : T) : Leads m (.finishDepended t) [.finishTriggered t]
  | finishTriggered (t x : T) :
      Leads m (.finishTriggered t) [.testSubmitted (.finished t) x, .finishTriggered t]
  | triggeredDone (t : T) : Leads m (.finishTriggered t) [.unlockTask t]
  | testSubmitted (by_ : Caller T) (t : T) : Leads m (.testSubmitted by_ t) [.testTriggers by_ t]
  | testTriggers (by_ : Caller T) (t : T) : Leads m (.testTriggers by_ t) [.testDependencies by_ t]
  | readyTriggers (by_ : Caller T) (t : T) : Leads m (.testTriggers by_ t) [.testQueue by_ t]
  | testDependencies (by_ : Caller T) (t : T) : Leads m (.testDependencies by_ t) [.testQueue by_ t]
  | testQueue (by_ : Caller T) (t : T) : Leads m (.testQueue by_ t) [.casEnqueued by_ t]
  | setQueue (t : T) : Leads m (.setQueue t) [.casSubmitted t]
  | casSubmitted (t : T) : Leads m (.casSubmitted t) [.testSubmitted .submit t, .testEnqueued t]
  | notCreated (t : T) : Leads m (.casSubmitted t) [.testEnqueued t]
  | testClosed (q : Which) (t : T) : Leads m (.testClosed q t) [.lockPush q t]
  | pushClosed (q : Which) (t : T) : Leads m (.testClosed q t) [.store t .Canceled]
  | lockPush (q : Which) (t : T) :
      Leads m (.lockPush q t) [.emplace q t, .notifyOne q, .unlockQueue q]
  | lockPop (q : Which) : Leads m (.lockPop q) [.testPop q]
  | popClosed (q : Which) : Leads m (.testPop q) [.unlockQueue q]
  | popEmpty (q : Which) : Leads m (.testPop q) [.sleep q]
  | popTimer : Leads m (.testPop .timer) [.testDeadline]
  | sleep (q : Which) : Leads m (.sleep q) [.lockPop q]
  | lockTimer : Leads m .lockTimer [.testDeadline]
  | tooEarly (at_ : ℕ) : Leads m .testDeadline [.sleepUntil at_]
  | testDeadline (t : T) :
      Leads m .testDeadline [.unlockQueue .timer, .timerTest t, .lockPop .timer]
  | sleepUntil (at_ : ℕ) : Leads m (.sleepUntil at_) [.lockTimer]
  | setClosed (q : Which) : Leads m (.setClosed q) [.lockClose q]
  | lockClose (q : Which) (j : Instr T V E) (h : j = .notifyAll q ∨ j = .notifyOne q) :
      Leads m (.lockClose q) [.cancelAll q, j, .unlockQueue q]
  | cancelAll (q : Which) (ts : List T) : Leads m (.cancelAll q) (ts.map fun t ↦ .store t .Canceled)
  | done (i : Instr T V E) (h : i.mayEnd = true) : Leads m i []

/-- The branches of `exec`. -/
inductive Flow (m : Mem Θ T V E) : Instr T V E → List (Instr T V E) → Label T → List T → Prop where
  | quiet {i : Instr T V E} {next : List (Instr T V E)} (h : Leads m i next) :
      Flow m i next .none (m.queue .tasks).queue_
  | run (t : T) : Flow m (.run t) [.running t] (.started t) (m.queue .tasks).queue_
  | casEnqueued (by_ : Caller T) (t : T) (h : (m.task t).state_ = .Submitted) :
      Flow m (.casEnqueued by_ t) [.clearLists t, .testClosed .tasks t] (.enqueued t)
        (m.queue .tasks).queue_
  | store (t : T) (state : TaskStates) :
      Flow m (.store t state) [.onFinished t] (.stored t state) (m.queue .tasks).queue_
  | emplaceTasks (t : T) : Flow m (.emplace .tasks t) [] .none ((m.queue .tasks).queue_ ++ [t])
  | popTasks (t : T) (ts : List T) (h : (m.queue .tasks).queue_ = t :: ts) :
      Flow m (.testPop .tasks) [.unlockQueue .tasks, .testCanceled t, .lockPop .tasks] .none ts
  | returned (call : Call T) : Flow m (.returned call) [] (.returned call) (m.queue .tasks).queue_

/-- A change of a queue that leaves what is in it. -/
theorem Leads.onQueue {m : Mem Θ T V E} {i : Instr T V E} {next : List (Instr T V E)}
    (h : Leads m i next) (q : Which) (f : Queue Θ T → Queue Θ T)
    (hf : ∀ r, (f r).queue_ = r.queue_) :
    Flow m i next .none ((m.onQueue q f).queue .tasks).queue_ := by
  have heq : ((m.onQueue q f).queue .tasks).queue_ = (m.queue .tasks).queue_ := by
    cases q with
    | tasks => exact hf _
    | timer => rfl
  rw [heq]
  exact .quiet h

theorem exec_flow [DecidableEq Θ] [DecidableEq T] (θ : Θ) (m : Mem Θ T V E) (c : Choice Θ T V E)
    (i : Instr T V E) :
    Flow m i (exec θ m c i).next (exec θ m c i).label ((exec θ m c i).mem.queue .tasks).queue_ := by
  cases i with
  | testCanceled t =>
    by_cases h : (m.task t).state_ = .Canceled
    · dsimp only [exec]
      rw [if_pos h]
      exact .quiet (.done _ rfl)
    · dsimp only [exec]
      rw [if_neg h]
      exact .quiet (.testCanceled t h)
  | run t => exact .run t
  | running t =>
    cases c with
    | value v => exact .quiet (.returns t)
    | throw e => exact .quiet (.throws t e)
    | _ => exact .quiet (.done _ rfl)
  | setError t e => exact .quiet (.setError t e)
  | timerTest t =>
    dsimp only [exec]
    split
    · exact .quiet (.done _ rfl)
    · exact .quiet (.timerTest t)
  | testEnqueued t =>
    dsimp only [exec]
    split
    · exact .quiet (.done _ rfl)
    · exact .quiet (.testEnqueued t)
  | testFinished t =>
    dsimp only [exec]
    split
    · exact .quiet (.done _ rfl)
    · exact .quiet (.testFinished t)
  | addDepended d t => exact .quiet (.addDepended d t)
  | testDepended d t =>
    dsimp only [exec]
    split
    · exact .quiet (.tooLate d t)
    · rename_i h
      exact .quiet (.testDepended d t (Bool.eq_false_of_not_eq_true h))
  | register d t => exact .quiet (.register d t)
  | addTriggered d t => exact .quiet (.addTriggered d t)
  | testTriggered d t =>
    dsimp only [exec]
    split
    · exact .quiet (.triggered d t)
    · rename_i h
      exact .quiet (.testTriggered d t (Bool.eq_false_of_not_eq_true h))
  | registerTrigger d t => exact .quiet (.registerTrigger d t)
  | activate d t => exact .quiet (.activate d t)
  | onFinished t => exact .quiet (.onFinished t)
  | finishDepended t =>
    dsimp only [exec]
    split
    · exact .quiet (.dependedDone t)
    · exact .quiet (.finishDepended t _)
  | finishTriggered t =>
    dsimp only [exec]
    split
    · exact .quiet (.triggeredDone t)
    · exact .quiet (.finishTriggered t _)
  | testSubmitted by_ t =>
    dsimp only [exec]
    split
    · exact .quiet (.testSubmitted by_ t)
    · exact .quiet (.done _ rfl)
  | testTriggers by_ t =>
    dsimp only [exec]
    split
    · exact .quiet (.readyTriggers by_ t)
    · exact .quiet (.testTriggers by_ t)
  | testDependencies by_ t =>
    dsimp only [exec]
    split
    · exact .quiet (.testDependencies by_ t)
    · exact .quiet (.done _ rfl)
  | testQueue by_ t =>
    dsimp only [exec]
    split
    · exact .quiet (.testQueue by_ t)
    · exact .quiet (.done _ rfl)
  | casEnqueued by_ t =>
    dsimp only [exec]
    split
    · rename_i h
      exact .casEnqueued by_ t h
    · exact .quiet (.done _ rfl)
  | setQueue t => exact .quiet (.setQueue t)
  | casSubmitted t =>
    dsimp only [exec]
    split
    · exact .quiet (.casSubmitted t)
    · exact .quiet (.notCreated t)
  | store t state => exact .store t state
  | testClosed q t =>
    dsimp only [exec]
    split
    · exact .quiet (.pushClosed q t)
    · exact .quiet (.testClosed q t)
  | returned call => exact .returned call
  | lockPush q t =>
    exact (Leads.lockPush q t).onQueue q (fun r ↦ { r with edit_queue_ := some θ }) fun _ ↦ rfl
  | emplace q t =>
    cases q with
    | tasks => exact .emplaceTasks t
    | timer => exact .quiet (.done _ rfl)
  | notifyOne q =>
    cases c with
    | wake θ' =>
      exact (Leads.done _ rfl).onQueue q
        (fun r ↦ { r with waiting_pop_ := r.waiting_pop_.erase θ' }) fun _ ↦ rfl
    | _ => exact .quiet (.done _ rfl)
  | notifyAll q =>
    exact (Leads.done _ rfl).onQueue q (fun r ↦ { r with waiting_pop_ := [] }) fun _ ↦ rfl
  | unlockQueue q =>
    exact (Leads.done _ rfl).onQueue q (fun r ↦ { r with edit_queue_ := none }) fun _ ↦ rfl
  | lockPop q =>
    exact (Leads.lockPop q).onQueue q (fun r ↦ { r with edit_queue_ := some θ }) fun _ ↦ rfl
  | testPop q =>
    dsimp only [exec]
    split
    · split
      · exact .quiet (.popClosed q)
      · exact (Leads.popEmpty q).onQueue q
          (fun r ↦ { r with edit_queue_ := none, waiting_pop_ := θ :: r.waiting_pop_ }) fun _ ↦ rfl
    · rename_i t ts h
      cases q with
      | tasks => exact .popTasks t ts h
      | timer => exact .quiet .popTimer
  | sleep q =>
    exact (Leads.sleep q).onQueue q
      (fun r ↦ { r with waiting_pop_ := r.waiting_pop_.erase θ }) fun _ ↦ rfl
  | lockTimer => exact .quiet .lockTimer
  | testDeadline =>
    cases c with
    | front t =>
      dsimp only [exec]
      split
      · split
        · exact .quiet (.tooEarly _)
        · exact .quiet (.testDeadline t)
      · exact .quiet (.done _ rfl)
    | _ => exact .quiet (.done _ rfl)
  | sleepUntil at_ => exact .quiet (.sleepUntil at_)
  | setClosed q =>
    dsimp only [exec]
    split
    · exact .quiet (.done _ rfl)
    · exact (Leads.setClosed q).onQueue q (fun r ↦ { r with closed_ := true }) fun _ ↦ rfl
  | lockClose q =>
    cases q with
    | tasks =>
      exact (Leads.lockClose .tasks _ (.inl rfl)).onQueue .tasks
        (fun r ↦ { r with edit_queue_ := some θ }) fun _ ↦ rfl
    | timer => exact .quiet (.lockClose .timer _ (.inr rfl))
  | cancelAll q => exact .quiet (.cancelAll q _)
  | linkDependency t d => exact .quiet (.done _ rfl)
  | linkTrigger t d => exact .quiet (.done _ rfl)
  | setTimeTrigger t at_ => exact .quiet (.done _ rfl)
  | unlockTask t => exact .quiet (.done _ rfl)
  | clearLists t => exact .quiet (.done _ rfl)

/-! ## Where an instruction comes from -/

section

variable {m : Mem Θ T V E} {i : Instr T V E} {next : List (Instr T V E)} {l : Label T}
  {tasks : List T}

theorem Flow.of_mem_casSubmitted (h : Flow m i next l tasks) {t : T}
    (hj : .casSubmitted t ∈ next) : i = .setQueue t := by
  cases h with
  | quiet h =>
    cases h with
    | lockClose q j hnotify => rcases hnotify with rfl | rfl <;> simp at hj
    | _ => simp_all
  | _ => simp at hj

theorem Flow.of_mem_register (h : Flow m i next l tasks) {d t : T} (hj : .register d t ∈ next) :
    i = .testDepended d t ∧ (m.task d).state_.finished = false := by
  cases h with
  | quiet h =>
    cases h with
    | lockClose q j hnotify => rcases hnotify with rfl | rfl <;> simp at hj
    | _ => simp_all
  | _ => simp at hj

theorem Flow.of_mem_registerTrigger (h : Flow m i next l tasks) {d t : T}
    (hj : .registerTrigger d t ∈ next) :
    i = .testTriggered d t ∧ (m.task d).state_.finished = false := by
  cases h with
  | quiet h =>
    cases h with
    | lockClose q j hnotify => rcases hnotify with rfl | rfl <;> simp at hj
    | _ => simp_all
  | _ => simp at hj

theorem Flow.of_mem_linkTrigger (h : Flow m i next l tasks) {t d : T}
    (hj : .linkTrigger t d ∈ next) : i = .registerTrigger d t ∨ i = .activate d t := by
  cases h with
  | quiet h =>
    cases h with
    | lockClose q j hnotify => rcases hnotify with rfl | rfl <;> simp at hj
    | _ => simp_all
  | _ => simp at hj

theorem Flow.of_mem_run (h : Flow m i next l tasks) {t : T} (hj : .run t ∈ next) :
    i = .testCanceled t ∧ (m.task t).state_ ≠ .Canceled := by
  cases h with
  | quiet h =>
    cases h with
    | lockClose q j hnotify => rcases hnotify with rfl | rfl <;> simp at hj
    | _ => simp_all
  | _ => simp at hj

theorem Flow.returned_not_mem (h : Flow m i next l tasks) (call : Call T) :
    .returned call ∉ next := by
  cases h with
  | quiet h =>
    cases h with
    | lockClose q j hnotify => rcases hnotify with rfl | rfl <;> simp
    | _ => simp
  | _ => simp

/-- No instruction is repeated at once. -/
theorem Flow.next_ne (h : Flow m i next l tasks) : next ≠ [i] := by
  cases h with
  | quiet h =>
    cases h with
    | cancelAll q ts =>
      intro heq
      obtain ⟨t, -, ht⟩ := List.map_eq_singleton_iff.mp heq
      cases ht
    | _ => simp
  | _ => simp

theorem Flow.of_returned (h : Flow m i next l tasks) {call : Call T} (hl : l = .returned call) :
    i = .returned call := by
  cases h with
  | returned call' => rw [Label.returned.inj hl]
  | _ => cases hl

/-- The return of a call comes after its body. -/
theorem Call.split_code {call call' : Call T} {pre post : List (Instr T V E)}
    (h : call.code ++ [.returned call] = pre ++ .returned call' :: post) :
    call = call' ∧ pre = call.code := by
  rcases Lib.Config.split_append h with ⟨pre', rfl, hpre⟩ | ⟨post', hcode⟩
  · rcases pre' with _ | ⟨x, pre'⟩
    · obtain ⟨hcall, -⟩ := List.cons.inj hpre
      exact ⟨Instr.returned.inj hcall, List.append_nil _⟩
    · simp at hpre
  · have hmem : Instr.returned call' ∈ (call.code : List (Instr T V E)) := by
      rw [hcode]
      exact List.mem_append_right _ List.mem_cons_self
    cases call <;> simp [Call.code] at hmem

/-- A call that returns is at the top of its thread. -/
theorem Step.of_returned [DecidableEq Θ] [DecidableEq T] {role : Θ → Role} {s s' : State Θ T V E}
    {call : Call T} (hstep : Step role s (.returned call) s') :
    ∃ θ rest, s.stack θ = .returned call :: rest := by
  generalize hl : Label.returned call = l at hstep
  cases hstep with
  | @exec θ i rest c hs henabled =>
    rw [(exec_flow θ s.mem c i).of_returned hl.symm] at hs
    exact ⟨θ, rest, hs⟩
  | call c hcan hallowed => cases hl
  | tick d => cases hl

end

end Executor
end ManyTasks
