import ManyTasks.Executor.Flow
import ManyTasks.Executor.Memory
import ManyTasks.Executor.Schedule
import ManyTasks.Executor.Section

/-!
# Shutdown and the timer thread

`Close` of a `TimerQueue` sets the flag and then notifies the timer thread, once.  A thread that is
asleep because the queue is empty finds the flag set when it wakes up.  A thread that is asleep
until the start time of the front does not look at the flag: it compares the clock with the start
time again, and goes back to sleep if it is early.  Nobody notifies it a second time.

So `Close` may have returned while the timer thread sleeps (`asleep_after_close`).  This does not
happen in runs in which the timer thread, once it has been notified by `Close`, finds the front due
whenever it compares (`prompt_iff`).
-/

set_option autoImplicit false

namespace ManyTasks
namespace Executor

open Lib (Trace)

variable {Θ T V E : Type}

/-! ## Who sleeps -/

/-- The loop of the timer thread. -/
def Instr.timer : Instr T V E → Bool
  | .lockPop .timer | .testPop .timer | .sleep .timer => true
  | .lockTimer | .testDeadline | .sleepUntil _ => true
  | _ => false

/-- Asleep on `waiting_pop_`, with a time limit or without. -/
def Instr.sleeps : Instr T V E → Bool
  | .sleep .timer | .sleepUntil _ => true
  | _ => false

theorem Instr.timer_of_sleeps (i : Instr T V E) (hi : i.sleeps = true) : i.timer = true := by
  cases i with
  | sleep q => cases q <;> first | rfl | cases hi
  | sleepUntil at_ => rfl
  | _ => cases hi

/-- Who is asleep on `waiting_pop_` of the timer and not notified. -/
def Mem.sleepers (m : Mem Θ T V E) : List Θ := (m.queue .timer).waiting_pop_

/-- What an instruction can do to those that sleep. -/
inductive SleepersChange [DecidableEq Θ] (θ : Θ) (m : Mem Θ T V E) (c : Choice Θ T V E) :
    Instr T V E → List (Instr T V E) → List Θ → Prop where
  | same (i : Instr T V E) (next : List (Instr T V E)) (hi : i.sleeps = false)
      (hnotify : i = .notifyOne .timer → m.sleepers = []) : SleepersChange θ m c i next m.sleepers
  | notifyOne (θ' : Θ) (h : θ' ∈ m.sleepers) :
      SleepersChange θ m c (.notifyOne .timer) [] (m.sleepers.erase θ')
  | notifyAll : SleepersChange θ m c (.notifyAll .timer) [] []
  | wakesUp (i : Instr T V E) (next : List (Instr T V E)) (hi : i.sleeps = true) :
      SleepersChange θ m c i next (m.sleepers.erase θ)
  | waits (hopen : (m.queue .timer).closed_ = false) :
      SleepersChange θ m c (.testPop .timer) [.sleep .timer] (θ :: m.sleepers)
  | waitsUntil (t : T) (hc : c = .front t) (hearly : m.now < (m.task t).start_at_) :
      SleepersChange θ m c .testDeadline [.sleepUntil (m.task t).start_at_] (θ :: m.sleepers)

section

variable [DecidableEq Θ]

theorem sleepersChange_same {θ : Θ} {m : Mem Θ T V E} {c : Choice Θ T V E} {i : Instr T V E}
    {next : List (Instr T V E)} {m' : Mem Θ T V E} (hi : i.sleeps = false)
    (hnotify : i ≠ .notifyOne .timer) (hm : m'.sleepers = m.sleepers) :
    SleepersChange θ m c i next m'.sleepers := by
  rw [hm]
  exact .same i next hi fun h ↦ absurd h hnotify

theorem exec_sleepersChange [DecidableEq T] (θ : Θ) (m : Mem Θ T V E) (c : Choice Θ T V E)
    (i : Instr T V E) (henabled : (exec θ m c i).enabled = true) :
    SleepersChange θ m c i (exec θ m c i).next (exec θ m c i).mem.sleepers := by
  cases i with
  | lockPush q t => cases q <;> exact sleepersChange_same rfl (by simp) rfl
  | emplace q t => cases q <;> exact sleepersChange_same rfl (by simp) rfl
  | unlockQueue q => cases q <;> exact sleepersChange_same rfl (by simp) rfl
  | lockPop q => cases q <;> exact sleepersChange_same rfl (by simp) rfl
  | lockClose q => cases q <;> exact sleepersChange_same rfl (by simp) rfl
  | setClosed q =>
    dsimp only [exec]
    split
    · exact sleepersChange_same rfl (by simp) rfl
    · cases q <;> exact sleepersChange_same rfl (by simp) rfl
  | notifyOne q =>
    cases q with
    | tasks => cases c <;> exact sleepersChange_same rfl (by simp) rfl
    | timer =>
      cases c with
      | wake θ' => exact .notifyOne θ' (List.contains_iff_mem.mp henabled)
      | _ => exact .same _ _ rfl fun _ ↦ List.isEmpty_iff.mp henabled
  | notifyAll q =>
    cases q with
    | tasks => exact sleepersChange_same rfl (by simp) rfl
    | timer => exact .notifyAll
  | sleep q =>
    cases q with
    | tasks => exact sleepersChange_same rfl (by simp) rfl
    | timer => exact .wakesUp _ _ rfl
  | sleepUntil at_ => exact .wakesUp _ _ rfl
  | testPop q =>
    dsimp only [exec]
    split
    · split
      · exact sleepersChange_same rfl (by simp) rfl
      · rename_i hopen
        cases q with
        | tasks => exact sleepersChange_same rfl (by simp) rfl
        | timer => exact .waits (Bool.eq_false_of_not_eq_true hopen)
    · cases q <;> exact sleepersChange_same rfl (by simp) rfl
  | testDeadline =>
    cases c with
    | front t =>
      dsimp only [exec] at henabled ⊢
      split
      · split
        · rename_i hearly
          exact .waitsUntil t rfl hearly
        · exact sleepersChange_same rfl (by simp) rfl
      · exact sleepersChange_same rfl (by simp) rfl
    | _ => cases henabled
  | running t => cases c <;> exact sleepersChange_same rfl (by simp) rfl
  | finishDepended t => dsimp only [exec]; split <;> exact sleepersChange_same rfl (by simp) rfl
  | finishTriggered t => dsimp only [exec]; split <;> exact sleepersChange_same rfl (by simp) rfl
  | casEnqueued by_ t => dsimp only [exec]; split <;> exact sleepersChange_same rfl (by simp) rfl
  | casSubmitted t => dsimp only [exec]; split <;> exact sleepersChange_same rfl (by simp) rfl
  | _ => exact sleepersChange_same rfl (by simp) rfl

end

/-! ## The calls of `Close` -/

/-- `Close` is called from `StartShutdown`, last. -/
def Returns (i : Instr T V E) (l : List (Instr T V E)) : Prop :=
  i = .setClosed .timer ∨ i = .lockClose .timer → ∃ l', l = .returned .startShutdown :: l'

/-- A call of `Close` that has set the flag has yet to notify the timer thread. -/
def ClosePending (s : State Θ T V E) : Prop :=
  s.Pending (.lockClose .timer) ∨
    ∃ l, s.Comes (.notifyOne .timer :: .unlockQueue .timer :: .returned .startShutdown :: l)

section

variable {m : Mem Θ T V E} {i : Instr T V E} {next : List (Instr T V E)} {l : Label T}
  {tasks : List T}

theorem Flow.timer_eq (h : Flow m i next l tasks) (hi : i.timer = false) :
    ∀ j ∈ next, j.timer = false := by
  cases h with
  | quiet h =>
    cases h with
    | lockClose q j hj => rcases hj with rfl | rfl <;> simp [Instr.timer]
    | lockPop q => cases q <;> simp_all [Instr.timer]
    | popEmpty q => cases q <;> simp_all [Instr.timer]
    | sleep q => cases q <;> simp_all [Instr.timer]
    | _ => simp_all [Instr.timer]
  | _ => simp_all [Instr.timer]

theorem Flow.returns (h : Flow m i next l tasks) {rest : List (Instr T V E)} (hi : Returns i rest) :
    Lib.Each (fun j l ↦ Returns j (l ++ rest)) next := by
  cases h with
  | quiet h =>
    cases h with
    | lockClose q j hj => rcases hj with rfl | rfl <;> simp [Lib.Each, Returns]
    | cancelAll q ts => exact Lib.each_of_forall (by simp [Returns])
    | _ => simp_all [Lib.Each, Returns]
  | _ => simp_all [Lib.Each, Returns]

end

variable [DecidableEq Θ] [DecidableEq T]

section

variable {s : State Θ T V E} {θ : Θ} {i : Instr T V E} {rest : List (Instr T V E)}
  {c : Choice Θ T V E}

/-- `Close` is going to notify until it does. -/
theorem ClosePending.exec (h : ClosePending s) (hs : s.stack θ = i :: rest)
    (hi : i ≠ .notifyOne .timer) (hreturns : Returns i rest) :
    ClosePending (s.after θ rest (exec θ s.mem c i)) := by
  rcases h with hlock | ⟨l, hcomes⟩
  · rcases hlock.after hs with rfl | hlock
    · obtain ⟨l', rfl⟩ := hreturns (.inr rfl)
      have hcomes : (s.after θ (.returned .startShutdown :: l') (Executor.exec θ s.mem c
          (.lockClose .timer))).Comes ([.notifyOne .timer, .unlockQueue .timer] ++
            .returned .startShutdown :: l') := Lib.Config.comes_next (List.suffix_cons _ _)
      exact .inr ⟨l', hcomes⟩
    · exact .inl hlock
  · rcases hcomes.after hs with heq | hcomes
    · exact absurd (List.cons.inj heq).1.symm hi
    · exact .inr ⟨l, hcomes⟩

omit [DecidableEq T] in
/-- Only `Close` makes a notification due. -/
theorem ClosePending.of_testDeadline (hs : s.stack θ = .testDeadline :: rest) {at_ : ℕ}
    {m : Mem Θ T V E} {l : Label T}
    (h : ClosePending (s.after θ rest ⟨true, m, [.sleepUntil at_], l⟩)) :
    ClosePending s := by
  rcases h with hlock | ⟨l, θ', hsuffix⟩
  · rcases Lib.Config.pending_after hs hlock with hnext | hpend
    · simp at hnext
    · exact .inl hpend
  · by_cases hθ : θ' = θ
    · subst hθ
      rw [Lib.Config.stack_after_self, List.singleton_append, List.suffix_cons_iff] at hsuffix
      rcases hsuffix with heq | hsuffix
      · cases heq
      · exact .inr ⟨l, θ', hs ▸ hsuffix.trans (List.suffix_cons _ _)⟩
    · rw [Lib.Config.stack_after_of_ne hθ] at hsuffix
      exact .inr ⟨l, θ', hsuffix⟩

end

/-! ## The invariant -/

/-- The stacks, and who sleeps: at most the timer thread, once, and only while it is in a wait. -/
structure Timers (role : Θ → Role) (θ₀ : Θ) (s : State Θ T V E) : Prop where
  timer : ∀ θ, ∀ i ∈ s.stack θ, i.timer = true → role θ = .timer
  returns : ∀ θ, Lib.Each Returns (s.stack θ)
  sleeper : s.mem.sleepers = [] ∨
    (s.mem.sleepers = [θ₀] ∧ ∃ i rest, s.stack θ₀ = i :: rest ∧ i.sleeps = true)

/-- `Close` has notified the timer thread, and then returns or has returned. -/
def CloseNotified (s : State Θ T V E) : Prop :=
  (s.mem.queue .timer).closed_ = true ∧ ¬ ClosePending s

/-- Nobody sleeps in a wait on `waiting_pop_`, and has not been notified, where `Close` has
returned. -/
def Prompt (s : State Θ T V E) : Prop := CloseNotified s → s.mem.sleepers = []

/-- If this is the timer thread comparing the clock with the start time of the front after `Close`
has notified it, then the front is due. -/
def DueAfterClose (s : State Θ T V E) (a : Action Θ T V E) : Prop :=
  ∀ θ t rest, a = .exec θ (.front t) → s.stack θ = .testDeadline :: rest →
    CloseNotified s → (s.mem.task t).start_at_ ≤ s.mem.now

variable {role : Θ → Role} {θ₀ : Θ} {s s' : State Θ T V E} {a : Action Θ T V E}

omit [DecidableEq Θ] [DecidableEq T] in
theorem timers_init [Inhabited V] (role : Θ → Role) (θ₀ : Θ) :
    Timers role θ₀ (init role : State Θ T V E) := by
  refine ⟨fun θ i hi htimer ↦ ?_, fun θ ↦ ?_, .inl rfl⟩
  · dsimp only [init] at hi
    cases hrole : role θ <;> simp [hrole] at hi
    · subst hi
      cases htimer
    · rfl
  · dsimp only [init]
    cases role θ <;> simp [Lib.Each, Returns]

section

variable {θ : Θ} {i : Instr T V E} {rest : List (Instr T V E)} {c : Choice Θ T V E}

/-- What can happen to those that sleep: nothing, or nobody sleeps any more, or the timer thread
goes to sleep. -/
theorem Timers.sleepers_cases (h : Timers role θ₀ s) (hone : ∀ θ, role θ = .timer → θ = θ₀)
    (hs : s.stack θ = i :: rest) (henabled : (exec θ s.mem c i).enabled = true) :
    ((exec θ s.mem c i).mem.sleepers = s.mem.sleepers ∧ i.sleeps = false ∧
        (i = .notifyOne .timer → s.mem.sleepers = [])) ∨
      (exec θ s.mem c i).mem.sleepers = [] ∨
      ((exec θ s.mem c i).mem.sleepers = [θ₀] ∧ θ = θ₀ ∧
        (∃ j, (exec θ s.mem c i).next = [j] ∧ j.sleeps = true) ∧
        ((i = .testPop .timer ∧ (s.mem.queue .timer).closed_ = false) ∨
          ∃ t, i = .testDeadline ∧ c = .front t ∧ s.mem.now < (s.mem.task t).start_at_)) := by
  have htop : i ∈ s.stack θ := by rw [hs]; exact List.mem_cons_self
  have htimer (hi : i.timer = true) : θ = θ₀ := hone θ (h.timer θ i htop hi)
  -- a thread that is about to go to sleep is not asleep
  have hawake (hi : i.timer = true) (hsleeps : i.sleeps = false) : s.mem.sleepers = [] := by
    refine h.sleeper.resolve_right ?_
    rintro ⟨-, j, rest', hstack, hj⟩
    rw [← htimer hi, hs] at hstack
    rw [(List.cons.inj hstack).1, hj] at hsleeps
    cases hsleeps
  have hchange := exec_sleepersChange θ s.mem c i henabled
  generalize (exec θ s.mem c i).next = next at hchange ⊢
  generalize (exec θ s.mem c i).mem.sleepers = sleepers at hchange ⊢
  cases hchange with
  | same _ _ hi hnotify => exact .inl ⟨rfl, hi, hnotify⟩
  | notifyOne θ' hmem =>
    rcases h.sleeper with hnone | ⟨hsome, -⟩
    · rw [hnone] at hmem
      cases hmem
    · rw [hsome, List.mem_singleton] at hmem
      exact .inr (.inl (by rw [hsome, hmem, List.erase_cons_head]))
  | notifyAll => exact .inr (.inl rfl)
  | wakesUp _ _ hi =>
    have hθ : θ = θ₀ := htimer (i.timer_of_sleeps hi)
    rcases h.sleeper with hnone | ⟨hsome, -⟩
    · exact .inr (.inl (by rw [hnone, List.erase_nil]))
    · exact .inr (.inl (by rw [hsome, hθ, List.erase_cons_head]))
  | waits hopen =>
    rw [hawake rfl rfl, htimer rfl]
    exact .inr (.inr ⟨rfl, rfl, ⟨_, rfl, rfl⟩, .inl ⟨rfl, hopen⟩⟩)
  | waitsUntil t hc hearly =>
    rw [hawake rfl rfl, htimer rfl]
    exact .inr (.inr ⟨rfl, rfl, ⟨_, rfl, rfl⟩, .inr ⟨t, rfl, hc, hearly⟩⟩)

theorem Timers.exec (h : Timers role θ₀ s) (hone : ∀ θ, role θ = .timer → θ = θ₀)
    (hs : s.stack θ = i :: rest) (henabled : (exec θ s.mem c i).enabled = true) :
    Timers role θ₀ (s.after θ rest (exec θ s.mem c i)) := by
  have hflow := exec_flow θ s.mem c i
  refine ⟨fun θ' j hj hjt ↦ ?_, Lib.Config.each_after h.returns hs hflow.returns, ?_⟩
  · rcases Lib.Config.mem_stack_after hs hj with ⟨rfl, hnext⟩ | hold
    · by_cases hi : i.timer = true
      · exact h.timer θ' i (by rw [hs]; exact List.mem_cons_self) hi
      · rw [hflow.timer_eq (Bool.eq_false_of_not_eq_true hi) j hnext] at hjt
        cases hjt
    · exact h.timer θ' j hold hjt
  · rcases h.sleepers_cases hone hs henabled with
      ⟨hsame, hi, -⟩ | hnone | ⟨hsome, rfl, ⟨j, hnext, hj⟩, -⟩
    · rw [Lib.Config.mem_after, hsame]
      refine h.sleeper.imp_right fun ⟨hsome, j, rest', hstack, hj⟩ ↦ ⟨hsome, j, rest', ?_, hj⟩
      by_cases hθ : θ₀ = θ
      · rw [hθ, hs] at hstack
        rw [(List.cons.inj hstack).1, hj] at hi
        cases hi
      · rw [Lib.Config.stack_after_of_ne hθ, hstack]
    · exact .inl hnone
    · refine .inr ⟨hsome, j, rest, ?_, hj⟩
      rw [Lib.Config.stack_after_self, hnext, List.singleton_append]

theorem Prompt.exec (hp : Prompt s) (h : Timers role θ₀ s) (hone : ∀ θ, role θ = .timer → θ = θ₀)
    (hs : s.stack θ = i :: rest) (henabled : (exec θ s.mem c i).enabled = true)
    (hdue : DueAfterClose s (.exec θ c)) : Prompt (s.after θ rest (exec θ s.mem c i)) := by
  rintro ⟨hclosed, hnotified⟩
  rw [Lib.Config.mem_after] at hclosed ⊢
  have hreturns : Returns i rest := by
    have heach := h.returns θ
    rw [hs] at heach
    exact heach.1
  -- a call that sets the flag is yet to notify
  have hbefore : (s.mem.queue .timer).closed_ = true := by
    by_contra hopen
    rcases (exec_headChange θ s.mem c i henabled).closed (Bool.eq_false_of_not_eq_true hopen) with
      hstill | ⟨-, hnext⟩
    · exact Bool.false_ne_true (hstill.symm.trans hclosed)
    · exact hnotified
        (.inl (Lib.Config.pending_next (by rw [hnext]; exact List.mem_singleton_self _)))
  have hstill (hi : i ≠ .notifyOne .timer) : CloseNotified s :=
    ⟨hbefore, fun hpending ↦ hnotified (hpending.exec hs hi hreturns)⟩
  rcases h.sleepers_cases hone hs henabled with
    ⟨hsame, -, hnotify⟩ | hnone | ⟨-, -, -, ⟨-, hopen⟩ | ⟨t, rfl, rfl, hearly⟩⟩
  · rw [hsame]
    by_cases hi : i = .notifyOne .timer
    · exact hnotify hi
    · exact hp (hstill hi)
  · exact hnone
  · exact absurd (hopen.symm.trans hbefore) Bool.false_ne_true
  · exact absurd (hdue θ t rest rfl hs (hstill (by simp))) (Nat.not_le.mpr hearly)

theorem Timers.call {call : Call T} (h : Timers role θ₀ s) (hcan : CanCall role s θ) :
    Timers role θ₀ (s.after θ (s.stack θ)
      ⟨true, s.mem.call call, call.code ++ [.returned call], Label.called call⟩) := by
  have hcode : ∀ j ∈ (call.code ++ [.returned call] : List (Instr T V E)), j.timer = false := by
    cases call <;> simp [Call.code, Instr.timer]
  have hqueue : (s.mem.call call).sleepers = s.mem.sleepers := by cases call <;> rfl
  refine ⟨fun θ' j hj hjt ↦ ?_, Lib.Config.each_push h.returns ?_, ?_⟩
  · by_cases hθ : θ' = θ
    · subst hθ
      rw [Lib.Config.stack_after_self] at hj
      rcases List.mem_append.mp hj with hj | hj
      · rw [hcode j hj] at hjt
        cases hjt
      · exact h.timer θ' j hj hjt
    · rw [Lib.Config.stack_after_of_ne hθ] at hj
      exact h.timer θ' j hj hjt
  · cases call <;> simp [Lib.Each, Returns, Call.code]
  · rw [Lib.Config.mem_after, hqueue]
    refine h.sleeper.imp_right ?_
    rintro ⟨hsome, j, rest', hstack, hj⟩
    refine ⟨hsome, j, rest', ?_, hj⟩
    by_cases hθ : θ₀ = θ
    · -- who sleeps does not call
      rw [hθ] at hstack
      rcases hcan with ⟨-, hempty⟩ | ⟨t, rest, hrunning⟩
      · rw [hempty] at hstack
        cases hstack
      · rw [hrunning] at hstack
        rw [← (List.cons.inj hstack).1] at hj
        cases hj
    · rw [Lib.Config.stack_after_of_ne hθ, hstack]

theorem Prompt.call {call : Call T} (hp : Prompt s) : Prompt (s.after θ (s.stack θ)
    ⟨true, s.mem.call call, call.code ++ [.returned call], Label.called call⟩) := by
  have hqueue : (s.mem.call call).queue = s.mem.queue := by cases call <;> rfl
  rintro ⟨hclosed, hnotified⟩
  rw [Lib.Config.mem_after, hqueue] at hclosed
  rw [Lib.Config.mem_after, Mem.sleepers, hqueue]
  refine hp ⟨hclosed, ?_⟩
  rintro (hlock | ⟨l, hcomes⟩)
  · exact hnotified (.inl (Lib.Config.pending_push.mpr (.inr hlock)))
  · exact hnotified (.inr ⟨l, hcomes.push⟩)

end

/-! ## Runs -/

theorem prompt_step (h : Timers role θ₀ s ∧ Prompt s) (hone : ∀ θ, role θ = .timer → θ = θ₀)
    (hstep : StepBy role s a s') (hdue : DueAfterClose s a) : Timers role θ₀ s' ∧ Prompt s' := by
  obtain ⟨h, hp⟩ := h
  cases hstep with
  | exec c hs henabled => exact ⟨h.exec hone hs henabled, hp.exec h hone hs henabled hdue⟩
  | call call hcan hallowed => exact ⟨h.call hcan, hp.call⟩
  | tick d => exact ⟨⟨h.timer, h.returns, h.sleeper⟩, hp⟩

/-- Where the front is not due, the timer thread goes to sleep for good. -/
theorem not_prompt_of_early (hstep : StepBy role s a s') (hdue : ¬ DueAfterClose s a) :
    ¬ Prompt s' := by
  simp only [DueAfterClose, not_forall, exists_prop] at hdue
  obtain ⟨θ, t, rest, rfl, hs, ⟨hclosed, hnot⟩, hearly⟩ := hdue
  cases hstep with
  | @exec _ i rest' _ hs' henabled =>
    obtain ⟨rfl, rfl⟩ := List.cons.inj (hs'.symm.trans hs)
    intro hp
    dsimp only [exec] at henabled hp
    split at hp
    · rw [if_pos (Nat.not_le.mp hearly)] at hp
      exact List.cons_ne_nil _ _ (hp ⟨hclosed, fun hpending ↦ hnot (hpending.of_testDeadline hs)⟩)
    · rename_i hfront
      rw [if_neg hfront] at henabled
      cases henabled

/-- **Shutdown and deadlines.**  In a run of an executor with one timer thread, that thread is never
asleep and not about to be notified after `Close` exactly if, whenever it compares the clock with
the start time of the front after `Close` has notified it, the front is due. -/
theorem prompt_iff [Inhabited V] {h : List (State Θ T V E × Action Θ T V E)}
    (hrun : Trace (StepBy role) (init role) h s) (hone : ∀ θ, role θ = .timer → θ = θ₀) :
    (Prompt s ∧ ∀ x ∈ h, Prompt x.1) ↔ ∀ x ∈ h, DueAfterClose x.1 x.2 := by
  constructor
  · induction hrun with
    | nil => intro _ x hx; exact absurd hx List.not_mem_nil
    | snoc hrun hstep ih =>
      rintro ⟨hp, hall⟩ x hx
      rcases List.mem_append.mp hx with hx | hx
      · exact ih ⟨hall _ (List.mem_append_right _ List.mem_cons_self),
          fun y hy ↦ hall y (List.mem_append_left _ hy)⟩ x hx
      · rw [List.mem_singleton.mp hx]
        by_contra hdue
        exact not_prompt_of_early hstep hdue hp
  · intro hdue
    have hinit : Timers role θ₀ (init role : State Θ T V E) ∧ Prompt (init role : State Θ T V E) :=
      ⟨timers_init role θ₀, fun hclosed ↦ absurd hclosed.1 Bool.false_ne_true⟩
    obtain ⟨⟨-, hp⟩, hall⟩ := hrun.forall_of_step (P := fun s _ ↦ Prompt s) hdue hinit
      fun s a s' hs hstep hdue ↦ ⟨prompt_step hs hone hstep hdue, hs.2⟩
    exact ⟨hp, hall⟩

/-- A user thread, `0`, and the timer thread, `1`. -/
def oneTimer (θ : Fin 2) : Role := if θ = 0 then .user else .timer

/-- A task whose time comes at 5 is submitted, and the timer thread sleeps until then. -/
def sleepUntilFive : List (Action (Fin 2) (Fin 1) Unit Unit) :=
  [.call 0 (.setTimeTrigger 0 5)] ++ Action.steps 0 2 ++ [.call 0 (.submit 0)] ++
    Action.steps 0 13 ++ Action.steps 1 2 ++ [.exec 1 (.front 0)]

/-- `StartShutdown`, which notifies the timer thread. -/
def shutdownNotify : List (Action (Fin 2) (Fin 1) Unit Unit) :=
  [.call 0 .startShutdown] ++ Action.steps 0 13 ++ [.exec 0 (.wake 1)] ++ Action.steps 0 2

/-- The time has come when `Close` notifies the timer thread, which leaves. -/
theorem prompt_iff_due :
    ∃ (h : List (State (Fin 2) (Fin 1) Unit Unit × Action (Fin 2) (Fin 1) Unit Unit))
    (s : State (Fin 2) (Fin 1) Unit Unit), Trace (StepBy oneTimer) (init oneTimer) h s ∧
      (∀ θ, s.stack θ = []) ∧ Prompt s ∧ ∀ x ∈ h, Prompt x.1 := by
  have hplay : (play oneTimer (sleepUntilFive ++ [.tick 5] ++ shutdownNotify ++ Action.steps 1 2 ++
      [.exec 1 (.front 0)] ++ Action.steps 1 5) (init oneTimer)).any
        (fun x ↦ (∀ θ, x.2.stack θ = []) ∧
        ∀ y ∈ x.1, (y.1.mem.queue .timer).closed_ = true →
          ∀ t, (y.1.mem.task t).start_at_ ≤ y.1.mem.now)
      = true := by decide +kernel
  obtain ⟨⟨h, s⟩, hplay, hp⟩ := (Option.any_eq_true _ _).mp hplay
  obtain ⟨hidle, hdue⟩ := of_decide_eq_true hp
  obtain ⟨h', hrun, -, hstates⟩ := traceBy_of_play hplay
  have hall : ∀ x ∈ h', DueAfterClose x.1 x.2 := by
    intro x hx θ t rest _ _ hnotified
    have hmem : x.1 ∈ h.map Prod.fst := hstates ▸ List.mem_map_of_mem hx
    obtain ⟨y, hy, heq⟩ := List.mem_map.mp hmem
    exact heq ▸ hdue y hy (heq ▸ hnotified.1) t
  have hone : ∀ θ, oneTimer θ = .timer → θ = 1 := by decide
  exact ⟨h', s, hrun, hidle, (prompt_iff hrun hone).mpr hall⟩

/-- `StartShutdown` returns at 0, and the timer thread goes back to sleep until 5, though the task
is canceled. -/
theorem asleep_after_close : ∃ (h : List (State (Fin 2) (Fin 1) Unit Unit × Label (Fin 1)))
    (s : State (Fin 2) (Fin 1) Unit Unit), Trace (Step oneTimer) (init oneTimer) h s ∧
      (∃ x ∈ h, x.2 = .returned .startShutdown) ∧ s.stack 0 = [] ∧ s.stack 1 = [.sleepUntil 5] ∧
      s.mem.sleepers = [1] ∧ s.mem.now = 0 ∧ (s.mem.task 0).state_ = .Canceled ∧ ¬ Prompt s := by
  obtain ⟨h, s, hrun, hp⟩ := exists_trace_of_play oneTimer (init oneTimer)
    (sleepUntilFive ++ shutdownNotify ++ Action.steps 1 2 ++ [.exec 1 (.front 0)])
    (fun x ↦ (∃ y ∈ x.1, y.2 = .returned .startShutdown) ∧ x.2.stack 0 = [] ∧
      x.2.stack 1 = [.sleepUntil 5] ∧ x.2.mem.sleepers = [1] ∧ x.2.mem.now = 0 ∧
      (x.2.mem.task 0).state_ = .Canceled ∧ (x.2.mem.queue .timer).closed_ = true)
    (by decide +kernel)
  obtain ⟨hreturned, hstack₀, hstack₁, hsleepers, hnow, hstate, hclosed⟩ := of_decide_eq_true hp
  refine ⟨h, s, hrun, hreturned, hstack₀, hstack₁, hsleepers, hnow, hstate, fun hp ↦ ?_⟩
  have hstack : ∀ θ, s.stack θ ⊆ [.sleepUntil 5] := by
    intro θ
    have hcases : θ = 0 ∨ θ = 1 := by omega
    rcases hcases with rfl | rfl
    · rw [hstack₀]
      exact List.nil_subset _
    · rw [hstack₁]
      exact List.Subset.refl _
  have hnotified : CloseNotified s := by
    refine ⟨hclosed, ?_⟩
    rintro (⟨θ, hlock⟩ | ⟨l, θ, hsuffix⟩)
    · simpa using hstack θ hlock
    · simpa using hstack θ (hsuffix.subset List.mem_cons_self)
  rw [hp hnotified] at hsleepers
  cases hsleepers

end Executor
end ManyTasks
