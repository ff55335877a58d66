import ManyTasks.Executor.Invariant
import ManyTasks.Executor.Lock
import ManyTasks.Executor.Schedule

/-!
# No start is lost

`Submit` publishes the state of a task and then tests whether the task is ready; `OnFinished` of a
dependency or of a trigger first changes the counter or the flag of the task and then tests its
state.  Whichever comes second sees what the other did, so a submitted task that is ready has a call
that is still going to enqueue it.

The difficult part is a dependency that finishes while it is being added.  `AddDepended` decides
under the lock of the dependency whether it has finished, but the state is assigned outside of that
lock.  What saves it is that `OnFinished` comes after the assignment and takes the same lock: a
thread that still believes the dependency unfinished holds the lock, so `OnFinished` has not begun
(`register` of `Handshake`).
-/

set_option autoImplicit false

namespace ManyTasks
namespace Executor

variable {Θ T V E : Type} [DecidableEq T]

/-! ## Calls that are going to enqueue a task -/

/-- `Submit` of the task, or `OnFinished` of one of its dependencies or triggers. -/
def Mem.Concerns (m : Mem Θ T V E) (t : T) : Caller T → Prop
  | .submit => True
  | .finished d => m.Finished d ∧ (d ∈ (m.task t).dependencies_ ∨ d ∈ (m.task t).triggers_)
  | .timer => False

/-- The instructions of `TryToEnque` from which it is still going to enqueue a task whose
dependencies have finished. -/
def tryDependencies (by_ : Caller T) (t : T) : List (Instr T V E) :=
  [.testSubmitted by_ t, .testTriggers by_ t, .testDependencies by_ t, .testQueue by_ t,
    .casEnqueued by_ t]

/-- The same for a task of which a trigger has finished: `triggers_activated_` must not have been
tested yet. -/
def tryTriggers (by_ : Caller T) (t : T) : List (Instr T V E) :=
  [.testSubmitted by_ t, .testTriggers by_ t, .testQueue by_ t, .casEnqueued by_ t]

/-- Some call that concerns the task is at one of the instructions. -/
def Trying (s : State Θ T V E) (t : T) (code : Caller T → T → List (Instr T V E)) : Prop :=
  ∃ by_, s.mem.Concerns t by_ ∧ ∃ i ∈ code by_ t, s.Pending i

/-- What holds in every state that can be reached, beyond `Invariant`. -/
structure Handshake [DecidableEq Θ] (s : State Θ T V E) : Prop where
  inv : Invariant s
  locked : Locked s
  queue : ∀ t, (s.mem.task t).state_ = .Submitted → (s.mem.task t).queue_ = true
  setQueue : ∀ t, s.Pending (.casSubmitted t) → (s.mem.task t).queue_ = true
  register : ∀ d t, s.Pending (.register d t) → s.mem.Finished d → s.Pending (.onFinished d)
  registerTrigger : ∀ d t, s.Pending (.registerTrigger d t) → s.mem.Finished d →
    s.Pending (.onFinished d)
  depended : ∀ d t, s.mem.Finished d → t ∈ (s.mem.task d).depended_ →
    s.Pending (.onFinished d) ∨ s.Pending (.finishDepended d)
  triggered : ∀ d t, s.mem.Finished d → t ∈ (s.mem.task d).triggered_ →
    s.Pending (.onFinished d) ∨ s.Pending (.finishDepended d) ∨ s.Pending (.finishTriggered d)
  linked : ∀ t d, s.mem.Waiting t → TriggerOf s t d →
    (s.mem.task t).triggers_activated_ = true ∨ t ∈ (s.mem.task d).triggered_
  counted : ∀ t, (s.mem.task t).state_ = .Submitted → (s.mem.task t).has_dependencies_ = true →
    (s.mem.task t).dependecies_cnt_ = 0 → Trying s t tryDependencies
  activated : ∀ t, (s.mem.task t).state_ = .Submitted → (s.mem.task t).has_triggers_ = true →
    (s.mem.task t).triggers_activated_ = true → Trying s t tryTriggers

theorem handshake_init [DecidableEq Θ] [Inhabited V] (role : Θ → Role) :
    Handshake (init role : State Θ T V E) := by
  have hnone {i : Instr T V E} (hi : (init role : State Θ T V E).Pending i) :
      i = .lockPop .tasks ∨ i = .lockPop .timer := by
    obtain ⟨θ, hi⟩ := hi
    dsimp only [init] at hi
    cases hrole : role θ <;> rw [hrole] at hi
    · cases hi
    · exact .inl (List.mem_singleton.mp hi)
    · exact .inr (List.mem_singleton.mp hi)
  constructor
  case inv => exact invariant_init role
  case locked => exact locked_init role
  case queue => exact fun _ h ↦ nomatch h
  case setQueue => exact fun _ h ↦ by rcases hnone h with h | h <;> cases h
  case register => exact fun _ _ h ↦ by rcases hnone h with h | h <;> cases h
  case registerTrigger => exact fun _ _ h ↦ by rcases hnone h with h | h <;> cases h
  case depended => exact fun _ _ h ↦ nomatch h
  case triggered => exact fun _ _ h ↦ nomatch h
  case linked =>
    rintro t d - (h | h)
    · cases h
    · rcases hnone h with h | h <;> cases h
  case counted => exact fun _ h ↦ nomatch h
  case activated => exact fun _ h ↦ nomatch h

namespace Handshake

section

variable [DecidableEq Θ] {s : State Θ T V E} {θ : Θ} {i : Instr T V E} {rest : List (Instr T V E)}
  {c : Choice Θ T V E}

/-- Whoever makes a task finished is going to call `OnFinished`. -/
theorem finished_or_onFinished (hs : s.stack θ = i :: rest) {d : T}
    (hfin : (exec θ s.mem c i).mem.Finished d) :
    s.mem.Finished d ∨ (s.after θ rest (exec θ s.mem c i)).Pending (.onFinished d) := by
  rcases (exec_taskChange θ s.mem c i).state_eq d with
    heq | ⟨-, -, heq⟩ | ⟨by_, -, -, heq⟩ | ⟨state, rfl, -⟩
  · rw [Mem.Finished, heq] at hfin
    exact .inl hfin
  · rw [Mem.Finished, heq] at hfin
    cases hfin
  · rw [Mem.Finished, heq] at hfin
    cases hfin
  · exact .inr (Lib.Config.pending_next List.mem_cons_self)

/-- A task that stays `Submitted` has been so. -/
theorem submitted_of_exec (h : Handshake s) (hs : s.stack θ = i :: rest) {t : T}
    (hstate : ((exec θ s.mem c i).mem.task t).state_ = .Submitted) :
    (s.mem.task t).state_ = .Submitted ∨ i = .casSubmitted t ∧
    (s.mem.task t).state_ = .Created := by
  rcases (exec_taskChange θ s.mem c i).state_eq t with
    heq | ⟨rfl, hc, -⟩ | ⟨by_, -, -, heq⟩ | ⟨state, rfl, heq⟩
  · exact .inl (heq.symm.trans hstate)
  · exact .inr ⟨rfl, hc⟩
  · exact nomatch heq.symm.trans hstate
  · have hfin : state.finished = true := h.inv.ok _ (Lib.Config.pending_top hs)
    rw [heq.symm.trans hstate] at hfin
    cases hfin

/-- `OnFinished` does not begin while somebody is in the scope of a lock on the task. -/
theorem onFinished_after (h : Handshake s) (hs : s.stack θ = i :: rest)
    (henabled : (exec θ s.mem c i).enabled = true) {d : T} {j : Instr T V E} (hj : s.Pending j)
    (hholds : j.holds d = 1) (hd : s.Pending (.onFinished d)) :
    (s.after θ rest (exec θ s.mem c i)).Pending (.onFinished d) := by
  rcases hd.after hs with rfl | hd
  · obtain ⟨θ', hj⟩ := hj
    have hnone := edit_eq_none_of_enabled rfl henabled
    rw [h.locked.edit_eq hj hholds] at hnone
    cases hnone
  · exact hd

theorem exec_queue (h : Handshake s) (hs : s.stack θ = i :: rest) (t : T)
    (hstate : ((exec θ s.mem c i).mem.task t).state_ = .Submitted) :
    ((exec θ s.mem c i).mem.task t).queue_ = true := by
  refine ((exec_taskChange θ s.mem c i).queue_iff t).mpr (.inl ?_)
  rcases h.submitted_of_exec hs hstate with hold | ⟨rfl, -⟩
  · exact h.queue t hold
  · exact h.setQueue t (Lib.Config.pending_top hs)

theorem exec_setQueue (h : Handshake s) (hs : s.stack θ = i :: rest) (t : T)
    (hj : (s.after θ rest (exec θ s.mem c i)).Pending (.casSubmitted t)) :
    ((exec θ s.mem c i).mem.task t).queue_ = true := by
  refine ((exec_taskChange θ s.mem c i).queue_iff t).mpr ?_
  rcases Lib.Config.pending_after hs hj with hj | hj
  · exact .inr ((exec_flow θ s.mem c i).of_mem_casSubmitted hj)
  · exact .inl (h.setQueue t hj)

theorem exec_register (h : Handshake s) (hs : s.stack θ = i :: rest)
    (henabled : (exec θ s.mem c i).enabled = true) (d t : T)
    (hj : (s.after θ rest (exec θ s.mem c i)).Pending (.register d t))
    (hfin : (exec θ s.mem c i).mem.Finished d) :
    (s.after θ rest (exec θ s.mem c i)).Pending (.onFinished d) := by
  rcases finished_or_onFinished hs hfin with hold | hpend
  · rcases Lib.Config.pending_after hs hj with hj | hj
    · have hnot := ((exec_flow θ s.mem c i).of_mem_register hj).2
      exact absurd (hnot.symm.trans hold) Bool.false_ne_true
    · exact h.onFinished_after hs henabled hj (if_pos rfl) (h.register d t hj hold)
  · exact hpend

theorem exec_registerTrigger (h : Handshake s) (hs : s.stack θ = i :: rest)
    (henabled : (exec θ s.mem c i).enabled = true) (d t : T)
    (hj : (s.after θ rest (exec θ s.mem c i)).Pending (.registerTrigger d t))
    (hfin : (exec θ s.mem c i).mem.Finished d) :
    (s.after θ rest (exec θ s.mem c i)).Pending (.onFinished d) := by
  rcases finished_or_onFinished hs hfin with hold | hpend
  · rcases Lib.Config.pending_after hs hj with hj | hj
    · have hnot := ((exec_flow θ s.mem c i).of_mem_registerTrigger hj).2
      exact absurd (hnot.symm.trans hold) Bool.false_ne_true
    · exact h.onFinished_after hs henabled hj (if_pos rfl) (h.registerTrigger d t hj hold)
  · exact hpend

/-- The loop over `depended_` goes on while there is something in it. -/
theorem finishDepended_next {m : Mem Θ T V E} {d x : T} {xs : List T}
    (hd : (m.task d).depended_ = x :: xs) :
    (exec θ m c (.finishDepended d)).next =
    [.testSubmitted (.finished d) x, .finishDepended d] := by
  simp only [exec, hd, go]

theorem finishTriggered_next {m : Mem Θ T V E} {d x : T} {xs : List T}
    (hd : (m.task d).triggered_ = x :: xs) :
    (exec θ m c (.finishTriggered d)).next =
      [.testSubmitted (.finished d) x, .finishTriggered d] := by
  simp only [exec, hd, go]

theorem exec_depended (h : Handshake s) (hs : s.stack θ = i :: rest) (d t : T)
    (hfin : (exec θ s.mem c i).mem.Finished d)
    (ht : t ∈ ((exec θ s.mem c i).mem.task d).depended_) :
    (s.after θ rest (exec θ s.mem c i)).Pending (.onFinished d) ∨
      (s.after θ rest (exec θ s.mem c i)).Pending (.finishDepended d) := by
  rcases finished_or_onFinished hs hfin with hold | hpend
  swap
  · exact .inl hpend
  -- who was going to take `t` off still is
  have keep (hmem : t ∈ (s.mem.task d).depended_) :
      (s.after θ rest (exec θ s.mem c i)).Pending (.onFinished d) ∨
        (s.after θ rest (exec θ s.mem c i)).Pending (.finishDepended d) := by
    rcases h.depended d t hold hmem with hpend | hpend
    · rcases hpend.after hs with rfl | hpend
      · exact .inr (Lib.Config.pending_next List.mem_cons_self)
      · exact .inl hpend
    · rcases hpend.after hs with rfl | hpend
      · obtain ⟨x, xs, hd⟩ := List.exists_cons_of_ne_nil (List.ne_nil_of_mem hmem)
        refine .inr (Lib.Config.pending_next ?_)
        rw [finishDepended_next hd]
        exact List.mem_cons_of_mem _ List.mem_cons_self
      · exact .inr hpend
  rcases (exec_taskChange θ s.mem c i).depended_eq d with heq | ⟨x, rfl, heq⟩ | ⟨-, x, heq⟩
  · exact keep (heq ▸ ht)
  · rw [heq, List.mem_append, List.mem_singleton] at ht
    rcases ht with hmem | rfl
    · exact keep hmem
    · have hpend := h.register d t (Lib.Config.pending_top hs) hold
      exact .inl ((hpend.after hs).resolve_left fun h ↦ nomatch h)
  · exact keep (by rw [heq]; exact List.mem_cons_of_mem _ ht)

theorem exec_triggered (h : Handshake s) (hs : s.stack θ = i :: rest) (d t : T)
    (hfin : (exec θ s.mem c i).mem.Finished d)
    (ht : t ∈ ((exec θ s.mem c i).mem.task d).triggered_) :
    (s.after θ rest (exec θ s.mem c i)).Pending (.onFinished d) ∨
      (s.after θ rest (exec θ s.mem c i)).Pending (.finishDepended d) ∨
      (s.after θ rest (exec θ s.mem c i)).Pending (.finishTriggered d) := by
  rcases finished_or_onFinished hs hfin with hold | hpend
  swap
  · exact .inl hpend
  have keep (hmem : t ∈ (s.mem.task d).triggered_) :
      (s.after θ rest (exec θ s.mem c i)).Pending (.onFinished d) ∨
        (s.after θ rest (exec θ s.mem c i)).Pending (.finishDepended d) ∨
        (s.after θ rest (exec θ s.mem c i)).Pending (.finishTriggered d) := by
    rcases h.triggered d t hold hmem with hpend | hpend | hpend
    · rcases hpend.after hs with rfl | hpend
      · exact .inr (.inl (Lib.Config.pending_next List.mem_cons_self))
      · exact .inl hpend
    · rcases hpend.after hs with rfl | hpend
      · rcases hd : (s.mem.task d).depended_ with _ | ⟨x, xs⟩
        · refine .inr (.inr (Lib.Config.pending_next ?_))
          simp only [exec, hd, go]
          exact List.mem_cons_self
        · refine .inr (.inl (Lib.Config.pending_next ?_))
          rw [finishDepended_next hd]
          exact List.mem_cons_of_mem _ List.mem_cons_self
      · exact .inr (.inl hpend)
    · rcases hpend.after hs with rfl | hpend
      · obtain ⟨x, xs, hd⟩ := List.exists_cons_of_ne_nil (List.ne_nil_of_mem hmem)
        refine .inr (.inr (Lib.Config.pending_next ?_))
        rw [finishTriggered_next hd]
        exact List.mem_cons_of_mem _ List.mem_cons_self
      · exact .inr (.inr hpend)
  rcases (exec_taskChange θ s.mem c i).triggered_eq d with heq | ⟨x, rfl, heq⟩ | ⟨-, x, heq, -⟩
  · exact keep (heq ▸ ht)
  · rw [heq, List.mem_append, List.mem_singleton] at ht
    rcases ht with hmem | rfl
    · exact keep hmem
    · have hpend := h.registerTrigger d t (Lib.Config.pending_top hs) hold
      exact .inl ((hpend.after hs).resolve_left (by simp))
  · exact keep (by rw [heq]; exact List.mem_cons_of_mem _ ht)

theorem exec_linked (h : Handshake s) (hs : s.stack θ = i :: rest) (t d : T)
    (hwait : (exec θ s.mem c i).mem.Waiting t)
    (hd : TriggerOf (s.after θ rest (exec θ s.mem c i)) t d) :
    ((exec θ s.mem c i).mem.task t).triggers_activated_ = true ∨
      t ∈ ((exec θ s.mem c i).mem.task d).triggered_ := by
  have hok := h.inv.ok i (Lib.Config.pending_top hs)
  have hold := (exec_grows θ c hok).waiting hwait
  have hchange := exec_taskChange θ s.mem c i
  -- a trigger that was there before
  have keep (hd : TriggerOf s t d) :
      ((exec θ s.mem c i).mem.task t).triggers_activated_ = true ∨
        t ∈ ((exec θ s.mem c i).mem.task d).triggered_ := by
    rcases h.linked t d hold hd with hact | hmem
    · rcases hchange.activated_eq t with heq | ⟨x, -, htrue⟩ | ⟨x, xs, -, -, htrue⟩
      · exact .inl (heq.trans hact)
      · exact .inl htrue
      · exact .inl htrue
    · rcases hchange.triggered_eq d with heq | ⟨x, -, heq⟩ | ⟨-, x, heq, htrue⟩
      · exact .inr (by rw [heq]; exact hmem)
      · exact .inr (by rw [heq]; exact List.mem_append_left _ hmem)
      · rw [heq, List.mem_cons] at hmem
        rcases hmem with rfl | hmem
        · exact .inl htrue
        · exact .inr hmem
  rcases hd with hd | hd
  · replace hd : d ∈ ((exec θ s.mem c i).mem.task t).triggers_ := hd
    rcases hchange.triggers_eq t with ⟨heq, -⟩ | ⟨x, rfl, heq, -⟩ | ⟨rfl, -⟩
    · exact keep (.inl (heq ▸ hd))
    · rw [heq, List.mem_append, List.mem_singleton] at hd
      rcases hd with hd | rfl
      · exact keep (.inl hd)
      · exact keep (.inr (Lib.Config.pending_top hs))
    · exact absurd hold hok
  · rcases Lib.Config.pending_after hs hd with hd | hd
    · rcases (exec_flow θ s.mem c i).of_mem_linkTrigger hd with rfl | rfl
      · right
        dsimp only [exec, go]
        rw [Mem.task_onTask_self]
        exact List.mem_append_right _ List.mem_cons_self
      · left
        dsimp only [exec, go]
        rw [Mem.task_onTask_self]
    · exact keep (.inr hd)

omit [DecidableEq Θ] [DecidableEq T] in
theorem concerns_grows {m m' : Mem Θ T V E} {t : T} {by_ : Caller T} (h : m.Concerns t by_)
    (hm : Grows m m') (hsub : m.submitted t = true) (hstate : (m'.task t).state_ = .Submitted) :
    m'.Concerns t by_ := by
  obtain ⟨hdeps, htrigs⟩ := (hm.task t).lists hsub hstate
  cases by_ with
  | submit => trivial
  | finished d =>
    refine ⟨h.1.grows hm, ?_⟩
    rw [hdeps, htrigs]
    exact h.2
  | timer => cases h

/-- A call that tries goes on trying if every instruction leads to another one of the same. -/
theorem exec_trying (h : Handshake s) (hs : s.stack θ = i :: rest) {t : T}
    {code : Caller T → T → List (Instr T V E)} (hold : (s.mem.task t).state_ = .Submitted)
    (hstate : ((exec θ s.mem c i).mem.task t).state_ = .Submitted)
    (hcode : ∀ by_, i ∈ code by_ t → ∃ j ∈ code by_ t, j ∈ (exec θ s.mem c i).next)
    (htry : Trying s t code) : Trying (s.after θ rest (exec θ s.mem c i)) t code := by
  have hgrows := exec_grows θ c (h.inv.ok i (Lib.Config.pending_top hs))
  obtain ⟨by_, hby, j, hj, hpend⟩ := htry
  refine ⟨by_, concerns_grows hby hgrows (h.inv.submitted t hold) hstate, ?_⟩
  rcases hpend.after hs with rfl | hpend
  · obtain ⟨j, hj, hnext⟩ := hcode by_ hj
    exact ⟨j, hj, Lib.Config.pending_next hnext⟩
  · exact ⟨j, hj, hpend⟩

/-- `Submit` tries once it has published the state. -/
theorem trying_submit {t : T} (hstate : (s.mem.task t).state_ = .Created)
    {code : Caller T → T → List (Instr T V E)} (hcode : .testSubmitted .submit t ∈ code .submit t) :
    Trying (s.after θ rest (exec θ s.mem c (.casSubmitted t))) t code := by
  refine ⟨.submit, trivial, _, hcode, Lib.Config.pending_next ?_⟩
  simp only [exec, if_pos hstate, go]
  exact List.mem_cons_self

theorem exec_counted (h : Handshake s) (hs : s.stack θ = i :: rest) (t : T)
    (hstate : ((exec θ s.mem c i).mem.task t).state_ = .Submitted)
    (hhas : ((exec θ s.mem c i).mem.task t).has_dependencies_ = true)
    (hcnt : ((exec θ s.mem c i).mem.task t).dependecies_cnt_ = 0) :
    Trying (s.after θ rest (exec θ s.mem c i)) t tryDependencies := by
  have hok := h.inv.ok i (Lib.Config.pending_top hs)
  have hgrows := exec_grows θ c hok
  rcases h.submitted_of_exec hs hstate with hold | ⟨rfl, hcreated⟩
  swap
  · exact trying_submit hcreated List.mem_cons_self
  have hsub := h.inv.submitted t hold
  rw [((hgrows.task t).fixed hsub).1] at hhas
  rcases (exec_taskChange θ s.mem c i).cnt_eq t with heq | ⟨d, -, heq⟩ | ⟨d, xs, rfl, hd, -⟩
  · rw [heq] at hcnt
    refine h.exec_trying hs hold hstate (fun by_ hi ↦ ?_) (h.counted t hold hhas hcnt)
    simp only [tryDependencies, List.mem_cons, List.not_mem_nil, or_false] at hi
    rcases hi with rfl | rfl | rfl | rfl | rfl
    · exact ⟨.testTriggers by_ t, by simp [tryDependencies], by simp [exec, go, hold]⟩
    · by_cases hact : ((s.mem.task t).has_triggers_ && (s.mem.task t).triggers_activated_) = true
      · exact ⟨.testQueue by_
          t, by simp [tryDependencies], by simp only [exec, if_pos hact]; simp [go]⟩
      · exact ⟨.testDependencies by_ t, by simp [tryDependencies],
          by simp only [exec, if_neg hact]; simp [go]⟩
    · exact ⟨.testQueue by_ t, by simp [tryDependencies],
        by simp [exec, go, Task.readyWithoutTriggers, hhas, hcnt]⟩
    · exact ⟨.casEnqueued by_ t, by simp [tryDependencies], by simp [exec, go, h.queue t hold]⟩
    · simp [exec, hold] at hstate
  · omega
  · have hdep : d ∈ (s.mem.task t).dependencies_ := h.inv.mem_dependencies hold
      (h.inv.depended t d (.inr hold) (by rw [hd]; exact List.mem_cons_self))
    have hby : s.mem.Concerns t (.finished d) := ⟨hok, .inl hdep⟩
    refine ⟨.finished d, concerns_grows hby hgrows hsub hstate, _, List.mem_cons_self,
      Lib.Config.pending_next ?_⟩
    rw [finishDepended_next hd]
    exact List.mem_cons_self

theorem exec_activated (h : Handshake s) (hs : s.stack θ = i :: rest) (t : T)
    (hstate : ((exec θ s.mem c i).mem.task t).state_ = .Submitted)
    (hhas : ((exec θ s.mem c i).mem.task t).has_triggers_ = true)
    (hact : ((exec θ s.mem c i).mem.task t).triggers_activated_ = true) :
    Trying (s.after θ rest (exec θ s.mem c i)) t tryTriggers := by
  have hok := h.inv.ok i (Lib.Config.pending_top hs)
  have hgrows := exec_grows θ c hok
  rcases h.submitted_of_exec hs hstate with hold | ⟨rfl, hcreated⟩
  swap
  · exact trying_submit hcreated List.mem_cons_self
  have hsub := h.inv.submitted t hold
  rw [((hgrows.task t).fixed hsub).2.1] at hhas
  rcases (exec_taskChange θ s.mem c i).activated_eq t with heq | ⟨d, rfl, -⟩ | ⟨d, xs, rfl, hd, -⟩
  · rw [heq] at hact
    refine h.exec_trying hs hold hstate (fun by_ hi ↦ ?_) (h.activated t hold hhas hact)
    simp only [tryTriggers, List.mem_cons, List.not_mem_nil, or_false] at hi
    rcases hi with rfl | rfl | rfl | rfl
    · exact ⟨.testTriggers by_ t, by simp [tryTriggers], by simp [exec, go, hold]⟩
    · exact ⟨.testQueue by_ t, by simp [tryTriggers], by simp [exec, go, hhas, hact]⟩
    · exact ⟨.casEnqueued by_ t, by simp [tryTriggers], by simp [exec, go, h.queue t hold]⟩
    · simp [exec, hold] at hstate
  · -- nothing is added to a submitted task
    exact absurd (hok.1.symm.trans hsub) Bool.false_ne_true
  · have htrig : d ∈ (s.mem.task t).triggers_ := h.inv.mem_triggers hold
      (h.inv.triggered t d (.inr hold) (by rw [hd]; exact List.mem_cons_self))
    have hby : s.mem.Concerns t (.finished d) := ⟨hok, .inr htrig⟩
    refine ⟨.finished d, concerns_grows hby hgrows hsub hstate, _, List.mem_cons_self,
      Lib.Config.pending_next ?_⟩
    rw [finishTriggered_next hd]
    exact List.mem_cons_self

theorem exec (h : Handshake s) (hs : s.stack θ = i :: rest)
    (henabled : (exec θ s.mem c i).enabled = true) :
    Handshake (s.after θ rest (exec θ s.mem c i)) where
  inv := h.inv.exec hs
  locked := h.locked.exec hs henabled
  queue := h.exec_queue hs
  setQueue := h.exec_setQueue hs
  register := h.exec_register hs henabled
  registerTrigger := h.exec_registerTrigger hs henabled
  depended := h.exec_depended hs
  triggered := h.exec_triggered hs
  linked := h.exec_linked hs
  counted := h.exec_counted hs
  activated := h.exec_activated hs

/-- A step that leaves the tasks as they are and begins at most a call. -/
theorem of_task_eq (h : Handshake s) {s' : State Θ T V E} (hinv : Invariant s')
    (hlocked : Locked s') (htask : s'.mem.task = s.mem.task)
    (hpend : ∀ i, s.Pending i → s'.Pending i)
    (hback : ∀ i, s'.Pending i → s.Pending i ∨ ∃ call : Call T, i ∈ call.code ++ [.returned call]) :
    Handshake s' := by
  have hold {i : Instr T V E} (hcode : ∀ call : Call T, i ∉ call.code ++ [.returned call])
      (hi : s'.Pending i) : s.Pending i :=
    (hback i hi).resolve_right fun ⟨call, hcall⟩ ↦ hcode call hcall
  have hwait {t : T} (hw : s'.mem.Waiting t) : s.mem.Waiting t := by
    rw [Mem.Waiting, htask] at hw
    exact hw
  have hfin {t : T} (hf : s'.mem.Finished t) : s.mem.Finished t := by
    rw [Mem.Finished, htask] at hf
    exact hf
  have htry {t : T} {code : Caller T → T → List (Instr T V E)} (ht : Trying s t code) :
      Trying s' t code := by
    obtain ⟨by_, hby, i, hi, hpending⟩ := ht
    refine ⟨by_, ?_, i, hi, hpend i hpending⟩
    cases by_ with
    | submit => trivial
    | finished d =>
      rw [Mem.Concerns, Mem.Finished, htask]
      exact hby
    | timer => cases hby
  constructor
  case inv => exact hinv
  case locked => exact hlocked
  case queue => rw [htask]; exact h.queue
  case setQueue =>
    rw [htask]
    exact fun t hi ↦ h.setQueue t (hold (fun call ↦ by cases call <;> simp [Call.code]) hi)
  case register =>
    intro d t hi hd
    have hi := hold (fun call ↦ by cases call <;> simp [Call.code]) hi
    exact hpend _ (h.register d t hi (hfin hd))
  case registerTrigger =>
    intro d t hi hd
    have hi := hold (fun call ↦ by cases call <;> simp [Call.code]) hi
    exact hpend _ (h.registerTrigger d t hi (hfin hd))
  case depended =>
    rw [htask]
    exact fun d t hd ht ↦ (h.depended d t (hfin hd) ht).imp (hpend _) (hpend _)
  case triggered =>
    rw [htask]
    exact fun d t hd ht ↦ (h.triggered d t (hfin hd) ht).imp (hpend _) (.imp (hpend _) (hpend _))
  case linked =>
    rw [htask]
    refine fun t d hw hd ↦ h.linked t d (hwait hw) (hd.imp (fun hd ↦ ?_) fun hd ↦ ?_)
    · rw [htask] at hd
      exact hd
    · exact hold (fun call ↦ by cases call <;> simp [Call.code]) hd
  case counted =>
    rw [htask]
    exact fun t hstate hhas hcnt ↦ htry (h.counted t hstate hhas hcnt)
  case activated =>
    rw [htask]
    exact fun t hstate hhas hact ↦ htry (h.activated t hstate hhas hact)

theorem step (h : Handshake s) {role : Θ → Role} {l : Label T} {s' : State Θ T V E}
    (hstep : Step role s l s') : Handshake s' := by
  cases hstep with
  | exec c hs henabled => exact h.exec hs henabled
  | call c hcan hallowed =>
    refine h.of_task_eq (h.inv.call hallowed) h.locked.call (by cases c <;> rfl)
      (fun i hi ↦ Lib.Config.pending_push.mpr (.inr hi)) fun i hi ↦ ?_
    rcases Lib.Config.pending_push.mp hi with hi | hi
    · exact .inr ⟨c, hi⟩
    · exact .inl hi
  | tick d =>
    exact h.of_task_eq (h.inv.tick d) h.locked rfl (fun _ hi ↦ hi) fun _ hi ↦ .inl hi

end

end Handshake

/-! ## The result -/

section

variable [DecidableEq Θ]

/-- The task has dependencies, and all of them have finished. -/
def Mem.DependenciesFinished (m : Mem Θ T V E) (t : T) : Prop :=
  (m.task t).dependencies_ ≠ [] ∧ ∀ d ∈ (m.task t).dependencies_, m.Finished d

/-- One of the triggers of the task has finished. -/
def Mem.TriggerFinished (m : Mem Θ T V E) (t : T) : Prop :=
  ∃ d ∈ (m.task t).triggers_, m.Finished d

/-- Some call that has not returned yet is still going to enqueue the task, whose dependencies have
finished: it is in `TryToEnque`, or it is `OnFinished` of a dependency and has not come to the task
yet. -/
def WillTryDependencies (s : State Θ T V E) (t : T) : Prop :=
  Trying s t tryDependencies ∨
    ∃ d ∈ (s.mem.task t).dependencies_, s.mem.Finished d ∧ t ∈ (s.mem.task d).depended_ ∧
      (s.Pending (.onFinished d) ∨ s.Pending (.finishDepended d))

/-- The same for a task of which a trigger has finished. -/
def WillTryTriggers (s : State Θ T V E) (t : T) : Prop :=
  Trying s t tryTriggers ∨
    ∃ d ∈ (s.mem.task t).triggers_, s.mem.Finished d ∧ t ∈ (s.mem.task d).triggered_ ∧
      (s.Pending (.onFinished d) ∨ s.Pending (.finishDepended d) ∨ s.Pending (.finishTriggered d))

/-- Some call is still going to enqueue the task. -/
def WillTry (s : State Θ T V E) (t : T) : Prop :=
  WillTryDependencies s t ∨ WillTryTriggers s t

variable {s : State Θ T V E}

theorem Handshake.willTryDependencies (h : Handshake s) {t : T}
    (hstate : (s.mem.task t).state_ = .Submitted) (hdeps : s.mem.DependenciesFinished t) :
    WillTryDependencies s t := by
  have hhas := (h.inv.has_dependencies t (.inr hstate)).mpr hdeps.1
  by_cases hcnt : (s.mem.task t).dependecies_cnt_ = 0
  · exact .inl (h.counted t hstate hhas hcnt)
  · -- somebody has still to count the task down
    obtain ⟨d, ht⟩ := h.inv.registered.exists_mem hcnt
    have hd := h.inv.mem_dependencies hstate (h.inv.depended t d (.inr hstate) ht)
    have hfin := hdeps.2 d hd
    exact .inr ⟨d, hd, hfin, ht, h.depended d t hfin ht⟩

theorem Handshake.willTryTriggers (h : Handshake s) {t : T}
    (hstate : (s.mem.task t).state_ = .Submitted) (htrig : s.mem.TriggerFinished t) :
    WillTryTriggers s t := by
  obtain ⟨d, hd, hfin⟩ := htrig
  have hhas := (h.inv.has_triggers t (.inr hstate)).mpr (List.ne_nil_of_mem hd)
  rcases h.linked t d (.inr hstate) (.inl hd) with hact | ht
  · exact .inl (h.activated t hstate hhas hact)
  · exact .inr ⟨d, hd, hfin, ht, h.triggered d t hfin ht⟩

/-- A task that stays submitted stays ready. -/
theorem Handshake.ready_step (h : Handshake s) {role : Θ → Role} {l : Label T}
    {s' : State Θ T V E} (hstep : Step role s l s') {t : T}
    (hcreated : (s.mem.task t).state_ ≠ .Created) :
    (s'.mem.task t).state_ ≠ .Created ∧
      ((s'.mem.task t).state_ = .Submitted → (s.mem.task t).state_ = .Submitted ∧
        (s.mem.DependenciesFinished t ∨ s.mem.TriggerFinished t →
          s'.mem.DependenciesFinished t ∨ s'.mem.TriggerFinished t)) := by
  cases hstep with
  | @exec θ i rest c hs henabled =>
    have hgrows := exec_grows θ c (h.inv.ok i (Lib.Config.pending_top hs))
    refine ⟨hgrows.not_created hcreated, fun hstate ↦ ?_⟩
    have hold := (hgrows.task t).state hcreated hstate
    obtain ⟨hdeps, htrigs⟩ := (hgrows.task t).lists (h.inv.submitted t hold) hstate
    refine ⟨hold, ?_⟩
    show _ → (Executor.exec θ s.mem c i).mem.DependenciesFinished t ∨
      (Executor.exec θ s.mem c i).mem.TriggerFinished t
    rw [Mem.DependenciesFinished, Mem.DependenciesFinished, Mem.TriggerFinished,
      Mem.TriggerFinished, hdeps, htrigs]
    rintro (⟨hne, hall⟩ | ⟨d, hd, hfin⟩)
    · exact .inl ⟨hne, fun d hd ↦ (hall d hd).grows hgrows⟩
    · exact .inr ⟨d, hd, hfin.grows hgrows⟩
  | call c hcan hallowed => cases c <;> exact ⟨hcreated, fun hstate ↦ ⟨hstate, id⟩⟩
  | tick d => exact ⟨hcreated, fun hstate ↦ ⟨hstate, id⟩⟩

theorem handshake_of_trace [Inhabited V] {role : Θ → Role}
    {h : List (State Θ T V E × Label T)} (hrun : Lib.Trace (Step role) (init role) h s) :
    Handshake s :=
  hrun.invariant (I := fun _ s ↦ Handshake s) (handshake_init role) fun _ _ _ _ hinv hstep ↦
    hinv.step hstep

/-- **No lost start.**  Whenever a task is `Submitted` and its dependencies, or one of its triggers,
have finished, some call that has not returned yet is still going to enqueue it: `Submit` of the
task, or `OnFinished` of such a dependency or trigger.  When there is no such call any more, the
task is `Enqueued` or finished. -/
theorem no_lost_start [Inhabited V] {role : Θ → Role} {h : List (State Θ T V E × Label T)}
    (hrun : Lib.Trace (Step role) (init role) h s) {t : T}
    (hstate : (s.mem.task t).state_ = .Submitted)
    (hready : s.mem.DependenciesFinished t ∨ s.mem.TriggerFinished t) :
    (s.mem.DependenciesFinished t → WillTryDependencies s t) ∧
      (s.mem.TriggerFinished t → WillTryTriggers s t) ∧
      ∀ h' s', Lib.Trace (Step role) s h' s' → ¬ WillTry s' t →
        (s'.mem.task t).state_ = .Enqueued ∨ s'.mem.Finished t := by
  have hshake := handshake_of_trace hrun
  refine ⟨hshake.willTryDependencies hstate, hshake.willTryTriggers hstate, fun h' s' hrun' ↦ ?_⟩
  have hlater : Handshake s' ∧ (s'.mem.task t).state_ ≠ .Created ∧
      ((s'.mem.task t).state_ = .Submitted →
        s'.mem.DependenciesFinished t ∨ s'.mem.TriggerFinished t) := by
    refine hrun'.invariant (I := fun _ s' ↦ Handshake s' ∧ (s'.mem.task t).state_ ≠ .Created ∧
      ((s'.mem.task t).state_ = .Submitted →
        s'.mem.DependenciesFinished t ∨ s'.mem.TriggerFinished t)) ?_ ?_
    · exact ⟨hshake, (fun hc ↦ nomatch hc.symm.trans hstate), fun _ ↦ hready⟩
    · rintro _ s₁ l s₂ ⟨hs₁, hcreated, hready₁⟩ hstep
      obtain ⟨hcreated₂, hkeep⟩ := hs₁.ready_step hstep hcreated
      refine ⟨hs₁.step hstep, hcreated₂, fun hstate₂ ↦ ?_⟩
      obtain ⟨hstate₁, hready₂⟩ := hkeep hstate₂
      exact hready₂ (hready₁ hstate₁)
  intro hno
  obtain ⟨hs', hcreated, hready'⟩ := hlater
  cases hstate' : (s'.mem.task t).state_ with
  | Created => exact absurd hstate' hcreated
  | Submitted =>
    rcases hready' hstate' with hdeps | htrig
    · exact absurd (.inl (hs'.willTryDependencies hstate' hdeps)) hno
    · exact absurd (.inr (hs'.willTryTriggers hstate' htrig)) hno
  | Enqueued => exact .inl rfl
  | _ => exact .inr (by rw [Mem.Finished, hstate']; rfl)

/-- Task `1` depends on task `0` and is submitted; task `0` is being canceled, its state has been
assigned but `OnFinished` has not begun. -/
theorem no_lost_start_canceled :
    ∃ (h : List (State (Fin 2) (Fin 2) Unit Unit × Label (Fin 2)))
      (s : State (Fin 2) (Fin 2) Unit Unit), Lib.Trace (Step oneWorker) (init oneWorker) h s ∧
        (s.mem.task 1).state_ = .Submitted ∧
        s.mem.DependenciesFinished 1 ∧ WillTryDependencies s 1 := by
  obtain ⟨h, s, hrun, hs⟩ := exists_trace_of_play oneWorker
    (init oneWorker : State (Fin 2) (Fin 2) Unit Unit)
    ([.call 0 (.addDependency 1 0)] ++ Action.steps 0 6 ++ [.call 0 (.submit 1)] ++
      Action.steps 0 8 ++ [.call 0 (.cancel 0)] ++ Action.steps 0 1)
    (fun x ↦ (x.2.mem.task 1).state_ = .Submitted ∧ (x.2.mem.task 1).dependencies_ = [0] ∧
      (x.2.mem.task 0).state_ = .Canceled)
    (by decide +kernel)
  obtain ⟨hstate, hdeps, hcanceled⟩ := of_decide_eq_true hs
  have hfin : s.mem.DependenciesFinished 1 := by
    rw [Mem.DependenciesFinished, hdeps]
    refine ⟨by simp, fun d hd ↦ ?_⟩
    rw [List.mem_singleton.mp hd, Mem.Finished, hcanceled]
    rfl
  exact ⟨h, s, hrun, hstate, hfin, (no_lost_start hrun hstate (.inl hfin)).1 hfin⟩

end

end Executor
end ManyTasks
