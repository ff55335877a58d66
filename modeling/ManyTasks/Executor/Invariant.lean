import ManyTasks.Executor.Growth
import Mathlib.Data.List.Perm.Basic

/-!
# What the memory of the executor says about the tasks

The fields of a task are copies of facts about other tasks: `dependecies_cnt_` counts the entries of
all `depended_` vectors, `triggers_activated_` records that some trigger has finished, the timer
queue holds tasks with a start time.  `Invariant` says so, and that the memory is as every pending
instruction expects it (`Mem.Ok`).  It holds in every state that can be reached.

`Submit` reads the fields and acts on them.  What the invariant is for is that an instruction which
has decided to enqueue a task is right to do so: `Mem.Due` is part of `Mem.Ok`.
-/

set_option autoImplicit false

namespace ManyTasks
namespace Executor

variable {Θ T V E : Type}

/-! ## The counter -/

section

variable [DecidableEq T]

/-- `dependecies_cnt_` of a task is the number of its entries in the `depended_` of all tasks;
`regs` lists these entries. -/
def Registered (task : T → Task Θ T V E) : Prop :=
  ∃ regs : List (T × T), (∀ t, (task t).dependecies_cnt_ = (regs.map Prod.snd).count t) ∧
    ∀ d t, (task d).depended_.count t = regs.count (d, t)

theorem Registered.congr {task task' : T → Task Θ T V E} (h : Registered task)
    (hcnt : ∀ t, (task' t).dependecies_cnt_ = (task t).dependecies_cnt_)
    (hdep : ∀ t, (task' t).depended_ = (task t).depended_) : Registered task' := by
  obtain ⟨regs, hregs, hcount⟩ := h
  exact ⟨regs, fun t ↦ (hcnt t).trans (hregs t), fun d t ↦ by rw [hdep]; exact hcount d t⟩

/-- An entry is made, and counted. -/
theorem Registered.register {m : Mem Θ T V E} (h : Registered m.task) (d t : T) :
    Registered ((m.onTask t fun r ↦ { r with dependecies_cnt_ := r.dependecies_cnt_ + 1 }).onTask d
      fun r ↦ { r with depended_ := r.depended_ ++ [t] }).task := by
  obtain ⟨regs, hregs, hcount⟩ := h
  refine ⟨(d, t) :: regs, fun x ↦ ?_, fun x y ↦ ?_⟩
  · rw [List.map_cons, List.count_cons, ← hregs x]
    simp only [Mem.task_onTask]
    split_ifs <;> simp_all
  · rw [List.count_cons, ← hcount x y]
    simp only [Mem.task_onTask]
    split_ifs <;> simp_all [List.count_append]

/-- An entry is taken off, and no longer counted. -/
theorem Registered.finishDepended {m : Mem Θ T V E} (h : Registered m.task) {d t : T} {xs : List T}
    (hd : (m.task d).depended_ = t :: xs) :
    Registered ((m.onTask d fun r ↦ { r with depended_ := xs }).onTask t
      fun r ↦ { r with dependecies_cnt_ := r.dependecies_cnt_ - 1 }).task := by
  obtain ⟨regs, hregs, hcount⟩ := h
  have hmem : (d, t) ∈ regs := by
    rw [← List.count_pos_iff, ← hcount d t, hd, List.count_cons_self]
    exact Nat.succ_pos _
  have hperm := List.perm_cons_erase hmem
  refine ⟨regs.erase (d, t), fun x ↦ ?_, fun x y ↦ ?_⟩
  · have hx := hregs x
    rw [(hperm.map Prod.snd).count_eq, List.map_cons, List.count_cons] at hx
    by_cases hxt : x = t
    · subst hxt
      rw [Mem.task_onTask_self, Mem.task_onTask]
      split_ifs <;> simp_all
    · rw [if_neg (by simpa using Ne.symm hxt)] at hx
      rw [Mem.task_onTask_of_ne _ _ hxt, Mem.task_onTask]
      split_ifs <;> simp_all
  · have hxy := hcount x y
    rw [hperm.count_eq, List.count_cons] at hxy
    simp only [Mem.task_onTask]
    split_ifs <;> simp_all [List.count_cons]

theorem TaskChange.registered {θ : Θ} {m : Mem Θ T V E} {i : Instr T V E} {task : T → Task Θ T V E}
    (h : TaskChange θ m i task) (hreg : Registered m.task) : Registered task := by
  cases h with
  | same => exact hreg
  | register d t => exact hreg.register d t
  | finishDepended t x xs hdep => exact hreg.finishDepended hdep
  | _ =>
    refine hreg.congr (fun x ↦ ?_) fun x ↦ ?_
    all_goals
      simp only [Mem.task_onTask]
      split_ifs <;> simp_all

/-- A task whose counter is zero is in no `depended_`. -/
theorem Registered.not_mem {task : T → Task Θ T V E} (h : Registered task) {t : T}
    (hcnt : (task t).dependecies_cnt_ = 0) (d : T) : t ∉ (task d).depended_ := by
  obtain ⟨regs, hregs, hcount⟩ := h
  intro hmem
  rw [hregs, List.count_eq_zero] at hcnt
  rw [← List.count_pos_iff, hcount, List.count_pos_iff] at hmem
  exact hcnt (List.mem_map_of_mem hmem)

/-- A task whose counter is not zero is in some `depended_`. -/
theorem Registered.exists_mem {task : T → Task Θ T V E} (h : Registered task) {t : T}
    (hcnt : (task t).dependecies_cnt_ ≠ 0) : ∃ d, t ∈ (task d).depended_ := by
  obtain ⟨regs, hregs, hcount⟩ := h
  rw [hregs, ← Nat.pos_iff_ne_zero, List.count_pos_iff] at hcnt
  obtain ⟨⟨d, t'⟩, hmem, rfl⟩ := List.mem_map.mp hcnt
  exact ⟨d, by rw [← List.count_pos_iff, hcount, List.count_pos_iff]; exact hmem⟩

end

/-! ## The invariant -/

/-- `d` has been added as a dependency of `t`, or is about to be. -/
def DependencyOf (s : State Θ T V E) (t d : T) : Prop :=
  d ∈ (s.mem.task t).dependencies_ ∨ s.Pending (.linkDependency t d)

/-- `d` has been added as a trigger of `t`, or is about to be. -/
def TriggerOf (s : State Θ T V E) (t d : T) : Prop :=
  d ∈ (s.mem.task t).triggers_ ∨ s.Pending (.linkTrigger t d)

variable [DecidableEq T]

/-- What holds in every state that can be reached.  `Waiting` is there because `Enque` clears the
vectors of a task and leaves the flags as they are. -/
structure Invariant (s : State Θ T V E) : Prop where
  ok : ∀ i, s.Pending i → s.mem.Ok i
  submitted : ∀ t, (s.mem.task t).state_ = .Submitted → s.mem.submitted t = true
  registered : Registered s.mem.task
  dependencies : ∀ t, ∀ d ∈ (s.mem.task t).dependencies_,
    s.mem.Finished d ∨ t ∈ (s.mem.task d).depended_
  depended : ∀ t d, s.mem.Waiting t → t ∈ (s.mem.task d).depended_ → DependencyOf s t d
  has_dependencies : ∀ t, s.mem.Waiting t →
    ((s.mem.task t).has_dependencies_ = true ↔ (s.mem.task t).dependencies_ ≠ [])
  triggered : ∀ t d, s.mem.Waiting t → t ∈ (s.mem.task d).triggered_ → TriggerOf s t d
  activated : ∀ t, s.mem.Waiting t → (s.mem.task t).triggers_activated_ = true →
    ∃ d, s.mem.Finished d ∧ TriggerOf s t d
  has_triggers : ∀ t, s.mem.Waiting t →
    ((s.mem.task t).has_triggers_ = true ↔ (s.mem.task t).triggers_ ≠ [])
  timer : ∀ t ∈ (s.mem.queue .timer).queue_, s.mem.Timed t

theorem invariant_init [DecidableEq Θ] [Inhabited V] (role : Θ → Role) :
    Invariant (init role : State Θ T V E) where
  ok := by
    rintro i ⟨θ, hi⟩
    dsimp only [init] at hi
    cases hrole : role θ <;> rw [hrole] at hi
    · cases hi
    all_goals
      rw [List.mem_singleton.mp hi]
      trivial
  submitted _ h := nomatch h
  registered := ⟨[], fun _ ↦ rfl, fun _ _ ↦ rfl⟩
  dependencies _ _ h := nomatch h
  depended _ _ _ h := nomatch h
  has_dependencies _ _ := ⟨(fun h ↦ nomatch h), fun h ↦ absurd rfl h⟩
  triggered _ _ _ h := nomatch h
  activated _ _ h := nomatch h
  has_triggers _ _ := ⟨(fun h ↦ nomatch h), fun h ↦ absurd rfl h⟩
  timer _ h := nomatch h

namespace Invariant

/-! ## What the fields mean -/

variable {s : State Θ T V E}

/-- Nothing is about to be added to a submitted task. -/
theorem mem_dependencies (h : Invariant s) {t d : T} (hstate : (s.mem.task t).state_ = .Submitted)
    (hd : DependencyOf s t d) : d ∈ (s.mem.task t).dependencies_ := by
  refine hd.resolve_right fun hpend ↦ ?_
  have hok : s.mem.Ok (.linkDependency t d : Instr T V E) := h.ok _ hpend
  exact Bool.false_ne_true (hok.1.symm.trans (h.submitted t hstate))

theorem mem_triggers (h : Invariant s) {t d : T} (hstate : (s.mem.task t).state_ = .Submitted)
    (hd : TriggerOf s t d) : d ∈ (s.mem.task t).triggers_ := by
  refine hd.resolve_right fun hpend ↦ ?_
  have hok : s.mem.Ok (.linkTrigger t d : Instr T V E) := h.ok _ hpend
  exact Bool.false_ne_true (Eq.trans (Eq.symm hok) (h.submitted t hstate))

/-- A submitted task with `triggers_activated_` is due. -/
theorem due_of_activated (h : Invariant s) {t : T} (hstate : (s.mem.task t).state_ = .Submitted)
    (hact : (s.mem.task t).triggers_activated_ = true) : s.mem.Due t := by
  obtain ⟨d, hfin, hd⟩ := h.activated t (.inr hstate) hact
  exact .inr (.inl ⟨d, h.mem_triggers hstate hd, hfin⟩)

/-- A submitted task that passes the rest of `IsReadyToEnque` is due. -/
theorem due_of_ready (h : Invariant s) {t : T} (hstate : (s.mem.task t).state_ = .Submitted)
    (hready : (s.mem.task t).readyWithoutTriggers = true) : s.mem.Due t := by
  have hdeps := h.has_dependencies t (.inr hstate)
  have htrigs := h.has_triggers t (.inr hstate)
  simp only [Task.readyWithoutTriggers, Bool.or_eq_true, Bool.and_eq_true, beq_iff_eq,
    Bool.not_eq_true'] at hready
  rcases hready with ⟨hhas, hcnt⟩ | ⟨⟨hnotrig, hnodep⟩, hnotime⟩
  · refine .inl ⟨hdeps.mp hhas, fun d hd ↦ ?_⟩
    exact (h.dependencies t d hd).resolve_right (h.registered.not_mem hcnt d)
  · rw [hnotrig] at htrigs
    rw [hnodep] at hdeps
    exact .inr (.inr (.inr ⟨by simpa using hdeps, by simpa using htrigs, hnotime⟩))

/-! ## The instructions -/

section

variable [DecidableEq Θ] {θ : Θ} {i : Instr T V E} {rest : List (Instr T V E)}
  {c : Choice Θ T V E}

/-- What an instruction puts on the stack finds the memory as it expects it. -/
theorem ok_next (h : Invariant s) (hs : s.stack θ = i :: rest) {j : Instr T V E}
    (hj : j ∈ (exec θ s.mem c i).next) : (exec θ s.mem c i).mem.Ok j := by
  have hok := h.ok i (Lib.Config.pending_top hs)
  -- nearly always the memory was already as `j` expects it
  have keep (hj : s.mem.Ok j) : (exec θ s.mem c i).mem.Ok j :=
    hj.grows (exec_grows θ c hok) h.submitted
  cases i with
  | testCanceled t =>
    dsimp only [exec, go] at hj
    split at hj
    · cases hj
    · rw [List.mem_singleton.mp hj]
      trivial
  | run t =>
    rw [List.mem_singleton.mp hj]
    trivial
  | running t =>
    cases c with
    | value v =>
      rw [List.mem_singleton.mp hj]
      rfl
    | throw e =>
      rw [List.mem_singleton.mp hj]
      trivial
    | _ => cases hj
  | setError t e =>
    rw [List.mem_singleton.mp hj]
    rfl
  | timerTest t =>
    dsimp only [exec, go] at hj
    split at hj
    · cases hj
    · rw [List.mem_singleton.mp hj] at keep ⊢
      exact keep ⟨hok.1.2.2, fun _ ↦ .inr (.inr (.inl ⟨hok.1.2.1, hok.2⟩))⟩
  | testEnqueued t =>
    dsimp only [exec, go] at hj
    split at hj
    · cases hj
    · rw [List.mem_singleton.mp hj] at keep ⊢
      exact keep hok
  | testFinished t =>
    dsimp only [exec, go] at hj
    split at hj
    · cases hj
    · rename_i hcond
      rw [List.mem_singleton.mp hj] at keep ⊢
      simp only [Bool.or_eq_true, Bool.not_eq_true', not_or, Bool.not_eq_false] at hcond
      exact keep ⟨hok.1, hcond.2, hok.2⟩
  | addDepended d t =>
    rw [List.mem_singleton.mp hj] at keep ⊢
    exact keep hok
  | testDepended d t =>
    dsimp only [exec, go] at hj
    split at hj
    · rename_i hfin
      rcases List.mem_cons.mp hj with rfl | hj
      · trivial
      · rw [List.mem_singleton.mp hj] at keep ⊢
        exact keep ⟨hok, .inl hfin⟩
    · rw [List.mem_singleton.mp hj] at keep ⊢
      exact keep hok
  | register d t =>
    rcases List.mem_cons.mp hj with rfl | hj
    · trivial
    · rw [List.mem_singleton.mp hj]
      refine ⟨hok, .inr ?_⟩
      dsimp only [exec, go]
      rw [Mem.task_onTask_self]
      exact List.mem_append_right _ List.mem_cons_self
  | addTriggered d t =>
    rw [List.mem_singleton.mp hj] at keep ⊢
    exact keep hok
  | testTriggered d t =>
    dsimp only [exec, go] at hj
    split at hj
    · rename_i hfin
      rw [List.mem_singleton.mp hj] at keep ⊢
      exact keep ⟨hok, hfin⟩
    · rw [List.mem_singleton.mp hj] at keep ⊢
      exact keep hok
  | registerTrigger d t =>
    rcases List.mem_cons.mp hj with rfl | hj
    · trivial
    · rw [List.mem_singleton.mp hj] at keep ⊢
      exact keep hok
  | activate d t =>
    rcases List.mem_cons.mp hj with rfl | hj
    · trivial
    · rw [List.mem_singleton.mp hj] at keep ⊢
      exact keep hok.1
  | onFinished t =>
    rw [List.mem_singleton.mp hj] at keep ⊢
    exact keep hok
  | finishDepended t =>
    have hfin : s.mem.Finished t := hok
    dsimp only [exec] at hj
    split at hj
    · rw [List.mem_singleton.mp hj] at keep ⊢
      exact keep hfin
    · rcases List.mem_cons.mp hj with rfl | hj
      · exact keep hfin
      · rw [List.mem_singleton.mp hj] at keep ⊢
        exact keep hfin
  | finishTriggered t =>
    have hfin : s.mem.Finished t := hok
    dsimp only [exec] at hj
    split at hj
    · rw [List.mem_singleton.mp hj]
      trivial
    · rcases List.mem_cons.mp hj with rfl | hj
      · exact keep hfin
      · rw [List.mem_singleton.mp hj] at keep ⊢
        exact keep hfin
  | testSubmitted by_ t =>
    dsimp only [exec, go] at hj
    split at hj
    · rename_i hstate
      rw [List.mem_singleton.mp hj] at keep ⊢
      exact keep fun hc ↦ nomatch hc.symm.trans hstate
    · cases hj
  | testTriggers by_ t =>
    dsimp only [exec, go] at hj
    split at hj
    · rename_i hact
      rw [Bool.and_eq_true] at hact
      rw [List.mem_singleton.mp hj] at keep ⊢
      exact keep ⟨hok, fun hstate ↦ h.due_of_activated hstate hact.2⟩
    · rw [List.mem_singleton.mp hj] at keep ⊢
      exact keep hok
  | testDependencies by_ t =>
    dsimp only [exec, go] at hj
    split at hj
    · rename_i hready
      rw [List.mem_singleton.mp hj] at keep ⊢
      exact keep ⟨hok, fun hstate ↦ h.due_of_ready hstate hready⟩
    · cases hj
  | testQueue by_ t =>
    dsimp only [exec, go] at hj
    split at hj
    · rw [List.mem_singleton.mp hj] at keep ⊢
      exact keep hok
    · cases hj
  | casEnqueued by_ t =>
    dsimp only [exec] at hj ⊢
    split at hj
    · rename_i hstate
      rw [if_pos hstate]
      rcases List.mem_cons.mp hj with rfl | hj
      · intro hwait
        simp only [Mem.Waiting, Mem.task_onTask_self] at hwait
        rcases hwait with hc | hc <;> cases hc
      · rw [List.mem_singleton.mp hj]
        trivial
    · cases hj
  | setQueue t =>
    rw [List.mem_singleton.mp hj] at keep ⊢
    exact keep hok
  | casSubmitted t =>
    dsimp only [exec] at hj ⊢
    split at hj
    · rename_i hstate
      rw [if_pos hstate]
      rcases List.mem_cons.mp hj with rfl | hj
      · trivial
      · rw [List.mem_singleton.mp hj]
        refine ⟨hok, ?_⟩
        dsimp only [go]
        rw [Mem.task_onTask_self]
        exact fun hc ↦ nomatch hc
    · rename_i hstate
      rw [if_neg hstate, List.mem_singleton.mp hj]
      exact ⟨hok, hstate⟩
  | store t state =>
    rw [List.mem_singleton.mp hj]
    show ((exec θ s.mem c (.store t state)).mem.task t).state_.finished = true
    dsimp only [exec]
    rw [Mem.task_onTask_self]
    exact hok
  | testClosed q t =>
    dsimp only [exec, go] at hj
    split at hj
    · rw [List.mem_singleton.mp hj]
      rfl
    · rw [List.mem_singleton.mp hj] at keep ⊢
      refine keep ?_
      cases q <;> exact hok
  | lockPush q t =>
    dsimp only [exec, lockQueue] at hj
    rcases List.mem_cons.mp hj with rfl | hj
    · refine keep ?_
      cases q <;> exact hok
    · simp only [List.mem_cons, List.not_mem_nil, or_false] at hj
      rcases hj with rfl | rfl <;> trivial
  | lockPop q =>
    rw [List.mem_singleton.mp hj]
    trivial
  | testPop q =>
    dsimp only [exec] at hj
    split at hj
    · split at hj
      all_goals
        rw [List.mem_singleton.mp hj]
        trivial
    · cases q <;> simp only [go, List.mem_cons, List.not_mem_nil, or_false] at hj
      · rcases hj with rfl | rfl | rfl <;> trivial
      · rw [hj]
        trivial
  | sleep q =>
    rw [List.mem_singleton.mp hj]
    trivial
  | lockTimer =>
    rw [List.mem_singleton.mp hj]
    trivial
  | testDeadline =>
    cases c with
    | front t =>
      dsimp only [exec] at hj
      split at hj
      · rename_i hfront
        split at hj
        · rw [List.mem_singleton.mp hj]
          trivial
        · rename_i hnow
          simp only [go, List.mem_cons, List.not_mem_nil, or_false] at hj
          rcases hj with rfl | rfl | rfl
          · trivial
          · exact keep ⟨h.timer t hfront.1, Nat.le_of_not_lt hnow⟩
          · trivial
      · cases hj
    | _ => cases hj
  | sleepUntil at_ =>
    rw [List.mem_singleton.mp hj]
    trivial
  | setClosed q =>
    dsimp only [exec] at hj
    split at hj
    · cases hj
    · rw [List.mem_singleton.mp hj]
      trivial
  | lockClose q =>
    dsimp only [exec, lockQueue] at hj
    cases q <;> simp only [List.mem_cons, List.not_mem_nil, or_false] at hj
    all_goals rcases hj with rfl | rfl | rfl <;> trivial
  | cancelAll q =>
    obtain ⟨t, -, rfl⟩ := List.mem_map.mp hj
    rfl
  | notifyOne q => cases c <;> cases hj
  | _ => cases hj

/-- What has been added to a task that waits stays with it. -/
theorem dependencyOf_after (h : Invariant s) (hs : s.stack θ = i :: rest) {t d : T}
    (hwait : (exec θ s.mem c i).mem.Waiting t) (hd : DependencyOf s t d) :
    DependencyOf (s.after θ rest (exec θ s.mem c i)) t d := by
  have hok := h.ok i (Lib.Config.pending_top hs)
  rcases hd with hd | hd
  · rcases (exec_taskChange θ s.mem c i).dependencies_eq t with ⟨heq, -⟩ | ⟨x, -, heq, -⟩ | ⟨rfl, -⟩
    · exact .inl (by rw [← heq] at hd; exact hd)
    · refine .inl ?_
      show d ∈ ((exec θ s.mem c i).mem.task t).dependencies_
      rw [heq]
      exact List.mem_append_left _ hd
    · exact absurd ((exec_grows θ c hok).waiting hwait) hok
  · rcases hd.after hs with rfl | hd
    · refine .inl ?_
      show d ∈ ((exec θ s.mem c (.linkDependency t d)).mem.task t).dependencies_
      dsimp only [exec, go]
      rw [Mem.task_onTask_self]
      exact List.mem_append_right _ List.mem_cons_self
    · exact .inr hd

theorem triggerOf_after (h : Invariant s) (hs : s.stack θ = i :: rest) {t d : T}
    (hwait : (exec θ s.mem c i).mem.Waiting t) (hd : TriggerOf s t d) :
    TriggerOf (s.after θ rest (exec θ s.mem c i)) t d := by
  have hok := h.ok i (Lib.Config.pending_top hs)
  rcases hd with hd | hd
  · rcases (exec_taskChange θ s.mem c i).triggers_eq t with ⟨heq, -⟩ | ⟨x, -, heq, -⟩ | ⟨rfl, -⟩
    · exact .inl (by rw [← heq] at hd; exact hd)
    · refine .inl ?_
      show d ∈ ((exec θ s.mem c i).mem.task t).triggers_
      rw [heq]
      exact List.mem_append_left _ hd
    · exact absurd ((exec_grows θ c hok).waiting hwait) hok
  · rcases hd.after hs with rfl | hd
    · refine .inl ?_
      show d ∈ ((exec θ s.mem c (.linkTrigger t d)).mem.task t).triggers_
      dsimp only [exec, go]
      rw [Mem.task_onTask_self]
      exact List.mem_append_right _ List.mem_cons_self
    · exact .inr hd

/-- A step of a thread keeps the invariant. -/
theorem exec (h : Invariant s) (hs : s.stack θ = i :: rest) :
    Invariant (s.after θ rest (exec θ s.mem c i)) := by
  have hok := h.ok i (Lib.Config.pending_top hs)
  have hgrows := exec_grows θ c hok
  have hchange := exec_taskChange θ s.mem c i
  have hwaiting {t : T} (hwait : (Executor.exec θ s.mem c i).mem.Waiting t) : s.mem.Waiting t :=
    hgrows.waiting hwait
  constructor
  case ok =>
    intro j hj
    rcases Lib.Config.pending_after hs hj with hj | hj
    · exact h.ok_next hs hj
    · exact (h.ok j hj).grows hgrows h.submitted
  case submitted =>
    intro t hstate
    show (Executor.exec θ s.mem c i).mem.submitted t = true
    rw [hgrows.submitted]
    rcases hchange.state_eq t with heq | ⟨rfl, -, -⟩ | ⟨by_, -, -, heq⟩ | ⟨state, rfl, heq⟩
    · exact h.submitted t (heq.symm.trans hstate)
    · exact hok
    · exact nomatch heq.symm.trans hstate
    · have hfin : state.finished = true := hok
      rw [heq.symm.trans hstate] at hfin
      cases hfin
  case registered => exact hchange.registered h.registered
  case dependencies =>
    intro t d hd
    have keep (hd : s.mem.Finished d ∨ t ∈ (s.mem.task d).depended_) :
        (Executor.exec θ s.mem c i).mem.Finished d ∨
          t ∈ ((Executor.exec θ s.mem c i).mem.task d).depended_ := by
      rcases hd with hfin | hmem
      · exact .inl (hfin.grows hgrows)
      · exact ((hgrows.task d).depended t hmem).imp_left fun hfin ↦ (hgrows.task d).finished hfin
    replace hd : d ∈ ((Executor.exec θ s.mem c i).mem.task t).dependencies_ := hd
    rcases hchange.dependencies_eq t with ⟨heq, -⟩ | ⟨x, rfl, heq, -⟩ | ⟨-, heq, -⟩
    · exact keep (h.dependencies t d (by rw [heq] at hd; exact hd))
    · rw [heq, List.mem_append, List.mem_singleton] at hd
      rcases hd with hd | rfl
      · exact keep (h.dependencies t d hd)
      · exact keep hok.2
    · rw [heq] at hd
      cases hd
  case depended =>
    intro t d hwait ht
    rcases hchange.depended_eq d with heq | ⟨x, rfl, heq⟩ | ⟨-, x, heq⟩
    · exact h.dependencyOf_after hs hwait
        (h.depended t d (hwaiting hwait) (by rw [← heq]; exact ht))
    · replace ht := List.mem_append.mp (heq ▸ ht)
      rcases ht with ht | ht
      · exact h.dependencyOf_after hs hwait (h.depended t d (hwaiting hwait) ht)
      · rw [List.mem_singleton.mp ht]
        exact .inr (Lib.Config.pending_next (List.mem_cons_of_mem _ List.mem_cons_self))
    · refine h.dependencyOf_after hs hwait (h.depended t d (hwaiting hwait) ?_)
      rw [heq]
      exact List.mem_cons_of_mem _ ht
  case has_dependencies =>
    intro t hwait
    show ((Executor.exec θ s.mem c i).mem.task t).has_dependencies_ = true ↔
      ((Executor.exec θ s.mem c i).mem.task t).dependencies_ ≠ []
    rcases hchange.dependencies_eq t with ⟨heq, hhas⟩ | ⟨x, -, heq, hhas⟩ | ⟨rfl, -⟩
    · rw [heq, hhas]
      exact h.has_dependencies t (hwaiting hwait)
    · rw [heq, hhas]
      simp
    · exact absurd (hwaiting hwait) hok
  case triggered =>
    intro t d hwait ht
    rcases hchange.triggered_eq d with heq | ⟨x, rfl, heq⟩ | ⟨-, x, heq, -⟩
    · exact h.triggerOf_after hs hwait (h.triggered t d (hwaiting hwait) (by rw [← heq]; exact ht))
    · replace ht := List.mem_append.mp (heq ▸ ht)
      rcases ht with ht | ht
      · exact h.triggerOf_after hs hwait (h.triggered t d (hwaiting hwait) ht)
      · rw [List.mem_singleton.mp ht]
        exact .inr (Lib.Config.pending_next (List.mem_cons_of_mem _ List.mem_cons_self))
    · refine h.triggerOf_after hs hwait (h.triggered t d (hwaiting hwait) ?_)
      rw [heq]
      exact List.mem_cons_of_mem _ ht
  case activated =>
    intro t hwait hact
    rcases hchange.activated_eq t with heq | ⟨d, rfl, -⟩ | ⟨d, xs, rfl, heq, -⟩
    · obtain ⟨d, hfin, hd⟩ := h.activated t (hwaiting hwait) (heq.symm.trans hact)
      exact ⟨d, hfin.grows hgrows, h.triggerOf_after hs hwait hd⟩
    · refine ⟨d, Mem.Finished.grows hok.2 hgrows, .inr (Lib.Config.pending_next ?_)⟩
      exact List.mem_cons_of_mem _ List.mem_cons_self
    · refine ⟨d, Mem.Finished.grows hok hgrows, h.triggerOf_after hs hwait ?_⟩
      exact h.triggered t d (hwaiting hwait) (by rw [heq]; exact List.mem_cons_self)
  case has_triggers =>
    intro t hwait
    show ((Executor.exec θ s.mem c i).mem.task t).has_triggers_ = true ↔
      ((Executor.exec θ s.mem c i).mem.task t).triggers_ ≠ []
    rcases hchange.triggers_eq t with ⟨heq, hhas⟩ | ⟨x, -, heq, hhas⟩ | ⟨rfl, -⟩
    · rw [heq, hhas]
      exact h.has_triggers t (hwaiting hwait)
    · rw [heq, hhas]
      simp
    · exact absurd (hwaiting hwait) hok
  case timer =>
    intro t ht
    rcases (exec_queueChange θ s.mem c i).mem_queue ht with ht | rfl
    · exact (h.timer t ht).grows hgrows
    · exact Mem.Timed.grows hok hgrows

/-! ## The other steps -/

omit [DecidableEq Θ] in
theorem ok_call {call : Call T} (hallowed : Allowed s call) {i : Instr T V E} (hi : s.Pending i)
    (hok : s.mem.Ok i) : (s.mem.call call).Ok i := by
  cases call with
  | submit t =>
    have hadds := hallowed i hi
    have hfalse {x : T} (hne : x ≠ t) (hx : s.mem.submitted x = false) :
        (s.mem.call (.submit t)).submitted x = false :=
      (Function.update_of_ne hne _ _).trans hx
    have htrue {x : T} (hx : s.mem.submitted x = true) :
        (s.mem.call (.submit t)).submitted x = true := by
      by_cases hne : x = t
      · subst hne
        exact Function.update_self _ _ _
      · exact (Function.update_of_ne hne _ _).trans hx
    cases i with
    | linkDependency x d => exact ⟨hfalse (fun hx ↦ hadds (congrArg some hx)) hok.1, hok.2⟩
    | activate d x => exact ⟨hfalse (fun hx ↦ hadds (congrArg some hx)) hok.1, hok.2⟩
    | testEnqueued x => exact ⟨htrue hok.1, hok.2⟩
    | testFinished x => exact ⟨htrue hok.1, hok.2⟩
    | testClosed q x =>
      cases q with
      | tasks => trivial
      | timer => exact ⟨htrue hok.1, hok.2⟩
    | lockPush q x =>
      cases q with
      | tasks => trivial
      | timer => exact ⟨htrue hok.1, hok.2⟩
    | emplace q x =>
      cases q with
      | tasks => trivial
      | timer => exact ⟨htrue hok.1, hok.2⟩
    | timerTest x => exact ⟨⟨htrue hok.1.1, hok.1.2⟩, hok.2⟩
    | setQueue x => exact htrue hok
    | casSubmitted x => exact htrue hok
    | testSubmitted by_ x => cases by_ <;> exact hok
    | _ =>
      first
      | exact hfalse (fun hx ↦ hadds (congrArg some hx)) hok
      | exact hok
  | _ => exact hok

omit [DecidableEq Θ] in
/-- A step that leaves the tasks and the queues as they are. -/
theorem of_task_eq (h : Invariant s) {s' : State Θ T V E} (htask : s'.mem.task = s.mem.task)
    (hqueue : s'.mem.queue = s.mem.queue) (hpend : ∀ i, s.Pending i → s'.Pending i)
    (hsub : ∀ t, s.mem.submitted t = true → s'.mem.submitted t = true)
    (hok : ∀ i, s'.Pending i → s'.mem.Ok i) : Invariant s' := by
  have hwait (t : T) (hw : s'.mem.Waiting t) : s.mem.Waiting t := by
    rw [Mem.Waiting, htask] at hw
    exact hw
  have hfin (t : T) (hf : s.mem.Finished t) : s'.mem.Finished t := by
    rw [Mem.Finished, htask]
    exact hf
  have hdep {t d : T} (hd : DependencyOf s t d) : DependencyOf s' t d :=
    hd.imp (fun hd ↦ by rw [htask]; exact hd) (hpend _)
  have htrig {t d : T} (hd : TriggerOf s t d) : TriggerOf s' t d :=
    hd.imp (fun hd ↦ by rw [htask]; exact hd) (hpend _)
  constructor
  case ok => exact hok
  case submitted => exact fun t ht ↦ hsub t (h.submitted t (by rw [← htask]; exact ht))
  case registered => rw [htask]; exact h.registered
  case dependencies =>
    rw [htask]
    exact fun t d hd ↦ (h.dependencies t d hd).imp_left (hfin d)
  case depended =>
    rw [htask]
    exact fun t d hw ht ↦ hdep (h.depended t d (hwait t hw) ht)
  case has_dependencies =>
    rw [htask]
    exact fun t hw ↦ h.has_dependencies t (hwait t hw)
  case triggered =>
    rw [htask]
    exact fun t d hw ht ↦ htrig (h.triggered t d (hwait t hw) ht)
  case activated =>
    rw [htask]
    intro t hw hact
    obtain ⟨d, hd, hof⟩ := h.activated t (hwait t hw) hact
    exact ⟨d, hfin d hd, htrig hof⟩
  case has_triggers =>
    rw [htask]
    exact fun t hw ↦ h.has_triggers t (hwait t hw)
  case timer =>
    rw [hqueue]
    intro t ht
    obtain ⟨h1, h2⟩ := h.timer t ht
    exact ⟨hsub t h1, by rw [htask]; exact h2⟩

/-- A call keeps the invariant. -/
theorem call (h : Invariant s) {call : Call T} (hallowed : Allowed s call) :
    Invariant (s.after θ (s.stack θ)
      ⟨true, s.mem.call call, call.code ++ [.returned call], Label.called call⟩) := by
  refine h.of_task_eq (by cases call <;> rfl) (by cases call <;> rfl)
    (fun i hi ↦ Lib.Config.pending_push.mpr (.inr hi)) (fun t ht ↦ ?_) fun i hi ↦ ?_
  · cases call with
    | submit x =>
      show Function.update s.mem.submitted x true t = true
      rw [Function.update_apply, ht, ite_self]
    | _ => exact ht
  · rcases Lib.Config.pending_push.mp hi with hi | hi
    · rcases List.mem_append.mp hi with hi | hi
      · cases call with
        | startShutdown =>
          simp only [Call.code, List.mem_cons, List.not_mem_nil, or_false] at hi
          rcases hi with rfl | rfl <;> trivial
        | submit t =>
          rw [List.mem_singleton.mp hi]
          exact Function.update_self _ _ _
        | cancel t =>
          rw [List.mem_singleton.mp hi]
          rfl
        | _ =>
          rw [List.mem_singleton.mp hi]
          exact hallowed
      · rw [List.mem_singleton.mp hi]
        trivial
    · exact ok_call hallowed hi (h.ok i hi)

omit [DecidableEq Θ] in
/-- The invariant does not depend on how much time passes. -/
theorem tick (h : Invariant s) (d : ℕ) :
    Invariant { s with mem := { s.mem with now := s.mem.now + d } } :=
  h.of_task_eq rfl rfl (fun _ hi ↦ hi) (fun _ ht ↦ ht) fun i hi ↦
    (h.ok i hi).grows (.of_task_eq rfl rfl (Nat.le_add_right _ _)) h.submitted

/-- **The invariant is kept by every step.** -/
theorem step (h : Invariant s) {role : Θ → Role} {l : Label T} {s' : State Θ T V E}
    (hstep : Step role s l s') : Invariant s' := by
  cases hstep with
  | exec c hs henabled => exact h.exec hs
  | call c hcan hallowed => exact h.call hallowed
  | tick d => exact h.tick d

end

end Invariant

theorem invariant_of_trace [DecidableEq Θ] [Inhabited V] {role : Θ → Role} {s : State Θ T V E}
    {h : List (State Θ T V E × Label T)} (hrun : Lib.Trace (Step role) (init role) h s) :
    Invariant s :=
  hrun.invariant (I := fun _ s ↦ Invariant s) (invariant_init role) fun _ _ _ _ hinv hstep ↦
    hinv.step hstep

end Executor
end ManyTasks
