import ManyTasks.Executor.Construction

/-!
# When the function of a combinator runs

The future of `WhenAll` is enqueued only when all the futures that were passed are finished, that of
`WhenFirst` only when one of them is (`Func.Ready`).  This stays so while the future is in the queue
or in the hands of a thread, so it is so when its function begins (`Sound`).
-/

set_option autoImplicit false

namespace ManyTasks
namespace Executor

variable {Θ T V E : Type}

/-! ## Ready -/

/-- What the function of a combinator finds. -/
def Func.Ready (m : Mem Θ T V E) : Func T → Prop
  | .whenAll all => ∀ d ∈ all, m.Finished d
  | .whenFirst all => all ≠ [] → ∃ d ∈ all, m.Finished d

theorem Func.Ready.of_finished {f : Func T} {m m' : Mem Θ T V E} (h : f.Ready m)
    (hfin : ∀ d, m.Finished d → m'.Finished d) : f.Ready m' := by
  cases f with
  | whenAll all => exact fun d hd ↦ hfin d (h d hd)
  | whenFirst all =>
    intro hne
    obtain ⟨d, hd, hdone⟩ := h hne
    exact ⟨d, hd, hfin d hdone⟩

/-- What adds to a task adds to one that has not been submitted. -/
theorem Mem.Ok.submitted_of_adding {m : Mem Θ T V E} {i : Instr T V E} (h : m.Ok i) {k : Kind}
    {t d : T}
    (hi : i.adding = some (k, t, d)) : m.submitted t = false := by
  cases i with
  | addDepended | testDepended | register | addTriggered | testTriggered | registerTrigger |
      linkTrigger =>
    obtain ⟨-, rfl, -⟩ := Prod.mk.inj (Option.some.inj hi)
    exact h
  | linkDependency | activate =>
    obtain ⟨-, rfl, -⟩ := Prod.mk.inj (Option.some.inj hi)
    exact h.1
  | _ => cases hi

section

variable [DecidableEq T] {s : Futures Θ T V E} {t : T} {f : Func T}

/-- Once it is submitted, all the futures that were passed have been added. -/
theorem Built.mem_links (h : Built s) (hinv : Invariant s.exec) (hf : s.func_ t = some f)
    (hstate : (s.exec.mem.task t).state_ = .Submitted) :
    ∀ d ∈ f.all, d ∈ (s.exec.mem.task t).links f.kind := by
  intro d hd
  have hsub := hinv.submitted t hstate
  rcases (h.gets t f hf).linked (.inr hstate) d hd with hmem | ⟨i, hi, hadds⟩ | ⟨θ, calls, hscript,
    hcall⟩
  · exact hmem
  · exact absurd (((hinv.ok i hi).submitted_of_adding hadds).symm.trans hsub) Bool.false_ne_true
  · obtain ⟨g, -, -, hnot⟩ := h.script θ t calls hscript
    exact absurd ((hnot (List.ne_nil_of_mem hcall)).symm.trans hsub) Bool.false_ne_true

theorem Built.ready (h : Built s) (hinv : Invariant s.exec) (hf : s.func_ t = some f)
    (hstate : (s.exec.mem.task t).state_ = .Submitted) (hdue : s.exec.mem.Due t) :
    f.Ready s.exec.mem := by
  have hlinks := h.mem_links hinv hf hstate
  obtain ⟨-, hother, htime, hfrom, -⟩ := h.gets t f hf
  cases f with
  | whenAll all =>
    have htrigs : (s.exec.mem.task t).triggers_ = [] := hother .trigger (by simp [Func.kind])
    intro d hd
    have hmem : d ∈ (s.exec.mem.task t).dependencies_ := hlinks d hd
    rcases hdue with ⟨-, hall⟩ | ⟨x, hx, -⟩ | ⟨htimed, -⟩ | ⟨hnone, -⟩
    · exact hall d hmem
    · rw [htrigs] at hx
      cases hx
    · exact absurd (htime.symm.trans htimed) Bool.false_ne_true
    · rw [hnone] at hmem
      cases hmem
  | whenFirst all =>
    have hdeps : (s.exec.mem.task t).dependencies_ = [] := hother .dependency (by simp [Func.kind])
    intro hne
    rcases hdue with ⟨hsome, -⟩ | ⟨x, hx, hfin⟩ | ⟨htimed, -⟩ | ⟨-, hnone, -⟩
    · exact absurd hdeps hsome
    · exact ⟨x, hfrom x hx, hfin⟩
    · exact absurd (htime.symm.trans htimed) Bool.false_ne_true
    · obtain ⟨x, xs, rfl⟩ := List.exists_cons_of_ne_nil hne
      have hmem : x ∈ (s.exec.mem.task t).triggers_ := hlinks x List.mem_cons_self
      rw [hnone] at hmem
      cases hmem

end

/-! ## Where a store comes from -/

section

variable {m : Mem Θ T V E} {i : Instr T V E} {next : List (Instr T V E)} {l : Label T}
    {tasks : List T}
  {t : T}

theorem Flow.of_stored (h : Flow m i next l tasks) {state : TaskStates} (hl : l = .stored t state) :
    i = .store t state := by
  cases h with
  | store x state' =>
    obtain ⟨rfl, rfl⟩ := Label.stored.inj hl
    rfl
  | _ => cases hl

theorem Flow.of_mem_store_failed (h : Flow m i next l tasks) (hj : .store t .Failed ∈ next) :
    ∃ e, i = .setError t e := by
  cases h with
  | quiet h =>
    cases h with
    | lockClose q j hnotify => rcases hnotify with rfl | rfl <;> simp at hj
    | _ => simp_all
  | _ => simp at hj

theorem Flow.of_mem_store_completed (h : Flow m i next l tasks) (hj : .store t .Completed ∈ next) :
    i = .running t := by
  cases h with
  | quiet h =>
    cases h with
    | lockClose q j hnotify => rcases hnotify with rfl | rfl <;> simp at hj
    | _ => simp_all
  | _ => simp at hj

theorem Flow.of_mem_setError (h : Flow m i next l tasks) {e : E} (hj : .setError t e ∈ next) :
    i = .running t := by
  cases h with
  | quiet h =>
    cases h with
    | lockClose q j hnotify => rcases hnotify with rfl | rfl <;> simp at hj
    | _ => simp_all
  | _ => simp at hj

theorem TaskChange.exc_ptr_ne_none [DecidableEq T] {θ : Θ} {task : T → Task Θ T V E}
    (h : TaskChange θ m i task) (t : T) (hne : (m.task t).exc_ptr_ ≠ none) :
    (task t).exc_ptr_ ≠ none := by
  cases h with
  | same => exact hne
  | _ =>
    simp only [Mem.task_onTask]
    split_ifs <;> simp_all

end

/-! ## In the hands of a thread -/

/-- The task is in the queue of the workers, or a thread has it in its hands. -/
def InHands (s : State Θ T V E) (t : T) [DecidableEq T] : Prop :=
  t ∈ (s.mem.queue .tasks).queue_ ∨ ∃ i, s.Pending i ∧ 0 < i.has t

section

variable [DecidableEq T] [DecidableEq Θ] {s : State Θ T V E}

theorem Single.not_inHands (h : Single s) {t : T} (ht : s.mem.Waiting t ∨ s.mem.Done t) :
    ¬ InHands s t := by
  rintro (hmem | ⟨i, hi, hpos⟩)
  · have hzero := h.none t ht ∅
    have hpos := List.count_pos_iff.mpr hmem
    omega
  · exact absurd (h.has_eq_zero ht hi) (Nat.pos_iff_ne_zero.mp hpos)

/-- A task comes into the hands of a thread when it is due. -/
theorem inHands_exec {θ : Θ} {i : Instr T V E} {rest : List (Instr T V E)} {c : Choice Θ T V E}
    (hs : s.stack θ = i :: rest) {t : T} (h : InHands (s.after θ rest (exec θ s.mem c i)) t) :
    InHands s t ∨ ∃ by_, i = .casEnqueued by_ t ∧ (s.mem.task t).state_ = .Submitted := by
  have hflow := exec_flow θ s.mem c i
  have hle := hflow.has_le t
  by_cases hl : (exec θ s.mem c i).label = .enqueued t
  · obtain ⟨⟨by_, hi⟩, hstate⟩ := hflow.enqueued hl
    exact .inr ⟨by_, hi, hstate⟩
  · rw [if_neg hl] at hle
    left
    have hold (hpos : 0 < i.has t + (s.mem.queue .tasks).queue_.count t) : InHands s t := by
      rcases Nat.eq_zero_or_pos (i.has t) with hzero | hpos'
      · exact .inl (List.count_pos_iff.mp (by omega))
      · exact .inr ⟨i, Lib.Config.pending_top hs, hpos'⟩
    rcases h with hmem | ⟨j, hj, hpos⟩
    · have hpos : 0 < ((exec θ s.mem c i).mem.queue .tasks).queue_.count t :=
        List.count_pos_iff.mpr hmem
      exact hold (by omega)
    · rcases Lib.Config.pending_after hs hj with hnext | hpend
      · have hone : j.has t ≤ ((exec θ s.mem c i).next.map (Instr.has t)).sum :=
          List.single_le_sum (fun _ _ ↦ Nat.zero_le _) _ (List.mem_map_of_mem hnext)
        exact hold (by omega)
      · exact .inr ⟨j, hpend, hpos⟩

omit [DecidableEq Θ] in
theorem inHands_push [DecidableEq Θ] {θ : Θ} {call : Call T} {t : T}
    (h : InHands (s.after θ (s.stack θ)
      ⟨true, s.mem.call call, call.code ++ [.returned call], Label.called call⟩) t) : InHands s
        t := by
  rcases h with hmem | ⟨j, hj, hpos⟩
  · cases call <;> exact .inl hmem
  · rcases Lib.Config.pending_push.mp hj with hcode | hpend
    · have hle : j.has t ≤ _ := List.single_le_sum (fun _ _ ↦ Nat.zero_le _) _
        (List.mem_map_of_mem (f := Instr.has t) hcode)
      rw [call.has_code t] at hle
      omega
    · exact .inr ⟨j, hpend, hpos⟩

theorem inHands_step {role : Θ → Role} {l : Label T} {s' : State Θ T V E} (hstep : Step role s l s')
    {t : T} (h : InHands s' t) : InHands s t ∨
      ∃ by_, s.Pending (.casEnqueued by_ t) ∧ (s.mem.task t).state_ = .Submitted := by
  cases hstep with
  | exec c hs henabled =>
    refine (inHands_exec hs h).imp_right ?_
    rintro ⟨by_, rfl, hstate⟩
    exact ⟨by_, Lib.Config.pending_top hs, hstate⟩
  | call call hcan hallowed => exact .inl (inHands_push h)
  | tick d => exact .inl h

/-! ## Finished tasks and errors -/

theorem finished_step_iff (h : Invariant s) {role : Θ → Role} {l : Label T} {s' : State Θ T V E}
    (hstep : Step role s l s') (t : T) :
    s'.mem.Finished t ↔ s.mem.Finished t ∨ ∃ state, l = .stored t state := by
  cases hstep with
  | @exec θ i rest c hs henabled =>
    have hok := h.ok i (Lib.Config.pending_top hs)
    constructor
    · intro hfin
      show s.mem.Finished t ∨ _
      rcases (exec_taskChange θ s.mem c i).state_eq t with
        heq | ⟨-, -, heq⟩ | ⟨by_, -, -, heq⟩ | ⟨state, rfl, -⟩
      · exact .inl (by rw [Mem.Finished, ← heq]; exact hfin)
      · rw [Mem.Finished, Lib.Config.mem_after, heq] at hfin
        cases hfin
      · rw [Mem.Finished, Lib.Config.mem_after, heq] at hfin
        cases hfin
      · exact .inr ⟨state, rfl⟩
    · rintro (hfin | ⟨state, hl⟩)
      · exact hfin.grows (exec_grows θ c hok)
      · obtain rfl := (exec_flow θ s.mem c i).of_stored hl
        have hfin : state.finished = true := hok
        show ((Executor.exec θ s.mem c (.store t state)).mem.task t).state_.finished = true
        dsimp only [Executor.exec]
        rw [Mem.task_onTask_self]
        exact hfin
  | call call hcan hallowed => cases call <;> simp [Mem.Finished, Mem.call]
  | tick d => simp [Mem.Finished]

/-- A task has its exception before it is `Failed`. -/
def ErrorsSet (s : State Θ T V E) : Prop :=
  ∀ t, (s.mem.task t).state_ = .Failed ∨ s.Pending (.store t .Failed) →
    (s.mem.task t).exc_ptr_ ≠ none

theorem errorsSet_step {role : Θ → Role} {l : Label T} {s' : State Θ T V E} (h : ErrorsSet s)
    (hstep : Step role s l s') : ErrorsSet s' := by
  intro t ht
  cases hstep with
  | @exec θ i rest c hs henabled =>
    have hold (ht : (s.mem.task t).state_ = .Failed ∨ s.Pending (.store t .Failed)) :
        ((exec θ s.mem c i).mem.task t).exc_ptr_ ≠ none :=
      (exec_taskChange θ s.mem c i).exc_ptr_ne_none t (h t ht)
    rcases ht with hstate | hpend
    · rcases (exec_taskChange θ s.mem c i).state_eq t with
        heq | ⟨-, -, heq⟩ | ⟨by_, -, -, heq⟩ | ⟨state, rfl, heq⟩
      · exact hold (.inl (heq.symm.trans hstate))
      · cases heq.symm.trans hstate
      · cases heq.symm.trans hstate
      · obtain rfl : state = .Failed := heq.symm.trans hstate
        exact hold (.inr (Lib.Config.pending_top hs))
    · rcases Lib.Config.pending_after hs hpend with hnext | hpend
      · obtain ⟨e, rfl⟩ := (exec_flow θ s.mem c i).of_mem_store_failed hnext
        simp [exec, go]
      · exact hold (.inr hpend)
  | call call hcan hallowed =>
    have hold : (s.mem.task t).state_ = .Failed ∨ s.Pending (.store t .Failed) := by
      rcases ht with hstate | hpend
      · exact .inl (by cases call <;> exact hstate)
      · rcases Lib.Config.pending_push.mp hpend with hcode | hpend
        · cases call <;> simp [Call.code] at hcode
        · exact .inr hpend
    cases call <;> exact h t hold
  | tick d => exact h t ht

end

/-! ## The invariant -/

section

variable [DecidableEq T] [DecidableEq Θ]

/-- What holds in every state that can be reached. -/
structure Sound (s : Futures Θ T V E) : Prop where
  single : Single s.exec
  built : Built s
  ready : ∀ t f, s.func_ t = some f → InHands s.exec t → f.Ready s.exec.mem
  order : ∀ t, t ∈ s.order ↔ s.exec.mem.Finished t
  errors : ErrorsSet s.exec
  frame : ∀ θ fr, s.frame θ = some fr → s.InFunc θ

variable {s s' : Futures Θ T V E} [Inhabited V] {role : Θ → Role} {vector : List V → V}
  {mv : Move Θ T V E}

theorem not_inHands_init (role : Θ → Role) (t : T) : ¬ InHands (init role : State Θ T V E) t :=
  (single_init role).not_inHands (.inl (.inl rfl))

theorem sound_init (role : Θ → Role) : Sound (Futures.init role : Futures Θ T V E) where
  single := single_init role
  built := built_init role
  ready _ _ h := by cases h
  order t := ⟨(fun h ↦ by cases h), fun h ↦ by cases h⟩
  errors t ht := by
    rcases ht with hstate | hpend
    · cases hstate
    · exact absurd (.inr ⟨_, hpend, by simp [Instr.has, Instr.runs]⟩) (not_inHands_init role t)
  frame _ _ h := by cases h

omit [Inhabited V] in
theorem mem_noted {l : Label T} {order : List T} {t : T} :
    t ∈ Futures.noted l order ↔ t ∈ order ∨ ∃ state, l = .stored t state := by
  cases l with
  | stored x state =>
    simp only [Futures.noted]
    split_ifs with hx
    · simp only [Label.stored.injEq]
      refine ⟨.inl, ?_⟩
      rintro (h | ⟨_, rfl, -⟩)
      · exact h
      · exact hx
    · simp [eq_comm]
  | _ => simp [Futures.noted]

/-- Functions are given to new futures. -/
theorem Futures.Step.func_cases (h : Futures.Step role vector s mv s') {t : T} {f : Func T}
    (hf : s'.func_ t = some f) :
    s.func_ t = some f
      ∨ (s.Fresh t ∧ s'.exec = s.exec ∧ s'.frame = s.frame ∧ s'.order = s.order) := by
  cases h with
  | make θ x g hcan hfunc hscript hfresh hall =>
    by_cases hx : t = x
    · subst hx
      exact .inr ⟨hfresh, rfl, rfl, rfl⟩
    · exact .inl ((Function.update_of_ne hx _ _).symm.trans hf)
  | _ => exact .inl hf

/-- A function is not taken away. -/
theorem Futures.Step.func_eq (h : Futures.Step role vector s mv s') {t : T} {f : Func T}
    (hf : s.func_ t = some f) : s'.func_ t = some f := by
  cases h with
  | make θ x g hcan hfunc hscript hfresh hall =>
    have hx : t ≠ x := by
      rintro rfl
      cases hf.symm.trans hfresh.func
    exact (Function.update_of_ne hx _ _).trans hf
  | _ => exact hf

theorem Sound.ready_step (h : Sound s) (hstep : Futures.Step role vector s mv s') (t : T)
    (f : Func T)
    (hf : s'.func_ t = some f) (hhands : InHands s'.exec t) : f.Ready s'.exec.mem := by
  rcases hstep.func_cases hf with hf | ⟨hfresh, hexec, -⟩
  · rcases hstep.exec_step with hexec | hexec
    · rw [hexec] at hhands ⊢
      exact h.ready t f hf hhands
    · have hready : f.Ready s.exec.mem := by
        rcases inHands_step hexec hhands with hhands | ⟨by_, hpend, hstate⟩
        · exact h.ready t f hf hhands
        · exact h.built.ready h.single.inv hf hstate ((h.single.inv.ok _ hpend).2 hstate)
      exact hready.of_finished fun d hd ↦ (finished_step_iff h.single.inv hexec d).mpr (.inl hd)
  · rw [hexec] at hhands
    refine absurd hhands (h.single.not_inHands (.inl (.inl ?_)))
    rw [hfresh.task]
    rfl

/-- A step that leaves the thread as it is. -/
theorem Futures.Step.inFunc (hstep : Futures.Step role vector s mv s') {θ : Θ}
    (hstack : s'.exec.stack θ = s.exec.stack θ) (h : s.InFunc θ) : s'.InFunc θ := by
  obtain ⟨t, rest, f, hs, hf⟩ := h
  exact ⟨t, rest, f, hstack.trans hs, hstep.func_eq hf⟩

omit [Inhabited V] in
/-- The machine moves one thread. -/
theorem StepBy.stack_eq {s s' : State Θ T V E} {a : Action Θ T V E} (h : StepBy role s a s') {θ : Θ}
    (hexec : ∀ c, a ≠ .exec θ c) (hcall : ∀ call, a ≠ .call θ call) : s'.stack θ = s.stack θ := by
  cases h with
  | @exec θ' i rest c hs henabled =>
    refine Lib.Config.stack_after_of_ne fun hθ ↦ hexec c ?_
    rw [hθ]
  | @call θ' call hcan hallowed =>
    refine Lib.Config.stack_after_of_ne fun hθ ↦ hcall call ?_
    rw [hθ]
  | tick d => rfl

/-- A thread with a frame moves only in its function. -/
theorem Sound.stack_eq (h : Sound s) (hstep : Futures.Step role vector s mv s') {θ : Θ}
    {fr : Frame T V E} (hframe : s.frame θ = some fr) (hleave : mv ≠ .leave θ) :
    s'.exec.stack θ = s.exec.stack θ := by
  have hin := h.frame θ fr hframe
  cases hstep with
  | machine a hmove hfree =>
    refine hmove.stack_eq ?_ ?_
    · rintro c rfl
      exact hfree.1 hin
    · rintro call rfl
      exact hfree.1 hin
  | call θ' t call rest hscript hframe' hmove =>
    refine hmove.stack_eq (fun c hc ↦ by cases hc) ?_
    rintro _ hc
    cases hc
    cases hframe.symm.trans hframe'
  | leave θ' fr' c hframe' hchoice hmove =>
    refine hmove.stack_eq ?_ fun call hc ↦ by cases hc
    rintro _ hc
    cases hc
    exact hleave rfl
  | _ => rfl

omit [DecidableEq T] [Inhabited V] in
theorem Futures.frame_setFrame {θ θ' : Θ} {p : Option (Frame T V E)} {fr : Frame T V E}
    (h : (s.setFrame θ p).frame θ' = some fr) : (θ' = θ ∧ p = some fr)
    ∨ (θ' ≠ θ ∧ s.frame θ' = some fr) := by
  replace h : Function.update s.frame θ p θ' = some fr := h
  by_cases hθ : θ' = θ
  · rw [hθ, Function.update_self] at h
    exact .inl ⟨hθ, h⟩
  · rw [Function.update_of_ne hθ] at h
    exact .inr ⟨hθ, h⟩

/-- What the frame of a thread is after a step. -/
theorem Futures.Step.frame_cases (hstep : Futures.Step role vector s mv s') {θ : Θ}
    {fr : Frame T V E}
    (hframe : s'.frame θ = some fr) :
    (s.frame θ = some fr ∧ mv ≠ .leave θ) ∨
      (∃ t rest f, mv = .start θ ∧ s.exec.stack θ = .running t :: rest ∧ s.func_ t = some f ∧
        fr = f.start ∧ s'.exec = s.exec) ∨
      ∃ old, mv = .body θ ∧ s.frame θ = some old ∧ old.step vector s.exec.mem = some fr := by
  cases hstep with
  | start θ' t rest f hs hf hnone =>
    rcases Futures.frame_setFrame hframe with ⟨rfl, hfr⟩ | ⟨-, hold⟩
    · exact .inr (.inl ⟨t, rest, f, rfl, hs, hf, (Option.some.inj hfr).symm, rfl⟩)
    · exact .inl ⟨hold, by simp⟩
  | body θ' old new hold hnext =>
    rcases Futures.frame_setFrame hframe with ⟨rfl, hfr⟩ | ⟨-, hold⟩
    · exact .inr (.inr ⟨old, rfl, hold, hnext.trans hfr⟩)
    · exact .inl ⟨hold, by simp⟩
  | leave θ' old c hold hchoice hmove =>
    rcases Futures.frame_setFrame hframe with ⟨rfl, hfr⟩ | ⟨hne, hold⟩
    · cases hfr
    · refine .inl ⟨hold, fun hmv ↦ hne ?_⟩
      cases hmv
      rfl
  | _ => exact .inl ⟨hframe, by simp⟩

theorem Sound.frame_step (h : Sound s) (hstep : Futures.Step role vector s mv s') (θ : Θ)
    (fr : Frame T V E) (hframe : s'.frame θ = some fr) : s'.InFunc θ := by
  rcases hstep.frame_cases hframe with ⟨hold, hne⟩ | ⟨t, rest, f, -, hs, hf, -, hexec⟩ |
    ⟨old, rfl, hold, -⟩
  · exact hstep.inFunc (h.stack_eq hstep hold hne) (h.frame θ fr hold)
  · exact ⟨t, rest, f, by rw [hexec]; exact hs, hstep.func_eq hf⟩
  · exact hstep.inFunc (h.stack_eq hstep hold (by simp)) (h.frame θ old hold)

theorem Sound.step (h : Sound s) (hstep : Futures.Step role vector s mv s') : Sound s' where
  single := by
    rcases hstep.exec_step with hexec | hexec
    · rw [hexec]; exact h.single
    · exact h.single.step hexec
  built := h.built.step h.single.inv hstep
  ready := h.ready_step hstep
  order t := by
    rcases hstep.exec_cases with ⟨hexec, horder, -⟩ | ⟨a, hexec, -, horder⟩
    · rw [hexec, horder]
      exact h.order t
    · rw [horder, mem_noted, h.order t, finished_step_iff h.single.inv hexec.step t]
  errors := by
    rcases hstep.exec_step with hexec | hexec
    · rw [hexec]; exact h.errors
    · exact errorsSet_step h.errors hexec
  frame := h.frame_step hstep

end

end Executor
end ManyTasks
