import ManyTasks.Executor.Handshake
import ManyTasks.Executor.Outcome

/-!
# WhenAll

The future that `WhenAll` returns starts when all the futures that were passed are finished, so its
function never waits; and then it has their values, or the exception of the first one in the list
that failed (`whenAll_correct`).  It does start: a call that has not returned is going to enqueue
it.

An input may be canceled, but only before a worker takes it: after that, what `Get` of it returns
would change.
-/

set_option autoImplicit false

namespace ManyTasks
namespace Executor

variable {Θ T V E : Type} [DecidableEq T] [DecidableEq Θ]

/-! ## Tasks without conditions -/

/-- A task with nothing to wait for is enqueued by `Submit`. -/
def BareTried (s : State Θ T V E) : Prop :=
  ∀ t, (s.mem.task t).state_ = .Submitted → (s.mem.task t).has_dependencies_ = false →
    (s.mem.task t).has_triggers_ = false → (s.mem.task t).has_time_trigger_ = false →
    Trying s t tryDependencies

theorem bareTried_exec {s : State Θ T V E} {θ : Θ} {i : Instr T V E} {rest : List (Instr T V E)}
    {c : Choice Θ T V E} (h : Handshake s) (hbare : BareTried s) (hs : s.stack θ = i :: rest) :
    BareTried (s.after θ rest (exec θ s.mem c i)) := by
  intro t hstate hdeps htrigs htime
  have hgrows := exec_grows θ c (h.inv.ok i (Lib.Config.pending_top hs))
  rcases h.submitted_of_exec hs hstate with hold | ⟨rfl, hcreated⟩
  · obtain ⟨hdeps', htrigs', htime', -⟩ := (hgrows.task t).fixed (h.inv.submitted t hold)
    replace hdeps := hdeps'.symm.trans hdeps
    replace htrigs := htrigs'.symm.trans htrigs
    replace htime := htime'.symm.trans htime
    refine h.exec_trying hs hold hstate (fun by_ hi ↦ ?_) (hbare t hold hdeps htrigs htime)
    simp only [tryDependencies, List.mem_cons, List.not_mem_nil, or_false] at hi
    rcases hi with rfl | rfl | rfl | rfl | rfl
    · exact ⟨.testTriggers by_ t, by simp [tryDependencies], by simp [exec, go, hold]⟩
    · exact ⟨.testDependencies by_ t, by simp [tryDependencies], by simp [exec, go, htrigs]⟩
    · exact ⟨.testQueue by_ t, by simp [tryDependencies],
        by simp [exec, go, Task.readyWithoutTriggers, hdeps, htrigs, htime]⟩
    · exact ⟨.casEnqueued by_ t, by simp [tryDependencies], by simp [exec, go, h.queue t hold]⟩
    · simp [exec, hold] at hstate
  · exact Handshake.trying_submit hcreated List.mem_cons_self

theorem bareTried_step {s s' : State Θ T V E} {role : Θ → Role} {l : Label T} (h : Handshake s)
    (hbare : BareTried s) (hstep : Step role s l s') : BareTried s' := by
  cases hstep with
  | exec c hs henabled => exact bareTried_exec h hbare hs
  | call call hcan hallowed =>
    intro t hstate hdeps htrigs htime
    have htask : (s.mem.call call).task = s.mem.task := by cases call <;> rfl
    rw [Lib.Config.mem_after, htask] at hstate hdeps htrigs htime
    obtain ⟨by_, hby, i, hi, hpend⟩ := hbare t hstate hdeps htrigs htime
    refine ⟨by_, ?_, i, hi, Lib.Config.pending_push.mpr (.inr hpend)⟩
    cases by_ with
    | finished d =>
      rw [Mem.Concerns, Mem.Finished, Lib.Config.mem_after, htask]
      exact hby
    | _ => exact hby
  | tick d => exact hbare

/-- Somebody is going to enqueue the future of `WhenAll`. -/
theorem willTry_of_finished {s : Futures Θ T V E} [Inhabited V] (h : Sound s)
    (hshake : Handshake s.exec)
    (hbare : BareTried s.exec) {c : T} {all : List T} (hf : s.func_ c = some (.whenAll all))
    (hstate : (s.exec.mem.task c).state_ = .Submitted) (hfin : ∀ d ∈ all, s.exec.mem.Finished d) :
    WillTryDependencies s.exec c := by
  obtain ⟨-, hother, htime, hfrom, -⟩ := h.built.gets c _ hf
  have hlinks := h.built.mem_links h.single.inv hf hstate
  by_cases hnil : (s.exec.mem.task c).dependencies_ = []
  · have hdeps := mt (hshake.inv.has_dependencies c (.inr hstate)).mp (not_not.mpr hnil)
    have htrigs := mt (hshake.inv.has_triggers c (.inr hstate)).mp
      (not_not.mpr (hother .trigger (by simp [Func.kind])))
    exact .inl (hbare c hstate (Bool.eq_false_of_not_eq_true hdeps)
      (Bool.eq_false_of_not_eq_true htrigs) htime)
  · exact hshake.willTryDependencies hstate ⟨hnil, fun d hd ↦ hfin d (hfrom d hd)⟩

/-! ## The function -/

/-- The thread that moves. -/
def Move.thread : Move Θ T V E → Option Θ
  | .machine (.exec θ _) | .machine (.call θ _) => some θ
  | .machine (.tick _) => none
  | .make θ _ _ | .call θ | .made θ | .start θ | .body θ | .leave θ => some θ

section

variable [Inhabited V] {s : Futures Θ T V E} {role : Θ → Role} {vector : List V → V} {θ : Θ} {c : T}
  {rest : List (Instr T V E)}

omit [DecidableEq T] [Inhabited V] in
theorem Futures.setFrame_setFrame (p q : Option (Frame T V E)) :
    (s.setFrame θ p).setFrame θ q = s.setFrame θ q := by
  simp only [Futures.setFrame, Function.update_idem]

/-- The thread goes through the function. -/
theorem exists_body_trace (role : Θ → Role) {all : List T}
    (hready : (Func.whenAll all).Ready s.exec.mem)
    (horder : ∀ t, t ∈ s.order ↔ s.exec.mem.Finished t) (herrors : ErrorsSet s.exec)
    {fr : Frame T V E}
    (hok : fr.Ok vector s.exec.mem s.order (.whenAll all)) (hframe : s.frame θ = some fr) :
    ∃ h fr', Lib.Trace (Futures.Step role vector) s h (s.setFrame θ (some fr')) ∧
      (∀ x ∈ h, x.2.thread = some θ) ∧ ((∃ v, fr' = .returns v) ∨ ∃ e, fr' = .throws (some e)) := by
  induction hn : fr.left using Nat.strong_induction_on generalizing s fr with
  | _ n ih =>
    subst hn
    have hself : s.setFrame θ (some fr) = s := by
      have heq : Function.update s.frame θ (some fr) = s.frame := by
        rw [← hframe, Function.update_eq_self]
      simp only [Futures.setFrame, heq]
    rcases Frame.step_spec hok hready horder
      (fun t ht ↦ herrors t (.inl ht)) (fun _ _ _ hc ↦ by cases hc) with hv | he | ⟨fr', hstep,
        hok', hlt⟩
    · exact ⟨[], fr, by rw [hself]; exact .nil, by simp, .inl hv⟩
    · exact ⟨[], fr, by rw [hself]; exact .nil, by simp, .inr he⟩
    · have hbody : Futures.Step role vector s (.body θ) (s.setFrame θ (some fr')) :=
        .body θ fr fr' hframe hstep
      obtain ⟨h, fr₂, hrun, hthread, hend⟩ :=
        ih fr'.left hlt (s := s.setFrame θ (some fr')) hready horder
        herrors hok' (Function.update_self _ _ _) rfl
      rw [Futures.setFrame_setFrame] at hrun
      refine ⟨(s, .body θ) :: h, fr₂, .cons hbody hrun, ?_, hend⟩
      intro x hx
      rcases List.mem_cons.mp hx with rfl | hx
      · rfl
      · exact hthread x hx

/-- A thread that is not in a function goes on in the machine. -/
theorem exists_machine_step (role : Θ → Role) (vector : List V → V) {i : Instr T V E}
    (hs : s.exec.stack θ = i :: rest) (hi : ∀ t, i ≠ .running t)
    (henabled : (exec θ s.exec.mem .none i).enabled = true) :
    ∃ s', Futures.Step role vector s (.machine (.exec θ .none)) s' ∧
      s'.exec.mem = (exec θ s.exec.mem .none i).mem ∧
      s'.exec.stack θ = (exec θ s.exec.mem .none i).next ++ rest := by
  refine ⟨_, .machine _ (.exec .none hs henabled) ⟨?_, fun t rest' hs' ↦ ?_⟩, rfl,
    Lib.Config.stack_after_self⟩
  · rintro ⟨t, rest', f, hs', -⟩
    exact hi t (List.cons.inj (hs.symm.trans hs')).1
  · exact absurd (List.cons.inj (hs.symm.trans hs')).1 (hi t)

/-- What has come of a task is assigned. -/
theorem exists_store_trace (role : Θ → Role) (vector : List V → V) {state : TaskStates}
    (hs : s.exec.stack θ = .store c state :: rest) :
    ∃ h s', Lib.Trace (Futures.Step role vector) s h s' ∧ (∀ x ∈ h, x.2.thread = some θ) ∧
      (s'.exec.mem.task c).state_ = state := by
  obtain ⟨s', hstep, hmem, -⟩ := exists_machine_step role vector hs (by simp) rfl
  refine ⟨_, s', .cons hstep .nil, by simp [Move.thread], ?_⟩
  rw [hmem]
  simp [exec]

/-- The thread leaves the function, and assigns what came of it. -/
theorem exists_leave_trace (role : Θ → Role) (vector : List V → V) {fr : Frame T V E}
    (hframe : s.frame θ = some fr) (hs : s.exec.stack θ = .running c :: rest)
    (hend : (∃ v, fr = .returns v) ∨ ∃ e, fr = .throws (some e)) :
    ∃ h s', Lib.Trace (Futures.Step role vector) s h s' ∧ (∀ x ∈ h, x.2.thread = some θ) ∧
      s'.exec.mem.Done c := by
  have hleave {c' : Choice Θ T V E} (hchoice : fr.choice = some c')
      (henabled : (exec θ s.exec.mem c' (.running c)).enabled = true) :
      ∃ s₁, Futures.Step role vector s (.leave θ) s₁ ∧
        s₁.exec.stack θ = (exec θ s.exec.mem c' (.running c)).next ++ rest :=
    ⟨_, .leave θ fr c' hframe hchoice (.exec c' hs henabled), Lib.Config.stack_after_self⟩
  rcases hend with ⟨v, rfl⟩ | ⟨e, rfl⟩
  · obtain ⟨s₁, hstep, hs₁⟩ := hleave rfl rfl
    obtain ⟨h, s', hrun, hthread, hstate⟩ := exists_store_trace role vector hs₁
    exact ⟨_, s', .cons hstep hrun, by simpa [Move.thread] using hthread, .inl hstate⟩
  · obtain ⟨s₁, hstep, hs₁⟩ := hleave rfl rfl
    obtain ⟨s₂, hset, -, hs₂⟩ := exists_machine_step role vector hs₁ (by simp) rfl
    obtain ⟨h, s', hrun, hthread, hstate⟩ := exists_store_trace role vector hs₂
    exact ⟨_, s', .cons hstep (.cons hset hrun), by simpa [Move.thread] using hthread, .inr hstate⟩

/-- The thread comes to the end of the function by itself. -/
theorem exists_done_trace (role : Θ → Role) {all : List T} (h : Sound s)
    (hd : Delivers vector c (.whenAll all) s) (hf : s.func_ c = some (.whenAll all))
    (hs : s.exec.stack θ = .running c :: rest) :
    ∃ h s', Lib.Trace (Futures.Step role vector) s h s' ∧ (∀ x ∈ h, x.2.thread = some θ) ∧
      s'.exec.mem.Done c := by
  have hready := h.ready_of_running hf hs
  have hbody (s₁ : Futures Θ T V E) {fr : Frame T V E} (hexec : s₁.exec = s.exec)
    (horder : s₁.order = s.order)
      (hok : fr.Ok vector s.exec.mem s.order (.whenAll all)) (hframe : s₁.frame θ = some fr) :
      ∃ h s', Lib.Trace (Futures.Step role vector) s₁ h s' ∧ (∀ x ∈ h, x.2.thread = some θ) ∧
        s'.exec.mem.Done c := by
    rw [← hexec] at hready hs
    rw [← hexec, ← horder] at hok
    obtain ⟨h₁, fr', hrun₁, hthread₁, hend⟩ := exists_body_trace role hready
      (by rw [hexec, horder]; exact h.order) (by rw [hexec]; exact h.errors) hok hframe
    have hself : (s₁.setFrame θ (some fr')).frame θ = some fr' := Function.update_self _ _ _
    obtain ⟨h₂, s₂, hrun₂, hthread₂, hdone⟩ := exists_leave_trace role vector hself hs hend
    refine ⟨h₁ ++ h₂, s₂, hrun₁.append hrun₂, fun x hx ↦ ?_, hdone⟩
    exact (List.mem_append.mp hx).elim (hthread₁ x) (hthread₂ x)
  cases hframe : s.frame θ with
  | some fr => exact hbody s rfl rfl (hd.frame θ fr rest hframe hs) hframe
  | none =>
    have hok : (Func.start (.whenAll all) : Frame T V E).Ok vector s.exec.mem s.order
      (.whenAll all) :=
      Func.start_ok hready h.order (by simp)
    have hself : (s.setFrame θ (some (Func.start (.whenAll all)))).frame θ = some
      (Func.start (.whenAll all)) :=
      Function.update_self _ _ _
    obtain ⟨h₁, s₁, hrun, hthread, hdone⟩ :=
      hbody (s.setFrame θ (some (Func.start (.whenAll all)))) rfl rfl hok hself
    exact ⟨_, s₁, .cons (.start θ c rest _ hs hf hframe) hrun, by simpa [Move.thread] using hthread,
      hdone⟩

/-! ## The result -/

/-- The value of a future: `T()` for one that was canceled. -/
def Task.value (r : Task Θ T V E) : V := if r.state_ = .Canceled then default else r.result_

omit [DecidableEq T] [DecidableEq Θ] in
theorem Collected.eq_map {m : Mem Θ T V E} {ds : List T} {vs : List V} (h : Collected m ds vs) :
    vs = ds.map (fun d ↦ (m.task d).value) ∧ ∀ d ∈ ds, (m.task d).state_ ≠ .Failed := by
  have hget {r : Task Θ T V E} {v : V} (hr : r.get = some (.ok v)) : v = r.value
    ∧ r.state_ ≠ .Failed := by
    rw [Task.get] at hr
    split at hr <;> simp_all [Task.value]
  induction ds generalizing vs with
  | nil =>
    have hnil : vs = [] := List.map_eq_nil_iff.mp (show vs.map _ = [] from h.symm)
    simp [hnil]
  | cons d ds ih =>
    cases vs with
    | nil => cases h
    | cons v vs =>
      obtain ⟨hd, hrest⟩ := List.cons.inj (show _ :: _ = _ :: _ from h)
      obtain ⟨hv, hstate⟩ := hget hd
      obtain ⟨hvs, hall⟩ := ih hrest
      refine ⟨by rw [List.map_cons, ← hv, ← hvs], fun x hx ↦ ?_⟩
      rcases List.mem_cons.mp hx with rfl | hx
      · exact hstate
      · exact hall x hx

omit [DecidableEq T] in
/-- The first one is the same. -/
theorem eq_of_first {p : T → Prop} {pre pre' post post' : List T} {d d' : T}
    (h : pre ++ d :: post = pre' ++ d' :: post') (hpre : ∀ x ∈ pre, ¬ p x) (hd : p d)
    (hpre' : ∀ x ∈ pre', ¬ p x) (hd' : p d') : d = d' := by
  rcases List.append_eq_append_iff.mp h with ⟨mid, rfl, hmid⟩ | ⟨mid, rfl, hmid⟩
  · cases mid with
    | nil => exact (List.cons.inj hmid).1
    | cons x mid =>
      obtain ⟨rfl, -⟩ := List.cons.inj hmid
      exact absurd hd (hpre' d (List.mem_append_right _ List.mem_cons_self))
  · cases mid with
    | nil => exact (List.cons.inj hmid).1.symm
    | cons x mid =>
      obtain ⟨rfl, -⟩ := List.cons.inj hmid
      exact absurd hd' (hpre d' (List.mem_append_right _ List.mem_cons_self))

/-- **`WhenAll` collects.**  In a run in which the futures that were passed are canceled only before
a worker takes them, the function of the future that `WhenAll` made starts when all of them are
finished, so `Get` does not wait in it and the thread comes to its end by itself.  When they are
finished, some call that has not returned is going to enqueue the future if it has not been.  When
it is finished by a worker, it has the values of the futures, or the exception of the first one in
the list that failed. -/
theorem whenAll_correct {h : List (Futures Θ T V E × Move Θ T V E)}
    (hrun : Lib.Trace (Futures.Step role vector) (Futures.init role) h s) {all : List T}
    (hc : s.func_ c = some (.whenAll all))
    (htime : ∀ x ∈ h, ∀ d ∈ all, InTime x.1.exec (x.1.label x.2) d) :
    (∀ mv s', Futures.Step role vector s mv s' → s.label mv = .started c →
      ∀ d ∈ all, s.exec.mem.Finished d) ∧
    ((s.exec.mem.task c).state_ = .Submitted → (∀ d ∈ all, s.exec.mem.Finished d) →
      WillTryDependencies s.exec c) ∧
    (∀ θ rest, s.exec.stack θ = .running c :: rest →
      (∀ d left res, s.frame θ = some (.get d left res .wait) → s.exec.mem.Finished d) ∧
      ∃ h' s', Lib.Trace (Futures.Step role vector) s h' s' ∧ (∀ x ∈ h', x.2.thread = some θ) ∧
        s'.exec.mem.Done c) ∧
    (s.exec.mem.Done c →
      ((∀ d ∈ all, (s.exec.mem.task d).state_ ≠ .Failed) → (s.exec.mem.task c).state_ = .Completed ∧
        (s.exec.mem.task c).result_ = vector (all.map fun d ↦ (s.exec.mem.task d).value)) ∧
      ∀ pre d post, all = pre ++ d :: post → (∀ x ∈ pre, (s.exec.mem.task x).state_ ≠ .Failed) →
        (s.exec.mem.task d).state_ = .Failed → (s.exec.mem.task c).state_ = .Failed ∧
          (s.exec.mem.task c).exc_ptr_ = (s.exec.mem.task d).exc_ptr_) := by
  have hsound := sound_of_trace hrun
  have hd : Delivers vector c (.whenAll all) s :=
    delivers_of_trace hrun (by simp) htime (fun x hx all' hf ↦ by cases hf) hc
  refine ⟨fun mv s' hstep hl d hmem ↦ ?_, fun hstate hfin ↦ ?_, fun θ rest hs ↦
    ⟨?_, ?_⟩, fun hdone ↦ ?_⟩
  · -- only what is in the hands of a worker is started
    rcases hstep.exec_cases with ⟨-, -, hnone⟩ | ⟨a, hexec, hlabel, -⟩
    · cases hnone.symm.trans hl
    · have hpend := (hlabel.symm.trans hl ▸ hexec.step).pending_of_started
      exact hsound.ready c _ hc (.inr ⟨_, hpend, by simp [Instr.has, Instr.carries]⟩) d hmem
  · have hshake : Handshake s.exec ∧ BareTried s.exec := by
      refine hrun.invariant (I := fun _ s ↦ Handshake s.exec ∧ BareTried s.exec)
        ⟨handshake_init role, fun t hstate ↦ by cases hstate⟩ ?_
      rintro _ s mv s' ⟨hshake, hbare⟩ hstep
      rcases hstep.exec_step with hexec | hexec
      · rw [hexec]
        exact ⟨hshake, hbare⟩
      · exact ⟨hshake.step hexec, bareTried_step hshake hbare hexec⟩
    exact willTry_of_finished hsound hshake.1 hshake.2 hc hstate hfin
  · intro d left res hframe
    obtain ⟨pre, hall, -⟩ := hd.frame θ _ rest hframe hs
    obtain rfl := Func.whenAll.inj hall
    exact hsound.ready_of_running hc hs d (List.mem_append_right _ List.mem_cons_self)
  · exact exists_done_trace role hsound hd hc hs
  · have hfailed {d : T} {e : Option E} (hget : (s.exec.mem.task d).get = some (.error e)) :
        (s.exec.mem.task d).state_ = .Failed ∧ (s.exec.mem.task d).exc_ptr_ = e := by
      rw [Task.get] at hget
      split at hget <;> simp_all
    rcases hdone with hstate | hstate
    · obtain ⟨vs, hvs, hresult⟩ := hd.told.completed (.inl hstate)
      obtain ⟨rfl, hnot⟩ := hvs.eq_map
      refine ⟨fun _ ↦ ⟨hstate, hresult⟩, fun pre d post hall _ hfail ↦ ?_⟩
      exact absurd hfail (hnot d (hall ▸ List.mem_append_right _ List.mem_cons_self))
    · obtain ⟨pre', d', post', vs, hall', hvs, hget⟩ := hd.told.failed (.inl hstate)
      obtain ⟨hfail', hexc⟩ := hfailed hget
      refine ⟨fun hnot ↦ ?_, fun pre d post hall hpre hfail ↦ ?_⟩
      · exact absurd hfail' (hnot d' (hall' ▸ List.mem_append_right _ List.mem_cons_self))
      · obtain rfl := eq_of_first (hall.symm.trans hall') hpre hfail hvs.eq_map.2 hfail'
        exact ⟨hstate, hexc.symm⟩

end

/-- A user submits task `0` and cancels task `1`, and passes them to `WhenAll`, task `0` twice; a
worker runs what is enqueued. -/
def collectTwice : List (Move (Fin 2) (Fin 3) Value Unit) := List.flatten
  [[.machine (.call 0 (.cancel 1))], Move.steps 0 6, [.machine (.call 0 (.submit 0))],
    Move.steps 0 15, [.make 0 2 (.whenAll [0, 1, 0]), .call 0], Move.steps 0 6, [.call 0],
    Move.steps 0 5, [.call 0], Move.steps 0 6, [.call 0], Move.steps 0 8, [.made 0], Move.steps 1 5,
    [.machine (.exec 1 (.value (.bool true)))], Move.steps 1 26, [.start 1],
    List.replicate 13 (.body 1), [.leave 1], Move.steps 1 1]

theorem whenAll_correct_twice :
    ∃ (h : List (Futures (Fin 2) (Fin 3) Value Unit × Move (Fin 2) (Fin 3) Value Unit))
      (s : Futures (Fin 2) (Fin 3) Value Unit),
      Lib.Trace (Futures.Step oneWorker Value.ofList) (Futures.init oneWorker) h s ∧
        s.func_ 2 = some (.whenAll [0, 1, 0]) ∧
        (∀ x ∈ h, ∀ d ∈ [0, 1, 0], InTime x.1.exec (x.1.label x.2) d) ∧
        (s.exec.mem.task 2).state_ = .Completed ∧
        (s.exec.mem.task 2).result_ = .vector [true, false, true] := by
  obtain ⟨h, s, hrun, hs⟩ := Futures.exists_trace_of_play oneWorker Value.ofList
    (Futures.init oneWorker : Futures (Fin 2) (Fin 3) Value Unit) collectTwice
    (fun x ↦ x.2.func_ 2 = some (.whenAll [0, 1, 0]) ∧
      (∀ y ∈ x.1, ∀ d ∈ [0, 1, 0], InTime y.1.exec (y.1.label y.2) d) ∧ x.2.exec.mem.Done 2 ∧
      (∀ d ∈ [0, 1, 0], (x.2.exec.mem.task d).state_ ≠ .Failed) ∧
      Value.ofList ([0, 1, 0].map fun d ↦ (x.2.exec.mem.task d).value) = .vector
        [true, false, true])
    (by decide +kernel)
  obtain ⟨hc, htime, hdone, hnot, hvalues⟩ := of_decide_eq_true hs
  obtain ⟨-, -, -, hresult⟩ := whenAll_correct hrun hc htime
  obtain ⟨hstate, hvector⟩ := (hresult hdone).1 hnot
  exact ⟨h, s, hrun, hc, htime, hstate, hvector.trans hvalues⟩

end Executor
end ManyTasks
