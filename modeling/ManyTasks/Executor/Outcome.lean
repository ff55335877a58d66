import ManyTasks.Executor.Body
import Mathlib.Data.List.Infix

/-!
# What the function of a combinator comes to

The values and exceptions that the function collects are those of the futures that were passed
(`Func.Yields`).  Where it is in its loop is described by `Frame.Ok`; from there it never waits and
comes to its end (`Frame.step_spec`).  What it comes to is what is assigned to the future of the
combinator (`Told`).
-/

set_option autoImplicit false

namespace ManyTasks
namespace Executor

variable {Θ T V E : Type}

/-! ## Get -/

/-- Where `Get` of a task can be. -/
def GetAt.Ok (r : Task Θ T V E) : GetAt → Prop
  | .wait | .isCompleted => True
  | .result => r.state_ = .Completed
  | .isFailed => r.state_ = .Failed ∨ r.state_ = .Canceled
  | .getError | .excPtr => r.state_ = .Failed

/-- The accesses that are left, at most. -/
def GetAt.left : GetAt → ℕ
  | .wait => 5
  | .isCompleted => 4
  | .isFailed => 3
  | .getError => 2
  | .excPtr | .result => 1

/-- What can be seen of a finished task stays. -/
structure Task.Same (r r' : Task Θ T V E) : Prop where
  state : r'.state_ = r.state_
  result : r'.result_ = r.result_
  exc : r'.exc_ptr_ = r.exc_ptr_

theorem Task.Same.get_eq [Inhabited V] {r r' : Task Θ T V E} (h : r.Same r') : r'.get = r.get := by
  rw [Task.get, Task.get, h.state, h.result, h.exc]

theorem Task.finished_of_get [Inhabited V] {r : Task Θ T V E} {x : Except (Option E) V}
    (h : r.get = some x) : r.state_.finished = true := by
  cases hstate : r.state_ <;> simp_all [Task.get, TaskStates.finished]

theorem GetAt.Ok.same {r r' : Task Θ T V E} {g : GetAt} (h : g.Ok r)
    (hsame : r.state_.finished = true → r.Same r') : g.Ok r' := by
  cases g with
  | wait | isCompleted => trivial
  | result | getError | excPtr =>
    have hstate := (hsame (by rw [show r.state_ = _ from h]; rfl)).state
    exact hstate.trans h
  | isFailed =>
    have hstate := (hsame (by rcases h with h | h <;> rw [h] <;> rfl)).state
    exact h.imp hstate.trans hstate.trans

/-- `Get` of a finished task does not wait, and comes to what the task has. -/
theorem GetAt.step_spec [Inhabited V] {r : Task Θ T V E} {g : GetAt}
    (hfin : r.state_.finished = true)
    (h : g.Ok r) :
    (∃ g', g.step r = some (.goes g') ∧ g'.Ok r ∧ g'.left < g.left) ∨
      (∃ v, g.step r = some (.returns v) ∧ r.get = some (.ok v)) ∨
      ∃ e, g.step r = some (.throws e) ∧ r.get = some (.error e) := by
  cases g with
  | wait => exact .inl ⟨.isCompleted, by rw [GetAt.step, if_pos hfin], trivial, by decide⟩
  | isCompleted =>
    left
    by_cases hstate : r.state_ = .Completed
    · exact ⟨.result, by rw [GetAt.step, if_pos hstate], hstate, by decide⟩
    · refine ⟨.isFailed, by rw [GetAt.step, if_neg hstate], ?_, by decide⟩
      cases hcase : r.state_ <;> simp_all [GetAt.Ok, TaskStates.finished]
  | result => exact .inr (.inl ⟨r.result_, rfl, by rw [Task.get, show r.state_ = _ from h]⟩)
  | isFailed =>
    rcases h with h | h
    · exact .inl ⟨.getError, by rw [GetAt.step, if_pos h], h, by decide⟩
    · exact .inr (.inl ⟨default, by simp [GetAt.step, h], by rw [Task.get, h]⟩)
  | getError => exact .inl ⟨.excPtr, by rw [GetAt.step, if_pos (show r.state_ = _ from h)],
      h, by decide⟩
  | excPtr => exact .inr (.inr ⟨r.exc_ptr_, rfl, by rw [Task.get, show r.state_ = _ from h]⟩)

/-! ## Outcomes -/

section

variable [Inhabited V]

/-- `Get` of the tasks returns the values. -/
def Collected (m : Mem Θ T V E) (ds : List T) (vs : List V) : Prop :=
  ds.map (fun d ↦ (m.task d).get) = vs.map fun v ↦ some (.ok v)

/-- The function returns the value, or throws. -/
def Func.Yields [DecidableEq T] (vector : List V → V) (m : Mem Θ T V E) (order : List T) :
    Func T → Except (Option E) V → Prop
  | .whenAll all, .ok v => ∃ vs, Collected m all vs ∧ v = vector vs
  | .whenAll all, .error e => ∃ pre d post vs, all = pre ++ d :: post ∧ Collected m pre vs ∧
    (m.task d).get = some (.error e)
  | .whenFirst all, x => ∃ d, order.find? (· ∈ all) = some d ∧ (m.task d).get = some x

/-- Where the function can be. -/
def Frame.Ok [DecidableEq T] (vector : List V → V) (m : Mem Θ T V E) (order : List T) (f : Func T) :
    Frame T V E → Prop
  | .loop rest res => ∃ pre, f = .whenAll (pre ++ rest) ∧ Collected m pre res
  | .get fut rest res g =>
    ∃ pre, f = .whenAll (pre ++ fut :: rest) ∧ Collected m pre res ∧ g.Ok (m.task fut)
  | .scan rest => ∃ all, f = .whenFirst all ∧ ∃ d ∈ rest, order.find? (· ∈ all) = some d
  | .first fut g =>
    ∃ all, f = .whenFirst all ∧ order.find? (· ∈ all) = some fut ∧ g.Ok (m.task fut)
  | .returns v => f.Yields vector m order (.ok v)
  | .throws e => e ≠ none ∧ f.Yields vector m order (.error e)

/-- The steps that are left, at most. -/
def Frame.left : Frame T V E → ℕ
  | .loop rest _ => 7 * rest.length + 1
  | .get _ rest _ g => 7 * rest.length + 2 + g.left
  | .scan rest => 7 * rest.length + 7
  | .first _ g => 1 + g.left
  | .returns _ | .throws _ => 0

variable {m m' : Mem Θ T V E} {order order' : List T} {vector : List V → V} {f : Func T}

theorem Collected.snoc {ds : List T} {vs : List V} {d : T} {v : V} (h : Collected m ds vs)
    (hd : (m.task d).get = some (.ok v)) : Collected m (ds ++ [d]) (vs ++ [v]) := by
  rw [Collected, List.map_append, List.map_append, show ds.map _ = _ from h]
  simp [hd]

theorem Collected.get_of_mem {ds : List T} {vs : List V} (h : Collected m ds vs) {d : T}
    (hd : d ∈ ds) :
    ∃ v, (m.task d).get = some (.ok v) := by
  have hmem : (m.task d).get ∈ ds.map fun d ↦ (m.task d).get := List.mem_map_of_mem hd
  rw [show ds.map _ = _ from h] at hmem
  obtain ⟨v, -, hv⟩ := List.mem_map.mp hmem
  exact ⟨v, hv.symm⟩

theorem Collected.mono {ds : List T} {vs : List V} (h : Collected m ds vs)
    (hsame : ∀ d ∈ ds, m.Finished d → (m.task d).Same (m'.task d)) : Collected m' ds vs := by
  rw [Collected, ← show ds.map _ = _ from h]
  refine List.map_congr_left fun d hd ↦ ?_
  obtain ⟨v, hv⟩ := h.get_of_mem hd
  exact (hsame d hd (Task.finished_of_get hv)).get_eq

variable [DecidableEq T]

theorem mem_of_find? {all : List T} {d : T} (h : order.find? (· ∈ all) = some d) : d ∈ all := by
  simpa using List.find?_some h

/-- Who is the first does not change. -/
theorem find?_of_prefix {all : List T} {d : T} (h : order.find? (· ∈ all) = some d)
    (horder : order <+: order') : order'.find? (· ∈ all) = some d := by
  obtain ⟨more, rfl⟩ := horder
  rw [List.find?_append, h]
  rfl

theorem Func.Yields.mono {x : Except (Option E) V} (h : f.Yields vector m order x)
    (hsame : ∀ d ∈ f.all, m.Finished d → (m.task d).Same (m'.task d)) (horder : order <+: order') :
    f.Yields vector m' order' x := by
  cases f with
  | whenAll all =>
    cases x with
    | ok v =>
      obtain ⟨vs, hvs, hv⟩ := h
      exact ⟨vs, hvs.mono hsame, hv⟩
    | error e =>
      obtain ⟨pre, d, post, vs, rfl, hvs, hd⟩ := h
      refine ⟨pre, d, post, vs, rfl, hvs.mono fun x hx ↦ hsame x (List.mem_append_left _ hx), ?_⟩
      have hmem : d ∈ pre ++ d :: post := List.mem_append_right _ List.mem_cons_self
      exact (hsame d hmem (Task.finished_of_get hd)).get_eq.trans hd
  | whenFirst all =>
    obtain ⟨d, hfirst, hd⟩ := h
    have hmem : d ∈ all := mem_of_find? hfirst
    exact ⟨d, find?_of_prefix hfirst horder,
      (hsame d hmem (Task.finished_of_get hd)).get_eq.trans hd⟩

theorem Frame.Ok.mono {fr : Frame T V E} (h : fr.Ok vector m order f)
    (hsame : ∀ d ∈ f.all, m.Finished d → (m.task d).Same (m'.task d)) (horder : order <+: order') :
    fr.Ok vector m' order' f := by
  cases fr with
  | loop rest res =>
    obtain ⟨pre, rfl, hres⟩ := h
    exact ⟨pre, rfl, hres.mono fun d hd ↦ hsame d (List.mem_append_left _ hd)⟩
  | get fut rest res g =>
    obtain ⟨pre, rfl, hres, hg⟩ := h
    have hmem : fut ∈ pre ++ fut :: rest := List.mem_append_right _ List.mem_cons_self
    exact ⟨pre, rfl, hres.mono fun d hd ↦ hsame d (List.mem_append_left _ hd),
      hg.same (hsame fut hmem)⟩
  | scan rest =>
    obtain ⟨all, rfl, d, hd, hfirst⟩ := h
    exact ⟨all, rfl, d, hd, find?_of_prefix hfirst horder⟩
  | first fut g =>
    obtain ⟨all, rfl, hfirst, hg⟩ := h
    have hmem : fut ∈ all := mem_of_find? hfirst
    exact ⟨all, rfl, find?_of_prefix hfirst horder, hg.same (hsame fut hmem)⟩
  | returns v => exact Func.Yields.mono h hsame horder
  | throws e => exact ⟨h.1, h.2.mono hsame horder⟩

/-- The function begins. -/
theorem Func.start_ok (hready : f.Ready m) (horder : ∀ t, t ∈ order ↔ m.Finished t)
    (hne : f ≠ .whenFirst []) : (f.start : Frame T V E).Ok vector m order f := by
  cases f with
  | whenAll all => exact ⟨[], rfl, rfl⟩
  | whenFirst all =>
    obtain ⟨x, hx, hfin⟩ := hready fun hnil ↦ hne (hnil ▸ rfl)
    have hsome : (order.find? (· ∈ all)).isSome :=
      List.find?_isSome.mpr ⟨x, (horder x).mpr hfin, decide_eq_true hx⟩
    obtain ⟨d, hd⟩ := Option.isSome_iff_exists.mp hsome
    exact ⟨all, rfl, d, mem_of_find? hd, hd⟩

/-- The function goes on to its end without waiting.  `hscan` is that no future before the first one
is found to be finished. -/
theorem Frame.step_spec {fr : Frame T V E} (h : fr.Ok vector m order f) (hready : f.Ready m)
    (horder : ∀ t, t ∈ order ↔ m.Finished t)
    (herrors : ∀ t, (m.task t).state_ = .Failed → (m.task t).exc_ptr_ ≠ none)
    (hscan : ∀ all d rest, f = .whenFirst all → fr = .scan (d :: rest) → ∀ x,
      order.find? (· ∈ all) = some x → x ≠ d → ¬ m.Finished d) :
    (∃ v, fr = .returns v) ∨ (∃ e, fr = .throws (some e)) ∨
      ∃ fr', fr.step vector m = some fr' ∧ fr'.Ok vector m order f ∧ fr'.left < fr.left := by
  -- an exception is there to be thrown
  have hthrow {d : T} {e : Option E} (hd : (m.task d).get = some (.error e)) : e ≠ none := by
    rw [Task.get] at hd
    split at hd <;> simp_all
    exact hd ▸ herrors d ‹_›
  cases fr with
  | loop rest res =>
    right; right
    obtain ⟨pre, rfl, hres⟩ := h
    cases rest with
    | nil =>
      rw [List.append_nil]
      exact ⟨.returns (vector res), rfl, ⟨res, hres, rfl⟩, by simp [Frame.left]⟩
    | cons fut rest =>
      exact ⟨.get fut rest res .wait, rfl,
        ⟨pre, rfl, hres, trivial⟩, by simp [Frame.left, GetAt.left]; omega⟩
  | get fut rest res g =>
    right; right
    obtain ⟨pre, rfl, hres, hg⟩ := h
    have hfin : m.Finished fut := hready fut (List.mem_append_right _ List.mem_cons_self)
    rcases GetAt.step_spec hfin hg with ⟨g', hstep, hg', hlt⟩ | ⟨v, hstep, hget⟩ | ⟨e, hstep, hget⟩
    · exact ⟨.get fut rest res g', by rw [Frame.step, hstep]; rfl, ⟨pre, rfl, hres, hg'⟩,
        by simpa [Frame.left] using hlt⟩
    · refine ⟨.loop rest (res ++ [v]), by rw [Frame.step, hstep]; rfl, ⟨pre ++ [fut], by simp, ?_⟩,
        by simp [Frame.left]; omega⟩
      exact hres.snoc hget
    · exact ⟨.throws e, by rw [Frame.step, hstep]; rfl,
        ⟨hthrow hget, pre, fut, rest, res, rfl, hres, hget⟩, by simp [Frame.left]⟩
  | scan rest =>
    right; right
    obtain ⟨all, rfl, d, hd, hfirst⟩ := h
    have hdone : m.Finished d := (horder d).mp (List.mem_of_find?_eq_some hfirst)
    cases rest with
    | nil => cases hd
    | cons x rest =>
      by_cases hx : (m.task x).state_.finished = true
      · obtain rfl : d = x := by
          by_contra hne
          exact hscan all x rest rfl rfl d hfirst hne hx
        exact ⟨.first d .wait, by rw [Frame.step, if_pos hx], ⟨all, rfl, hfirst, trivial⟩,
          by simp [Frame.left, GetAt.left]⟩
      · refine ⟨.scan rest, by rw [Frame.step, if_neg hx], ⟨all, rfl, d, ?_, hfirst⟩,
          by simp [Frame.left]⟩
        rcases List.mem_cons.mp hd with rfl | hd
        · exact absurd hdone hx
        · exact hd
  | first fut g =>
    right; right
    obtain ⟨all, rfl, hfirst, hg⟩ := h
    have hfin : m.Finished fut := (horder fut).mp (List.mem_of_find?_eq_some hfirst)
    rcases GetAt.step_spec hfin hg with ⟨g', hstep, hg', hlt⟩ | ⟨v, hstep, hget⟩ | ⟨e, hstep, hget⟩
    · exact ⟨.first fut g', by rw [Frame.step, hstep]; rfl, ⟨all, rfl, hfirst, hg'⟩,
        by simpa [Frame.left] using hlt⟩
    · exact ⟨.returns v, by rw [Frame.step, hstep]; rfl, ⟨fut, hfirst, hget⟩, by simp [Frame.left]⟩
    · exact ⟨.throws e, by rw [Frame.step, hstep]; rfl, ⟨hthrow hget, fut, hfirst, hget⟩,
        by simp [Frame.left]⟩
  | returns v => exact .inl ⟨v, rfl⟩
  | throws e =>
    obtain ⟨x, rfl⟩ := Option.ne_none_iff_exists'.mp h.1
    exact .inr (.inl ⟨x, rfl⟩)

end

/-! ## What is assigned -/

section

variable [DecidableEq T]

/-- What has been assigned to the task, or is about to be, is as it should be. -/
structure Told (s : State Θ T V E) (t : T) (R : Except (Option E) V → Prop) : Prop where
  completed : (s.mem.task t).state_ = .Completed ∨ s.Pending (.store t .Completed) →
    R (.ok (s.mem.task t).result_)
  setError : ∀ e, s.Pending (.setError t e) → R (.error (some e))
  failed : (s.mem.task t).state_ = .Failed ∨ s.Pending (.store t .Failed) →
    R (.error (s.mem.task t).exc_ptr_)

variable {s : State Θ T V E} {t : T} {R R' : Except (Option E) V → Prop}

omit [DecidableEq T] in
theorem Told.imp (h : Told s t R) (himp : ∀ x, R x → R' x) : Told s t R' :=
  ⟨fun ht ↦ himp _ (h.completed ht), fun e he ↦ himp _ (h.setError e he), fun ht ↦
    himp _ (h.failed ht)⟩

variable [DecidableEq Θ]

omit [DecidableEq Θ] in
theorem told_of_not_inHands (h : ¬ InHands s t) (hstate : s.mem.Waiting t) : Told s t R := by
  have hpend {i : Instr T V E} (hi : 0 < i.has t) : ¬ s.Pending i := fun hp ↦ h (.inr ⟨i, hp, hi⟩)
  constructor
  · rintro (hc | hp)
    · rcases hstate with hw | hw <;> cases hc.symm.trans hw
    · exact absurd hp (hpend (by simp [Instr.has, Instr.runs]))
  · exact fun e he ↦ absurd he (hpend (by simp [Instr.has, Instr.runs]))
  · rintro (hc | hp)
    · rcases hstate with hw | hw <;> cases hc.symm.trans hw
    · exact absurd hp (hpend (by simp [Instr.has, Instr.runs]))

/-- What is assigned comes from `Run`. -/
theorem Told.exec (h : Told s t R) {θ : Θ} {i : Instr T V E} {rest : List (Instr T V E)}
    {c : Choice Θ T V E} (hs : s.stack θ = i :: rest)
    (hrun : i = .running t → (∀ v, c = .value v → R (.ok v)) ∧ ∀ e, c = .throw e →
      R (.error (some e))) :
    Told (s.after θ rest (Executor.exec θ s.mem c i)) t R := by
  have hchange := exec_taskChange θ s.mem c i
  have hflow := exec_flow θ s.mem c i
  -- the value and the exception stay, or are as they should be
  have hvalue (hold : R (.ok (s.mem.task t).result_)) :
      R (.ok ((Executor.exec θ s.mem c i).mem.task t).result_) := by
    rcases hchange.result_eq t with rfl | ⟨e, rfl⟩ | ⟨heq, -⟩
    · cases c with
      | value v => simpa [Executor.exec, go] using (hrun rfl).1 v rfl
      | _ => exact hold
    · simpa [Executor.exec, go] using hold
    · exact heq.symm ▸ hold
  have herror (hold : R (.error (s.mem.task t).exc_ptr_)) :
      R (.error ((Executor.exec θ s.mem c i).mem.task t).exc_ptr_) := by
    rcases hchange.result_eq t with rfl | ⟨e, rfl⟩ | ⟨-, heq⟩
    · cases c with
      | value v => simpa [Executor.exec, go] using hold
      | _ => exact hold
    · simpa [Executor.exec, go] using h.setError e (Lib.Config.pending_top hs)
    · exact heq.symm ▸ hold
  -- a state that is assigned was about to be
  have hstate {state : TaskStates} (hdone : state = .Completed ∨ state = .Failed)
      (hc : ((Executor.exec θ s.mem c i).mem.task t).state_ = state) :
      (s.mem.task t).state_ = state ∨ s.Pending (.store t state) := by
    rcases hchange.state_eq t with heq | ⟨-, -, heq⟩ | ⟨by_, -, -, heq⟩ | ⟨state', rfl, heq⟩
    · exact .inl (heq.symm.trans hc)
    · rcases hdone with rfl | rfl <;> cases heq.symm.trans hc
    · rcases hdone with rfl | rfl <;> cases heq.symm.trans hc
    · obtain rfl : state' = state := heq.symm.trans hc
      exact .inr (Lib.Config.pending_top hs)
  constructor
  · rintro (hc | hp)
    · exact hvalue (h.completed (hstate (.inl rfl) hc))
    · rcases Lib.Config.pending_after hs hp with hnext | hp
      · obtain rfl := hflow.of_mem_store_completed hnext
        cases c with
        | value v => simpa [Executor.exec, go] using (hrun rfl).1 v rfl
        | throw e => simp [Executor.exec, go] at hnext
        | _ => cases hnext
      · exact hvalue (h.completed (.inr hp))
  · intro e he
    rcases Lib.Config.pending_after hs he with hnext | he
    · obtain rfl := hflow.of_mem_setError hnext
      cases c with
      | value v => simp [Executor.exec, go] at hnext
      | throw e' =>
        obtain rfl : e = e' := by simpa [Executor.exec, go] using hnext
        exact (hrun rfl).2 e rfl
      | _ => cases hnext
    · exact h.setError e he
  · rintro (hc | hp)
    · exact herror (h.failed (hstate (.inr rfl) hc))
    · rcases Lib.Config.pending_after hs hp with hnext | hp
      · obtain ⟨e, rfl⟩ := hflow.of_mem_store_failed hnext
        simpa [Executor.exec, go] using h.setError e (Lib.Config.pending_top hs)
      · exact herror (h.failed (.inr hp))

/-- A step in which the task is not run. -/
theorem Told.stepBy (h : Told s t R) {role : Θ → Role} {a : Action Θ T V E} {s' : State Θ T V E}
    (hstep : StepBy role s a s') (hrun : ∀ θ c rest, a = .exec θ c →
      s.stack θ = .running t :: rest →
      (∀ v, c = .value v → R (.ok v)) ∧ ∀ e, c = .throw e → R (.error (some e))) : Told s' t R := by
  cases hstep with
  | @exec θ i rest c hs henabled =>
    refine h.exec hs fun hi ↦ hrun θ c rest rfl ?_
    rw [hs, hi]
  | @call θ call hcan hallowed =>
    have hcode (i : Instr T V E) (hi : 0 < i.has t) (hp : (s.after θ (s.stack θ)
        ⟨true, s.mem.call call, call.code ++ [.returned call], Label.called call⟩).Pending i) :
        s.Pending i := by
      rcases Lib.Config.pending_push.mp hp with hmem | hp
      · have hle : i.has t ≤ _ := List.single_le_sum (fun _ _ ↦ Nat.zero_le _) _
          (List.mem_map_of_mem (f := Instr.has t) hmem)
        rw [call.has_code t] at hle
        omega
      · exact hp
    have htask : (s.mem.call call).task = s.mem.task := by cases call <;> rfl
    constructor
    · show (((s.mem.call call).task t).state_ = _ ∨ _) → R (.ok ((s.mem.call call).task t).result_)
      rw [htask]
      exact fun ht ↦ h.completed (ht.imp_right (hcode _ (by simp [Instr.has, Instr.runs])))
    · exact fun e he ↦ h.setError e (hcode _ (by simp [Instr.has, Instr.runs]) he)
    · show (((s.mem.call call).task t).state_ = _ ∨ _) →
        R (.error ((s.mem.call call).task t).exc_ptr_)
      rw [htask]
      exact fun ht ↦ h.failed (ht.imp_right (hcode _ (by simp [Instr.has, Instr.runs])))
  | tick d => exact ⟨h.completed, h.setError, h.failed⟩

end

/-! ## The run of a combinator -/

section

variable [Inhabited V] [DecidableEq T] [DecidableEq Θ]

/-- The future that the thread tests next, in the loop of `c`. -/
def Futures.tests (s : Futures Θ T V E) (c : T) (θ : Θ) : Option T :=
  match s.exec.stack θ, s.frame θ with
  | .running t :: _, some (.scan (d :: _)) => if t = c then some d else none
  | _, _ => none

/-- The loop of `c` does not come to a future that is finished, but not the first one. -/
def Futures.ScansInOrder (s : Futures Θ T V E) (c : T) (all : List T) : Move Θ T V E → Prop
  | .body θ => ∀ d, s.tests c θ = some d → ∀ x, s.order.find? (· ∈ all) = some x → x ≠ d →
    ¬ s.exec.mem.Finished d
  | _ => True

instance [Fintype T] (s : Futures Θ T V E) (c : T) (all : List T) (mv : Move Θ T V E) :
    Decidable (s.ScansInOrder c all mv) :=
  match mv with
  | .body θ => inferInstanceAs (Decidable (∀ d, s.tests c θ = some d → ∀ x,
    s.order.find? (· ∈ all) = some x → x ≠ d → ¬ s.exec.mem.Finished d))
  | .machine _ | .make _ _ _ | .call _ | .made _ | .start _ | .leave _ =>
      inferInstanceAs (Decidable True)

/-- The function of `c` is where it should be, and so is what came of it. -/
structure Delivers (vector : List V → V) (c : T) (f : Func T) (s : Futures Θ T V E) : Prop where
  frame : ∀ θ fr rest, s.frame θ = some fr → s.exec.stack θ = .running c :: rest →
    fr.Ok vector s.exec.mem s.order f
  told : Told s.exec c (f.Yields vector s.exec.mem s.order)

variable {s s' : Futures Θ T V E} {role : Θ → Role} {vector : List V → V} {mv : Move Θ T V E}
    {c : T}
  {f : Func T}

theorem noted_prefix (l : Label T) (order : List T) : order <+: Futures.noted l order := by
  cases l with
  | stored t state =>
    simp only [Futures.noted]
    split_ifs
    · exact List.prefix_refl _
    · exact List.prefix_append _ _
  | _ => exact List.prefix_refl _

/-- What is finished and canceled in time stays, and the order goes on. -/
theorem Sound.same_step (h : Sound s) (hstep : Futures.Step role vector s mv s') {d : T}
    (htaken : Taken s.exec d → (s.exec.mem.task d).state_ = .Enqueued)
    (htime : InTime s.exec (s.label mv) d) (hfin : s.exec.mem.Finished d) :
    (s.exec.mem.task d).Same (s'.exec.mem.task d) := by
  rcases hstep.exec_step with hexec | hexec
  · rw [hexec]
    exact ⟨rfl, rfl, rfl⟩
  · obtain ⟨hstate, hresult, hexc⟩ := finished_step h.single htaken hexec htime hfin
    exact ⟨hstate, hresult, hexc⟩

theorem Futures.Step.order_prefix (hstep : Futures.Step role vector s mv s') :
    s.order <+: s'.order := by
  rcases hstep.exec_cases with ⟨-, horder, -⟩ | ⟨a, -, -, horder⟩
  · rw [horder]
  · rw [horder]
    exact noted_prefix _ _

omit [Inhabited V] [DecidableEq Θ] in
theorem Sound.ready_of_running (h : Sound s) (hf : s.func_ c = some f) {θ : Θ}
    {rest : List (Instr T V E)}
    (hs : s.exec.stack θ = .running c :: rest) : f.Ready s.exec.mem :=
  h.ready c f hf (.inr ⟨_, Lib.Config.pending_top hs, by simp [Instr.has, Instr.runs]⟩)

theorem Delivers.step (h : Sound s) (hd : s.func_ c = some f → Delivers vector c f s)
    (hstep : Futures.Step role vector s mv s') (hne : f ≠ .whenFirst [])
    (htaken : ∀ d ∈ f.all, Taken s.exec d → (s.exec.mem.task d).state_ = .Enqueued)
    (htime : ∀ d ∈ f.all, InTime s.exec (s.label mv) d)
    (hscan : ∀ all, f = .whenFirst all → s.ScansInOrder c all mv) (hf : s'.func_ c = some f) :
    Delivers vector c f s' := by
  rcases hstep.func_cases hf with hf | ⟨hfresh, hexec, -⟩
  swap
  · -- nothing has been done to a new future
    have hwait : s.exec.mem.Waiting c := .inl (by rw [hfresh.task]; rfl)
    have hhands := h.single.not_inHands (.inl hwait)
    refine ⟨fun θ fr rest _ hs ↦ ?_, ?_⟩
    · rw [hexec] at hs
      exact absurd (.inr ⟨_, Lib.Config.pending_top hs, by simp [Instr.has, Instr.runs]⟩) hhands
    · rw [hexec]
      exact told_of_not_inHands hhands hwait
  replace hd := hd hf
  have hsame (d : T) (hmem : d ∈ f.all) (hfin : s.exec.mem.Finished d) :
      (s.exec.mem.task d).Same (s'.exec.mem.task d) :=
    h.same_step hstep (htaken d hmem) (htime d hmem) hfin
  have hmono (x : Except (Option E) V) (hx : f.Yields vector s.exec.mem s.order x) :
      f.Yields vector s'.exec.mem s'.order x := hx.mono hsame hstep.order_prefix
  constructor
  · intro θ fr rest hframe hs
    rcases hstep.frame_cases hframe with ⟨hold, hleave⟩ | ⟨t, rest', g, rfl, hs', hg, rfl, hexec⟩ |
      ⟨old, rfl, hold, hnext⟩
    · rw [h.stack_eq hstep hold hleave] at hs
      exact (hd.frame θ fr rest hold hs).mono hsame hstep.order_prefix
    · rw [hexec] at hs
      obtain rfl : t = c := Instr.running.inj (List.cons.inj (hs'.symm.trans hs)).1
      obtain rfl : g = f := Option.some.inj (hg.symm.trans hf)
      exact (Func.start_ok (h.ready_of_running hf hs) h.order hne).mono hsame hstep.order_prefix
    · rw [h.stack_eq hstep hold (by simp)] at hs
      refine Frame.Ok.mono ?_ hsame hstep.order_prefix
      have hready := h.ready_of_running hf hs
      rcases Frame.step_spec (hd.frame θ old rest hold hs) hready h.order
        (fun t ht ↦ h.errors t (.inl ht)) (by
          rintro all d rest' rfl rfl
          exact hscan all rfl d (by simp only [Futures.tests, hs, hold, if_true])) with
        ⟨v, rfl⟩ | ⟨e, rfl⟩ | ⟨fr', hstep', hok, -⟩
      · cases hnext
      · cases hnext
      · obtain rfl := Option.some.inj (hstep'.symm.trans hnext)
        exact hok
  · have hkeep := hd.told.imp hmono
    cases hstep with
    | machine a hmove hfree =>
      refine hkeep.stepBy hmove fun θ c' rest ha hs ↦ ?_
      subst ha
      exact absurd (show s.InFunc θ from ⟨c, rest, f, hs, hf⟩) hfree.1
    | call θ t call rest hscript hframe hmove =>
      refine hkeep.stepBy hmove fun θ' c' rest' ha _ ↦ ?_
      cases ha
    | leave θ fr c' hframe hchoice hmove =>
      refine hkeep.stepBy hmove fun θ' c'' rest ha hs ↦ ?_
      cases ha
      have hok := hd.frame θ fr rest hframe hs
      cases fr with
      | returns v =>
        obtain rfl := Option.some.inj hchoice
        refine ⟨fun v' hv ↦ ?_, fun e he ↦ by cases he⟩
        cases hv
        exact hmono _ hok
      | throws e =>
        cases e with
        | none => cases hchoice
        | some e =>
          obtain rfl := Option.some.inj hchoice
          refine ⟨fun v hv ↦ (by cases hv), fun e' he ↦ ?_⟩
          cases he
          exact hmono _ hok.2
      | _ => cases hchoice
    | _ => exact hkeep

theorem sound_of_trace {h : List (Futures Θ T V E × Move Θ T V E)}
    (hrun : Lib.Trace (Futures.Step role vector) (Futures.init role) h s) : Sound s :=
  hrun.invariant (I := fun _ s ↦ Sound s) (sound_init role) fun _ _ _ _ hsound hstep ↦
    hsound.step hstep

/-- In a run that cancels the futures that were passed in time. -/
theorem delivers_of_trace {h : List (Futures Θ T V E × Move Θ T V E)}
    (hrun : Lib.Trace (Futures.Step role vector) (Futures.init role) h s) (hne : f ≠ .whenFirst [])
    (htime : ∀ x ∈ h, ∀ d ∈ f.all, InTime x.1.exec (x.1.label x.2) d)
    (hscan : ∀ x ∈ h, ∀ all, f = .whenFirst all → x.1.ScansInOrder c all x.2)
    (hf : s.func_ c = some f) : Delivers vector c f s := by
  have hinv : Sound s ∧ (∀ d ∈ f.all, Taken s.exec d → (s.exec.mem.task d).state_ = .Enqueued) ∧
      (s.func_ c = some f → Delivers vector c f s) := by
    refine hrun.invariant_of_forall
      (C := fun s mv ↦ (∀ d ∈ f.all, InTime s.exec (s.label mv) d) ∧
        ∀ all, f = .whenFirst all → s.ScansInOrder c all mv)
      (I := fun s ↦ Sound s ∧ (∀ d ∈ f.all, Taken s.exec d → (s.exec.mem.task d).state_ = .Enqueued)
        ∧
        (s.func_ c = some f → Delivers vector c f s))
      (fun x hx ↦ ⟨htime x hx, hscan x hx⟩) ⟨sound_init role, fun d _ ↦ takenEnqueued_init role d,
        ?_⟩ ?_
    · intro hnone
      cases hnone
    · rintro s mv s' ⟨hsound, htaken, hd⟩ hstep ⟨htime, hscan⟩
      refine ⟨hsound.step hstep, fun d hmem ht ↦ ?_, fun hf' ↦
        Delivers.step hsound hd hstep hne htaken htime hscan hf'⟩
      rcases hstep.exec_step with hexec | hexec
      · rw [hexec] at ht ⊢
        exact htaken d hmem ht
      · exact state_of_taken_step hsound.single (htaken d hmem) hexec (htime d hmem) ht
  exact hinv.2.2 hf

end

end Executor
end ManyTasks
