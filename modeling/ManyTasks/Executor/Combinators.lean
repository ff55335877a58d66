import ManyTasks.Executor.Final

/-!
# Combinators of futures

`WhenAll` and `WhenFirst` make a new `Future` whose function goes over the futures that were passed,
make it depend on them or be triggered by them, one after the other, and submit it.  The function is
run by a worker like that of any task.  Here the machine of the executor is extended by these
functions: what is left of a call of `WhenAll` or `WhenFirst` (`script`), what function such a
future has (`func_`), and where the function is that a worker runs (`Frame`), which reads the states
and results of the futures one access at a time.

What else happens is what happens in the machine: any thread may submit, cancel, add to, run or
finish other tasks meanwhile, which includes the futures that were passed.
-/

set_option autoImplicit false

namespace ManyTasks
namespace Executor

open Lib (Trace)

variable {Θ T V E : Type}

deriving instance DecidableEq for Task

/-! ## The functions -/

/-- The lambda that `WhenAll` or `WhenFirst` gives to a `Future`, with what it captures. -/
inductive Func (T : Type) where
  | whenAll (all : List T)
  | whenFirst (all : List T)
deriving DecidableEq, Repr

/-- The futures that were passed. -/
def Func.all : Func T → List T
  | .whenAll all | .whenFirst all => all

/-- The call that the loop makes for one of them. -/
def Func.add : Func T → T → T → Call T
  | .whenAll _, fut_ptr, fut => .addDependency fut_ptr fut
  | .whenFirst _, fut_ptr, fut => .addTrigger fut_ptr fut

/-- The calls that `WhenAll` or `WhenFirst` makes. -/
def Func.calls (f : Func T) (fut_ptr : T) : List (Call T) :=
  f.all.map (f.add fut_ptr) ++ [.submit fut_ptr]

/-- Where `Future::Get` is. -/
inductive GetAt where
  /-- `Wait()`: `cur_state <= TaskStates::Enqueued`. -/
  | wait
  | isCompleted
  /-- `return result_`. -/
  | result
  | isFailed
  /-- `GetError`: `IsFailed()`. -/
  | getError
  /-- `GetError`: `exc_ptr_`. -/
  | excPtr
deriving DecidableEq, Repr

/-- How `Get` goes on. -/
inductive Got (V E : Type) where
  | goes (g : GetAt)
  | returns (v : V)
  /-- `std::rethrow_exception`. -/
  | throws (e : Option E)

/-- The next access of `Get`; it waits while the task is not finished. -/
def GetAt.step [Inhabited V] (r : Task Θ T V E) : GetAt → Option (Got V E)
  | .wait => if r.state_.finished then some (.goes .isCompleted) else none
  | .isCompleted => some (.goes (if r.state_ = .Completed then .result else .isFailed))
  | .result => some (.returns r.result_)
  | .isFailed => some (if r.state_ = .Failed then .goes .getError else .returns default)
  | .getError => some (if r.state_ = .Failed then .goes .excPtr else .throws none)
  | .excPtr => some (.throws r.exc_ptr_)

/-- Where the lambda is. -/
inductive Frame (T V E : Type) where
  /-- The loop of `WhenAll`, with the futures that are left. -/
  | loop (rest : List T) (res : List V)
  /-- `res.emplace_back(fut->Get())`. -/
  | get (fut : T) (rest : List T) (res : List V) (g : GetAt)
  /-- The loop of `WhenFirst`, with the futures that are left. -/
  | scan (rest : List T)
  /-- `return fut->Get()`. -/
  | first (fut : T) (g : GetAt)
  | returns (v : V)
  | throws (e : Option E)

/-- `Run` begins. -/
def Func.start : Func T → Frame T V E
  | .whenAll all => .loop all []
  | .whenFirst all => .scan all

/-- The next step of the lambda, if it is not at its end and does not have to wait.  `vector` makes
a value of a `std::vector` of values. -/
def Frame.step [Inhabited V] (vector : List V → V) (m : Mem Θ T V E) : Frame T V E →
    Option (Frame T V E)
  | .loop [] res => some (.returns (vector res))
  | .loop (fut :: rest) res => some (.get fut rest res .wait)
  | .get fut rest res g =>
    (g.step (m.task fut)).map fun
      | .goes g' => .get fut rest res g'
      | .returns v => .loop rest (res ++ [v])
      | .throws e => .throws e
  | .scan [] => some (.returns default)
  | .scan (fut :: rest) =>
    some (if (m.task fut).state_.finished then .first fut .wait else .scan rest)
  | .first fut g =>
    (g.step (m.task fut)).map fun
      | .goes g' => .first fut g'
      | .returns v => .returns v
      | .throws e => .throws e
  | .returns _ | .throws _ => none

/-- How `Run` ends. -/
def Frame.choice : Frame T V E → Option (Choice Θ T V E)
  | .returns v => some (.value v)
  | .throws (some e) => some (.throw e)
  | _ => none

/-! ## States -/

/-- The machine, and the combinators. -/
structure Futures (Θ T V E : Type) where
  exec : State Θ T V E
  /-- The functions of the futures that `WhenAll` and `WhenFirst` have made. -/
  func_ : T → Option (Func T)
  /-- The future that the thread is making, and the calls that are left. -/
  script : Θ → Option (T × List (Call T))
  /-- Where the thread is in the function of such a future. -/
  frame : Θ → Option (Frame T V E)
  /-- The tasks that are finished, in the order in which they became so. -/
  order : List T

/-- Nothing has been made. -/
def Futures.init [Inhabited V] (role : Θ → Role) : Futures Θ T V E where
  exec := Executor.init role
  func_ _ := none
  script _ := none
  frame _ := none
  order := []

/-- The task that a call adds to or submits. -/
def Call.target : Call T → Option T
  | .addDependency t _ | .addTrigger t _ | .setTimeTrigger t _ | .submit t => some t
  | .cancel _ | .startShutdown => none

namespace Futures

/-- The thread runs the function of a future that was made by a combinator. -/
def InFunc (s : Futures Θ T V E) (θ : Θ) : Prop :=
  ∃ t rest f, s.exec.stack θ = .running t :: rest ∧ s.func_ t = some f

/-- Some thread is making this future, and nobody else has a pointer to it. -/
def Building (s : Futures Θ T V E) (t : T) : Prop := ∃ θ calls, s.script θ = some (t, calls)

/-- What `std::make_shared` can return: nothing has been done to it. -/
structure Fresh (s : Futures Θ T V E) [Inhabited V] (t : T) : Prop where
  func : s.func_ t = none
  task : s.exec.mem.task t = Task.new Θ T V E
  submitted : s.exec.mem.submitted t = false
  pending : ∀ i, s.exec.Pending i → i.addsTo ≠ some t

/-- What may happen in the machine: a thread that is in the function of a combinator goes on there,
a call of `WhenAll` or `WhenFirst` is not left, and a future that is being made is not touched by
others. -/
def Free (s : Futures Θ T V E) : Action Θ T V E → Prop
  | .exec θ _ => ¬ s.InFunc θ ∧ ∀ t rest, s.exec.stack θ = .running t :: rest → s.script θ = none
  | .call θ call => ¬ s.InFunc θ ∧ s.script θ = none ∧ ∀ t, call.target = some t → ¬ s.Building t
  | .tick _ => True

/-- The order after a step that is seen as `l`. -/
def noted [DecidableEq T] (l : Label T) (order : List T) : List T :=
  match l with
  | .stored t _ => if t ∈ order then order else order ++ [t]
  | _ => order

variable [DecidableEq Θ] [DecidableEq T]

/-- The machine has made a step. -/
def advance (s : Futures Θ T V E) (a : Action Θ T V E) (exec : State Θ T V E) : Futures Θ T V E :=
  { s with exec := exec, order := noted (a.label s.exec) s.order }

def setScript (s : Futures Θ T V E) (θ : Θ) (p : Option (T × List (Call T))) : Futures Θ T V E :=
  { s with script := Function.update s.script θ p }

def setFrame (s : Futures Θ T V E) (θ : Θ) (fr : Option (Frame T V E)) : Futures Θ T V E :=
  { s with frame := Function.update s.frame θ fr }

def setFunc (s : Futures Θ T V E) (t : T) (f : Func T) : Futures Θ T V E :=
  { s with func_ := Function.update s.func_ t (some f) }

end Futures

/-! ## Steps -/

/-- What happens in a step. -/
inductive Move (Θ T V E : Type) where
  | machine (a : Action Θ T V E)
  /-- `WhenAll` or `WhenFirst` is called and has made its future. -/
  | make (θ : Θ) (fut_ptr : T) (f : Func T)
  /-- It makes its next call. -/
  | call (θ : Θ)
  /-- It returns. -/
  | made (θ : Θ)
  /-- `Run` of such a future begins. -/
  | start (θ : Θ)
  /-- It goes on. -/
  | body (θ : Θ)
  /-- It ends. -/
  | leave (θ : Θ)

namespace Futures

/-- What it is for the machine. -/
def action (s : Futures Θ T V E) : Move Θ T V E → Option (Action Θ T V E)
  | .machine a => some a
  | .call θ => (s.script θ).bind fun p ↦ p.2.head?.map fun call ↦ .call θ call
  | .leave θ => (s.frame θ).bind fun fr ↦ fr.choice.map fun c ↦ .exec θ c
  | .make _ _ _ | .made _ | .start _ | .body _ => none

variable [DecidableEq Θ] [DecidableEq T]

/-- What is seen of it. -/
def label (s : Futures Θ T V E) (mv : Move Θ T V E) : Label T :=
  match s.action mv with
  | some a => a.label s.exec
  | none => .none

variable [Inhabited V]

/-- One step. -/
inductive Step (role : Θ → Role) (vector : List V → V) :
    Futures Θ T V E → Move Θ T V E → Futures Θ T V E → Prop where
  | machine {s : Futures Θ T V E} {exec : State Θ T V E} (a : Action Θ T V E)
      (hstep : StepBy role s.exec a exec) (hfree : s.Free a) :
      Step role vector s (.machine a) (s.advance a exec)
  | make {s : Futures Θ T V E} (θ : Θ) (fut_ptr : T) (f : Func T) (hcan : CanCall role s.exec θ)
      (hfunc : ¬ s.InFunc θ) (hscript : s.script θ = none) (hfresh : s.Fresh fut_ptr)
      (hall : fut_ptr ∉ f.all) :
      Step role vector s (.make θ fut_ptr f)
        ((s.setFunc fut_ptr f).setScript θ (some (fut_ptr, f.calls fut_ptr)))
  | call {s : Futures Θ T V E} {exec : State Θ T V E} (θ : Θ) (t : T) (call : Call T)
      (rest : List (Call T)) (hscript : s.script θ = some (t, call :: rest))
        (hframe : s.frame θ = none)
      (hstep : StepBy role s.exec (.call θ call) exec) :
      Step role vector s (.call θ)
        ((s.advance (.call θ call) exec).setScript θ (some (t, rest)))
  | made {s : Futures Θ T V E} (θ : Θ) (t : T) (hscript : s.script θ = some (t, []))
      (hcan : CanCall role s.exec θ) : Step role vector s (.made θ) (s.setScript θ none)
  | start {s : Futures Θ T V E} (θ : Θ) (t : T) (rest : List (Instr T V E)) (f : Func T)
      (hstack : s.exec.stack θ = .running t :: rest) (hfunc : s.func_ t = some f)
      (hframe : s.frame θ = none) : Step role vector s (.start θ) (s.setFrame θ (some f.start))
  | body {s : Futures Θ T V E} (θ : Θ) (fr fr' : Frame T V E) (hframe : s.frame θ = some fr)
      (hstep : fr.step vector s.exec.mem = some fr') :
      Step role vector s (.body θ) (s.setFrame θ (some fr'))
  | leave {s : Futures Θ T V E} {exec : State Θ T V E} (θ : Θ) (fr : Frame T V E)
      (c : Choice Θ T V E) (hframe : s.frame θ = some fr) (hchoice : fr.choice = some c)
      (hstep : StepBy role s.exec (.exec θ c) exec) :
      Step role vector s (.leave θ) ((s.advance (.exec θ c) exec).setFrame θ none)

/-- For the machine a step is one of its own, or none. -/
theorem Step.exec_cases {role : Θ → Role} {vector : List V → V} {s s' : Futures Θ T V E}
    {mv : Move Θ T V E} (h : Step role vector s mv s') :
    (s'.exec = s.exec ∧ s'.order = s.order ∧ s.label mv = .none) ∨
      ∃ a, StepBy role s.exec a s'.exec ∧ s.label mv = a.label s.exec ∧
        s'.order = noted (a.label s.exec) s.order := by
  cases h with
  | machine a hstep hfree => exact .inr ⟨a, hstep, rfl, rfl⟩
  | call θ t call rest hscript hframe hstep =>
    refine .inr ⟨_, hstep, ?_, rfl⟩
    simp only [label, action, hscript, Option.bind_some, List.head?_cons, Option.map_some]
  | leave θ fr c hframe hchoice hstep =>
    refine .inr ⟨_, hstep, ?_, rfl⟩
    simp only [label, action, hframe, Option.bind_some, hchoice, Option.map_some]
  | _ => exact .inl ⟨rfl, rfl, rfl⟩

/-- Where the machine makes a step. -/
theorem Step.exec_step {role : Θ → Role} {vector : List V → V} {s s' : Futures Θ T V E}
    {mv : Move Θ T V E} (h : Step role vector s mv s') :
    s'.exec = s.exec ∨ Executor.Step role s.exec (s.label mv) s'.exec := by
  rcases h.exec_cases with ⟨heq, -⟩ | ⟨a, hstep, hlabel, -⟩
  · exact .inl heq
  · exact .inr (hlabel ▸ hstep.step)

/-! ## Schedules -/

section

variable [Fintype Θ]

/-- `InFunc`, as a test. -/
def inFunc (s : Futures Θ T V E) (θ : Θ) : Bool :=
  match s.exec.stack θ with
  | .running t :: _ => (s.func_ t).isSome
  | _ => false

/-- `Free`, as a test. -/
def free (s : Futures Θ T V E) : Action Θ T V E → Bool
  | .exec θ _ => !s.inFunc θ &&
    match s.exec.stack θ with
    | .running _ :: _ => (s.script θ).isNone
    | _ => true
  | .call θ call => !s.inFunc θ && (s.script θ).isNone &&
    call.target.all fun t ↦ decide (∀ θ, (s.script θ).map Prod.fst ≠ some t)
  | .tick _ => true

omit [DecidableEq Θ] [DecidableEq T] [Inhabited V] [Fintype Θ] in
theorem inFunc_sound {s : Futures Θ T V E} {θ : Θ} (h : s.inFunc θ = false) : ¬ s.InFunc θ := by
  rintro ⟨t, rest, f, hs, hf⟩
  simp [inFunc, hs, hf] at h

omit [DecidableEq Θ] [Inhabited V] in
theorem free_sound {s : Futures Θ T V E} {a : Action Θ T V E} (h : s.free a = true) : s.Free a := by
  cases a with
  | exec θ c =>
    obtain ⟨hfunc, hscript⟩ := (Bool.and_eq_true _ _).mp h
    refine ⟨inFunc_sound ((Bool.not_eq_true' _).mp hfunc), fun t rest hs ↦ ?_⟩
    rw [hs] at hscript
    exact Option.isNone_iff_eq_none.mp hscript
  | call θ call =>
    obtain ⟨hrest, htarget⟩ := (Bool.and_eq_true _ _).mp h
    obtain ⟨hfunc, hscript⟩ := (Bool.and_eq_true _ _).mp hrest
    refine ⟨inFunc_sound ((Bool.not_eq_true' _).mp hfunc), Option.isNone_iff_eq_none.mp hscript, ?_⟩
    rintro t ht ⟨θ', calls, hbuild⟩
    rw [ht] at htarget
    exact of_decide_eq_true htarget θ' (by rw [hbuild]; rfl)
  | tick d => trivial

variable [DecidableEq V] [DecidableEq E]

/-- `Fresh`, as a test. -/
def fresh (s : Futures Θ T V E) (t : T) : Bool :=
  (s.func_ t).isNone && decide (s.exec.mem.task t = Task.new Θ T V E) && !s.exec.mem.submitted t &&
    decide (∀ θ, ∀ i ∈ s.exec.stack θ, i.addsTo ≠ some t)

theorem fresh_sound {s : Futures Θ T V E} {t : T} (h : s.fresh t = true) : s.Fresh t := by
  simp only [fresh, Bool.and_eq_true, decide_eq_true_eq, Bool.not_eq_true',
    Option.isNone_iff_eq_none] at h
  obtain ⟨⟨⟨hfunc, htask⟩, hsub⟩, hpend⟩ := h
  exact ⟨hfunc, htask, hsub, fun i ⟨θ, hi⟩ ↦ hpend θ i hi⟩

/-- One step of a schedule, if it can be taken. -/
def act (role : Θ → Role) (vector : List V → V) (s : Futures Θ T V E) :
    Move Θ T V E → Option (Futures Θ T V E)
  | .machine a =>
    if s.free a then (Executor.act role s.exec a).map fun x ↦ s.advance a x.2 else none
  | .make θ t f =>
    if canCall role s.exec θ && !s.inFunc θ && (s.script θ).isNone && s.fresh t && decide
      (t ∉ f.all) then
      some ((s.setFunc t f).setScript θ (some (t, f.calls t)))
    else none
  | .call θ =>
    match s.script θ, s.frame θ with
    | some (t, call :: rest), none => (Executor.act role s.exec (.call θ call)).map fun x ↦
      (s.advance (.call θ call) x.2).setScript θ (some (t, rest))
    | _, _ => none
  | .made θ =>
    match s.script θ with
    | some (_, []) => if canCall role s.exec θ then some (s.setScript θ none) else none
    | _ => none
  | .start θ =>
    match s.exec.stack θ, s.frame θ with
    | .running t :: _, none => (s.func_ t).map fun f ↦ s.setFrame θ (some f.start)
    | _, _ => none
  | .body θ => (s.frame θ).bind fun fr ↦
    (fr.step vector s.exec.mem).map fun fr' ↦ s.setFrame θ (some fr')
  | .leave θ => (s.frame θ).bind fun fr ↦ fr.choice.bind fun c ↦
    (Executor.act role s.exec (.exec θ c)).map fun x ↦ (s.advance (.exec θ c) x.2).setFrame θ none

theorem step_of_act {role : Θ → Role} {vector : List V → V} {s s' : Futures Θ T V E}
    {mv : Move Θ T V E}
    (h : act role vector s mv = some s') : Step role vector s mv s' := by
  cases mv with
  | machine a =>
    dsimp only [act] at h
    split at h
    · rename_i hfree
      obtain ⟨⟨l, exec⟩, hact, rfl⟩ := Option.map_eq_some_iff.mp h
      exact .machine a (stepBy_of_act hact).2 (free_sound hfree)
    · cases h
  | make θ t f =>
    dsimp only [act] at h
    split at h
    · rename_i hcond
      obtain rfl := Option.some.inj h
      simp only [Bool.and_eq_true, decide_eq_true_eq, Bool.not_eq_true', Option.isNone_iff_eq_none]
        at hcond
      obtain ⟨⟨⟨⟨hcan, hfunc⟩, hscript⟩, hfresh⟩, hall⟩ := hcond
      exact .make θ t f (canCall_sound hcan) (inFunc_sound hfunc) hscript (fresh_sound hfresh) hall
    · cases h
  | call θ =>
    dsimp only [act] at h
    split at h
    · rename_i t call rest hscript hframe
      obtain ⟨⟨l, exec⟩, hact, rfl⟩ := Option.map_eq_some_iff.mp h
      exact .call θ t call rest hscript hframe (stepBy_of_act hact).2
    · cases h
  | made θ =>
    dsimp only [act] at h
    split at h
    · rename_i t hscript
      split at h
      · rename_i hcan
        obtain rfl := Option.some.inj h
        exact .made θ t hscript (canCall_sound hcan)
      · cases h
    · cases h
  | start θ =>
    dsimp only [act] at h
    split at h
    · rename_i t rest hs hframe
      obtain ⟨f, hf, rfl⟩ := Option.map_eq_some_iff.mp h
      exact .start θ t rest f hs hf hframe
    · cases h
  | body θ =>
    obtain ⟨fr, hframe, hrest⟩ := Option.bind_eq_some_iff.mp h
    obtain ⟨fr', hstep, rfl⟩ := Option.map_eq_some_iff.mp hrest
    exact .body θ fr fr' hframe hstep
  | leave θ =>
    obtain ⟨fr, hframe, hrest⟩ := Option.bind_eq_some_iff.mp h
    obtain ⟨c, hchoice, hrest⟩ := Option.bind_eq_some_iff.mp hrest
    obtain ⟨⟨l, exec⟩, hact, rfl⟩ := Option.map_eq_some_iff.mp hrest
    exact .leave θ fr c hframe hchoice (stepBy_of_act hact).2

/-- The run of a schedule, if all of its steps can be taken. -/
def play (role : Θ → Role) (vector : List V → V) :
    List (Move Θ T V E) → Futures Θ T V E →
      Option (List (Futures Θ T V E × Move Θ T V E) × Futures Θ T V E)
  | [], s => some ([], s)
  | mv :: mvs, s =>
    (act role vector s mv).bind fun s₁ ↦ (play role vector mvs s₁).map fun x ↦ ((s, mv) :: x.1, x.2)

theorem trace_of_play {role : Θ → Role} {vector : List V → V} {mvs : List (Move Θ T V E)}
    {s s' : Futures Θ T V E} {h : List (Futures Θ T V E × Move Θ T V E)}
    (hplay : play role vector mvs s = some (h, s')) : Lib.Trace (Step role vector) s h s' := by
  induction mvs generalizing s h with
  | nil =>
    obtain ⟨rfl, rfl⟩ := Prod.mk.inj (Option.some.inj hplay)
    exact .nil
  | cons mv mvs ih =>
    obtain ⟨s₁, hact, hrest⟩ := Option.bind_eq_some_iff.mp hplay
    obtain ⟨⟨h', s₂⟩, hplay', heq⟩ := Option.map_eq_some_iff.mp hrest
    obtain ⟨rfl, rfl⟩ := Prod.mk.inj heq
    exact .cons (step_of_act hact) (ih hplay')

theorem exists_trace_of_play (role : Θ → Role) (vector : List V → V) (s : Futures Θ T V E)
    (mvs : List (Move Θ T V E)) (p : List (Futures Θ T V E × Move Θ T V E) × Futures Θ T V E → Bool)
    (hplay : (play role vector mvs s).any p = true) :
    ∃ h s', Lib.Trace (Step role vector) s h s' ∧ p (h, s') = true := by
  obtain ⟨⟨h, s'⟩, hplay, hp⟩ := (Option.any_eq_true _ _).mp hplay
  exact ⟨h, s', trace_of_play hplay, hp⟩

end

end Futures

/-- The values of a `Future<bool>` and of a `Future<std::vector<bool>>`. -/
inductive Value where
  | bool (b : Bool)
  | vector (bs : List Bool)
deriving DecidableEq, Inhabited

/-- A `std::vector` of the values of `Future<bool>`. -/
def Value.ofList (vs : List Value) : Value :=
  .vector (vs.filterMap fun
    | .bool b => some b
    | .vector _ => none)

/-- The thread goes on in the machine. -/
def Move.steps {Θ T V E : Type} (θ : Θ) (n : ℕ) : List (Move Θ T V E) :=
    (Action.steps θ n).map .machine

end Executor
end ManyTasks
