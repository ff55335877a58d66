import ManyTasks.Executor.Machine
import Mathlib.Data.Fintype.Basic

/-!
# Schedules

The steps of the machine are a relation, since any thread may take the next one.  A schedule says
which thread does, and with what choice; `play` runs the machine by it.  So a single run can be
computed, and is a run of the machine (`trace_of_play`).
-/

set_option autoImplicit false

namespace ManyTasks
namespace Executor

variable {Θ T V E : Type}

/-- What happens next. -/
inductive Action (Θ T V E : Type) where
  /-- The thread executes its next instruction. -/
  | exec (θ : Θ) (c : Choice Θ T V E)
  /-- The thread calls. -/
  | call (θ : Θ) (call : Call T)
  /-- Time passes. -/
  | tick (d : ℕ)

/-- The thread executes its next `n` instructions, which leave nothing to chance. -/
def Action.steps (θ : Θ) (n : ℕ) : List (Action Θ T V E) := List.replicate n (.exec θ .none)

section StepBy

variable [DecidableEq Θ] [DecidableEq T]

/-- A step, with what happens in it. -/
inductive StepBy (role : Θ → Role) : State Θ T V E → Action Θ T V E → State Θ T V E → Prop where
  | exec {s : State Θ T V E} {θ : Θ} {i : Instr T V E} {rest : List (Instr T V E)}
      (c : Choice Θ T V E) (hstack : s.stack θ = i :: rest)
      (henabled : (Executor.exec θ s.mem c i).enabled = true) :
      StepBy role s (.exec θ c) (s.after θ rest (Executor.exec θ s.mem c i))
  | call {s : State Θ T V E} {θ : Θ} (c : Call T) (hcan : CanCall role s θ)
      (hallowed : Allowed s c) :
      StepBy role s (.call θ c)
        (s.after θ (s.stack θ) ⟨true, s.mem.call c, c.code ++ [.returned c], Label.called c⟩)
  | tick {s : State Θ T V E} (d : ℕ) :
      StepBy role s (.tick d) { s with mem := { s.mem with now := s.mem.now + d } }

/-- What is seen of it. -/
def Action.label (s : State Θ T V E) : Action Θ T V E → Label T
  | .exec θ c =>
    match s.stack θ with
    | [] => .none
    | i :: _ => (Executor.exec θ s.mem c i).label
  | .call _ c => .called c
  | .tick _ => .none

theorem StepBy.step {role : Θ → Role} {s s' : State Θ T V E} {a : Action Θ T V E}
    (h : StepBy role s a s') : Step role s (a.label s) s' := by
  cases h with
  | @exec θ i rest c hstack henabled =>
    have hlabel : (Action.exec θ c).label s = (Executor.exec θ s.mem c i).label := by
      dsimp only [Action.label]
      rw [hstack]
    rw [hlabel]
    exact .exec c hstack henabled
  | call c hcan hallowed => exact .call c hcan hallowed
  | tick d => exact .tick d

end StepBy

/-- `CanCall`, as a test. -/
def canCall (role : Θ → Role) (s : State Θ T V E) (θ : Θ) : Bool :=
  match s.stack θ with
  | [] => role θ == .user
  | .running _ :: _ => true
  | _ => false

theorem canCall_sound {role : Θ → Role} {s : State Θ T V E} {θ : Θ}
    (h : canCall role s θ = true) : CanCall role s θ := by
  rw [canCall] at h
  split at h
  · rename_i hstack
    exact .inl ⟨by simpa using h, hstack⟩
  · rename_i t rest hstack
    exact .inr ⟨t, rest, hstack⟩
  · cases h

variable [DecidableEq Θ] [DecidableEq T] [Fintype Θ]

/-- `Allowed`, as a test. -/
def allowed (s : State Θ T V E) : Call T → Bool
  | .addDependency t _ | .addTrigger t _ | .setTimeTrigger t _ => !s.mem.submitted t
  | .submit t => decide (∀ θ, ∀ i ∈ s.stack θ, i.addsTo ≠ some t)
  | .cancel _ | .startShutdown => true

omit [DecidableEq Θ] in
theorem allowed_sound {s : State Θ T V E} {call : Call T} (h : allowed s call = true) :
    Allowed s call := by
  cases call with
  | submit t =>
    rintro i ⟨θ, hi⟩
    exact of_decide_eq_true h θ i hi
  | cancel t => trivial
  | startShutdown => trivial
  | _ => exact (Bool.not_eq_true' _).mp h

/-- One step of a schedule, if it can be taken. -/
def act (role : Θ → Role) (s : State Θ T V E) : Action Θ T V E → Option (Label T × State Θ T V E)
  | .exec θ c =>
    match s.stack θ with
    | [] => none
    | i :: rest =>
      if (exec θ s.mem c i).enabled then
        some ((exec θ s.mem c i).label, s.after θ rest (exec θ s.mem c i))
      else none
  | .call θ call =>
    if canCall role s θ && allowed s call then
      some (.called call, s.after θ (s.stack θ)
        ⟨true, s.mem.call call, call.code ++ [.returned call], Label.called call⟩)
    else none
  | .tick d => some (.none, { s with mem := { s.mem with now := s.mem.now + d } })

theorem stepBy_of_act {role : Θ → Role} {s s' : State Θ T V E} {a : Action Θ T V E} {l : Label T}
    (h : act role s a = some (l, s')) : Step role s l s' ∧ StepBy role s a s' := by
  cases a with
  | exec θ c =>
    dsimp only [act] at h
    split at h
    · cases h
    · rename_i i rest hstack
      split at h
      · rename_i henabled
        obtain ⟨rfl, rfl⟩ := Prod.mk.inj (Option.some.inj h)
        exact ⟨.exec c hstack henabled, .exec c hstack henabled⟩
      · cases h
  | call θ call =>
    dsimp only [act] at h
    split at h
    · rename_i hcond
      rw [Bool.and_eq_true] at hcond
      obtain ⟨rfl, rfl⟩ := Prod.mk.inj (Option.some.inj h)
      have hcan := canCall_sound hcond.1
      exact ⟨.call call hcan (allowed_sound hcond.2), .call call hcan (allowed_sound hcond.2)⟩
    · cases h
  | tick d =>
    obtain ⟨rfl, rfl⟩ := Prod.mk.inj (Option.some.inj h)
    exact ⟨.tick d, .tick d⟩

theorem step_of_act {role : Θ → Role} {s s' : State Θ T V E} {a : Action Θ T V E} {l : Label T}
    (h : act role s a = some (l, s')) : Step role s l s' := (stepBy_of_act h).1

/-- The run of a schedule, if all of its steps can be taken. -/
def play (role : Θ → Role) :
    List (Action Θ T V E) → State Θ T V E → Option (List (State Θ T V E × Label T) × State Θ T V E)
  | [], s => some ([], s)
  | a :: as, s =>
    (act role s a).bind fun (l, s₁) ↦ (play role as s₁).map fun (h, s₂) ↦ ((s, l) :: h, s₂)

/-- What is played is a run. -/
theorem trace_of_play {role : Θ → Role} {as : List (Action Θ T V E)} {s s' : State Θ T V E}
    {h : List (State Θ T V E × Label T)} (hplay : play role as s = some (h, s')) :
    Lib.Trace (Step role) s h s' := by
  induction as generalizing s h with
  | nil =>
    obtain ⟨rfl, rfl⟩ := Prod.mk.inj (Option.some.inj hplay)
    exact .nil
  | cons a as ih =>
    obtain ⟨⟨l, s₁⟩, hact, hrest⟩ := Option.bind_eq_some_iff.mp hplay
    obtain ⟨⟨h', s₂⟩, hplay', heq⟩ := Option.map_eq_some_iff.mp hrest
    obtain ⟨rfl, rfl⟩ := Prod.mk.inj heq
    exact .cons (step_of_act hact) (ih hplay')

/-- What is played is a run in which just that happens. -/
theorem traceBy_of_play {role : Θ → Role} {as : List (Action Θ T V E)} {s s' : State Θ T V E}
    {h : List (State Θ T V E × Label T)} (hplay : play role as s = some (h, s')) :
    ∃ h', Lib.Trace (StepBy role) s h' s' ∧ h'.map Prod.snd = as ∧
      h'.map Prod.fst = h.map Prod.fst := by
  induction as generalizing s h with
  | nil =>
    obtain ⟨rfl, rfl⟩ := Prod.mk.inj (Option.some.inj hplay)
    exact ⟨[], .nil, rfl, rfl⟩
  | cons a as ih =>
    obtain ⟨⟨l, s₁⟩, hact, hrest⟩ := Option.bind_eq_some_iff.mp hplay
    obtain ⟨⟨h₁, s₂⟩, hplay', heq⟩ := Option.map_eq_some_iff.mp hrest
    obtain ⟨rfl, rfl⟩ := Prod.mk.inj heq
    obtain ⟨h', hrun, hactions, hstates⟩ := ih hplay'
    refine ⟨(s, a) :: h', .cons (stepBy_of_act hact).2 hrun, ?_, ?_⟩
    · rw [List.map_cons, hactions]
    · rw [List.map_cons, List.map_cons, hstates]

/-- A schedule that can be played, and ends as tested, is a run that ends so. -/
theorem exists_trace_of_play (role : Θ → Role) (s : State Θ T V E) (as : List (Action Θ T V E))
    (p : List (State Θ T V E × Label T) × State Θ T V E → Bool)
    (hplay : (play role as s).any p = true) :
    ∃ h s', Lib.Trace (Step role) s h s' ∧ p (h, s') = true := by
  obtain ⟨⟨h, s'⟩, hplay, hp⟩ := (Option.any_eq_true _ _).mp hplay
  exact ⟨h, s', trace_of_play hplay, hp⟩

/-- The same for a run in which one step is singled out. -/
theorem exists_trace_through (role : Θ → Role) (s : State Θ T V E) (as : List (Action Θ T V E))
    (a : Action Θ T V E) (bs : List (Action Θ T V E))
    (p : List (State Θ T V E × Label T) → State Θ T V E → Label T →
      List (State Θ T V E × Label T) → Bool)
    (hplay : (play role as s).any (fun x ↦ (act role x.2 a).any fun y ↦
      (play role bs y.2).any fun z ↦ p x.1 x.2 y.1 z.1) = true) :
    ∃ h₁ s₁ l h₂ s', Lib.Trace (Step role) s (h₁ ++ (s₁, l) :: h₂) s' ∧ p h₁ s₁ l h₂ = true := by
  obtain ⟨⟨h₁, s₁⟩, hplay₁, hact⟩ := (Option.any_eq_true _ _).mp hplay
  obtain ⟨⟨l, s₂⟩, hact, hplay₂⟩ := (Option.any_eq_true _ _).mp hact
  obtain ⟨⟨h₂, s'⟩, hplay₂, hp⟩ := (Option.any_eq_true _ _).mp hplay₂
  exact ⟨h₁, s₁, l, h₂, s',
    (trace_of_play hplay₁).append (.cons (step_of_act hact) (trace_of_play hplay₂)), hp⟩

/-! The threads of small executors, and their tasks, are numerals. -/

scoped instance neZero_one : NeZero 1 := ⟨Nat.succ_ne_zero 0⟩

scoped instance neZero_two : NeZero 2 := ⟨Nat.succ_ne_zero 1⟩

scoped instance neZero_three : NeZero 3 := ⟨Nat.succ_ne_zero 2⟩

/-- An executor with one worker thread, `1`, and a user thread, `0`. -/
def oneWorker (θ : Fin 2) : Role := if θ = 0 then .user else .worker

/-- An executor with one worker thread, `2`, and two user threads, `0` and `1`. -/
def twoUsers (θ : Fin 3) : Role := if θ = 2 then .worker else .user

end Executor
end ManyTasks
