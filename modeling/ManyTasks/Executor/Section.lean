import ManyTasks.Executor.Flow
import ManyTasks.Executor.Memory

/-!
# The lock of a queue

`Push`, `Pop` and `Close` lock the mutex of a queue; `Pop` also releases it while it sleeps.  What
an instruction does to the mutex and to the flag `closed_` is in `HeadChange`.  As for tasks, a
thread is in the scope of a lock when it has an instruction of it on its stack (`Instr.holdsQueue`),
and then it holds the mutex (`QueueLocked`).
-/

set_option autoImplicit false

namespace ManyTasks
namespace Executor

variable {Θ T V E : Type}

/-- The mutex and the flag of a queue. -/
def Mem.head (m : Mem Θ T V E) (q : Which) : Option Θ × Bool :=
  ((m.queue q).edit_queue_, (m.queue q).closed_)

/-- The queue whose mutex the instruction locks. -/
def Instr.locksQueue : Instr T V E → Option Which
  | .lockPush q _ | .lockPop q | .lockClose q => some q
  | .lockTimer => some .timer
  | _ => none

/-- Is the thread in the scope of a lock on `edit_queue_`? -/
def Instr.holdsQueue (q : Which) : Instr T V E → ℕ
  | .testPop q' | .unlockQueue q' => if q' = q then 1 else 0
  | .testDeadline => if q = .timer then 1 else 0
  | _ => 0

/-- What an instruction can do to the mutex and the flag of a queue. -/
inductive HeadChange (θ : Θ) (m : Mem Θ T V E) :
    Instr T V E → List (Instr T V E) → (Which → Option Θ × Bool) → Prop where
  | same (i : Instr T V E) (next : List (Instr T V E)) (hi : i.locksQueue = none)
      (hnext : ∀ q, (next.map (Instr.holdsQueue q)).sum = i.holdsQueue q) :
      HeadChange θ m i next m.head
  | lock (i : Instr T V E) (next : List (Instr T V E)) (q : Which) (hi : i.locksQueue = some q)
      (hfree : (m.queue q).edit_queue_ = none)
      (hnext : ∀ q', (next.map (Instr.holdsQueue q')).sum = if q = q' then 1 else 0) :
      HeadChange θ m i next (Function.update m.head q (some θ, (m.queue q).closed_))
  | unlock (i : Instr T V E) (next : List (Instr T V E)) (q : Which) (hi : i.locksQueue = none)
      (hholds : ∀ q', i.holdsQueue q' = if q = q' then 1 else 0)
      (hnext : ∀ q', (next.map (Instr.holdsQueue q')).sum = 0) :
      HeadChange θ m i next (Function.update m.head q (none, (m.queue q).closed_))
  | close (q : Which) (hopen : (m.queue q).closed_ = false) :
      HeadChange θ m (.setClosed q) [.lockClose q]
        (Function.update m.head q ((m.queue q).edit_queue_, true))

theorem Mem.head_onQueue (m : Mem Θ T V E) (q : Which) (f : Queue Θ T → Queue Θ T) :
    (m.onQueue q f).head =
      Function.update m.head q ((f (m.queue q)).edit_queue_, (f (m.queue q)).closed_) := by
  funext q'
  rw [Mem.head]
  by_cases hq : q' = q
  · subst hq
    rw [Mem.queue_onQueue_self, Function.update_self]
  · rw [Mem.queue_onQueue_of_ne _ _ hq, Function.update_of_ne hq, Mem.head]

/-- A change of a queue that leaves the mutex and the flag. -/
theorem Mem.head_onQueue_eq (m : Mem Θ T V E) (q : Which) (f : Queue Θ T → Queue Θ T)
    (hf : ∀ r, (f r).edit_queue_ = r.edit_queue_ ∧ (f r).closed_ = r.closed_) :
    (m.onQueue q f).head = m.head := by
  rw [Mem.head_onQueue, (hf _).1, (hf _).2]
  exact Function.update_eq_self q m.head

theorem headChange_lock {θ : Θ} {m : Mem Θ T V E} {i : Instr T V E} {next : List (Instr T V E)}
    {q : Which} (hi : i.locksQueue = some q) (henabled : (lockQueue θ m q next).enabled = true)
    (hnext : ∀ q', (next.map (Instr.holdsQueue q')).sum = if q = q' then 1 else 0) :
    HeadChange θ m i (lockQueue θ m q next).next (lockQueue θ m q next).mem.head := by
  dsimp only [lockQueue]
  rw [Mem.head_onQueue]
  exact .lock i next q hi (Option.isNone_iff_eq_none.mp henabled) hnext

theorem headChange_wait {θ : Θ} {m : Mem Θ T V E} {i : Instr T V E} {next : List (Instr T V E)}
    {q : Which} (hi : i.locksQueue = none)
    (hholds : ∀ q', i.holdsQueue q' = if q = q' then 1 else 0)
    (hnext : ∀ q', (next.map (Instr.holdsQueue q')).sum = 0) :
    HeadChange θ m i next (wait θ m q).head := by
  rw [wait, Mem.head_onQueue]
  exact .unlock i next q hi hholds hnext

/-- A step that changes something else in a queue. -/
theorem headChange_same {θ : Θ} {m : Mem Θ T V E} {i : Instr T V E} {next : List (Instr T V E)}
    {q : Which} {f : Queue Θ T → Queue Θ T} (hi : i.locksQueue = none)
    (hnext : ∀ q, (next.map (Instr.holdsQueue q)).sum = i.holdsQueue q)
    (hf : ∀ r, (f r).edit_queue_ = r.edit_queue_ ∧ (f r).closed_ = r.closed_) :
    HeadChange θ m i next (m.onQueue q f).head := by
  rw [m.head_onQueue_eq q f hf]
  exact .same i next hi hnext

theorem exec_headChange [DecidableEq Θ] [DecidableEq T] (θ : Θ) (m : Mem Θ T V E)
    (c : Choice Θ T V E) (i : Instr T V E) (henabled : (exec θ m c i).enabled = true) :
    HeadChange θ m i (exec θ m c i).next (exec θ m c i).mem.head := by
  cases i with
  | lockPush q t => exact headChange_lock rfl henabled fun q' ↦ by simp [Instr.holdsQueue]
  | lockPop q => exact headChange_lock rfl henabled fun q' ↦ by simp [Instr.holdsQueue]
  | lockTimer =>
    exact headChange_lock rfl henabled fun q' ↦ by simp [Instr.holdsQueue, eq_comm]
  | lockClose q =>
    exact headChange_lock rfl henabled fun q' ↦ by cases q <;> simp [Instr.holdsQueue]
  | unlockQueue q =>
    dsimp only [exec, go]
    rw [Mem.head_onQueue]
    exact .unlock _ _ q rfl (fun q' ↦ by simp [Instr.holdsQueue]) fun _ ↦ rfl
  | emplace q t =>
    dsimp only [exec, go]
    exact headChange_same rfl (fun _ ↦ rfl) fun _ ↦ ⟨rfl, rfl⟩
  | notifyOne q =>
    cases c with
    | wake θ' =>
      dsimp only [exec, go]
      exact headChange_same rfl (fun _ ↦ rfl) fun _ ↦ ⟨rfl, rfl⟩
    | _ => exact .same _ _ rfl fun _ ↦ rfl
  | notifyAll q =>
    dsimp only [exec, go]
    exact headChange_same rfl (fun _ ↦ rfl) fun _ ↦ ⟨rfl, rfl⟩
  | sleep q =>
    dsimp only [exec, go]
    exact headChange_same rfl (fun _ ↦ rfl) fun _ ↦ ⟨rfl, rfl⟩
  | sleepUntil at_ =>
    dsimp only [exec, go]
    exact headChange_same rfl (fun _ ↦ rfl) fun _ ↦ ⟨rfl, rfl⟩
  | testPop q =>
    dsimp only [exec]
    split
    · split
      · exact .same _ _ rfl fun _ ↦ rfl
      · exact headChange_wait rfl (fun _ ↦ rfl) fun _ ↦ rfl
    · cases q with
      | tasks =>
        dsimp only [exec, go]
        exact headChange_same rfl (fun _ ↦ rfl) fun _ ↦ ⟨rfl, rfl⟩
      | timer => exact .same _ _ rfl fun q' ↦ by cases q' <;> rfl
  | testDeadline =>
    cases c with
    | front t =>
      dsimp only [exec] at henabled ⊢
      split
      · split
        · exact headChange_wait rfl (fun q' ↦ by cases q' <;> rfl) fun _ ↦ rfl
        · dsimp only [exec, go]
          exact headChange_same rfl (fun q' ↦ by cases q' <;> rfl) fun _ ↦ ⟨rfl, rfl⟩
      · rename_i hnot
        rw [if_neg hnot] at henabled
        cases henabled
    | _ => cases henabled
  | setClosed q =>
    dsimp only [exec]
    split
    · exact .same _ _ rfl fun _ ↦ rfl
    · rename_i hopen
      dsimp only [go]
      rw [Mem.head_onQueue]
      exact .close q (Bool.eq_false_of_not_eq_true hopen)
  | cancelAll q =>
    refine .same _ _ rfl fun q' ↦ ?_
    simp [exec, go, Instr.holdsQueue, Function.comp_def]
  | running t => cases c <;> exact .same _ _ rfl fun _ ↦ rfl
  | testCanceled t => dsimp only [exec]; split <;> exact .same _ _ rfl fun _ ↦ rfl
  | timerTest t => dsimp only [exec]; split <;> exact .same _ _ rfl fun _ ↦ rfl
  | testEnqueued t => dsimp only [exec]; split <;> exact .same _ _ rfl fun _ ↦ rfl
  | testFinished t => dsimp only [exec]; split <;> exact .same _ _ rfl fun _ ↦ rfl
  | testDepended d t => dsimp only [exec]; split <;> exact .same _ _ rfl fun _ ↦ rfl
  | testTriggered d t => dsimp only [exec]; split <;> exact .same _ _ rfl fun _ ↦ rfl
  | finishDepended t => dsimp only [exec]; split <;> exact .same _ _ rfl fun _ ↦ rfl
  | finishTriggered t => dsimp only [exec]; split <;> exact .same _ _ rfl fun _ ↦ rfl
  | testSubmitted by_ t => dsimp only [exec]; split <;> exact .same _ _ rfl fun _ ↦ rfl
  | testTriggers by_ t => dsimp only [exec]; split <;> exact .same _ _ rfl fun _ ↦ rfl
  | testDependencies by_ t => dsimp only [exec]; split <;> exact .same _ _ rfl fun _ ↦ rfl
  | testQueue by_ t => dsimp only [exec]; split <;> exact .same _ _ rfl fun _ ↦ rfl
  | casEnqueued by_ t => dsimp only [exec]; split <;> exact .same _ _ rfl fun _ ↦ rfl
  | casSubmitted t => dsimp only [exec]; split <;> exact .same _ _ rfl fun _ ↦ rfl
  | testClosed q t => dsimp only [exec]; split <;> exact .same _ _ rfl fun _ ↦ rfl
  | _ => exact .same _ _ rfl fun _ ↦ rfl

/-- Only `Close` closes a queue. -/
theorem HeadChange.closed {θ : Θ} {m m' : Mem Θ T V E} {i : Instr T V E}
    {next : List (Instr T V E)} (h : HeadChange θ m i next m'.head) {q : Which}
    (hq : (m.queue q).closed_ = false) :
    (m'.queue q).closed_ = false ∨ (i = .setClosed q ∧ next = [.lockClose q]) := by
  generalize hhead : m'.head = head at h
  have heq : (m'.queue q).closed_ = (head q).2 := congrArg (fun f ↦ (f q).2) hhead
  rw [heq]
  cases h with
  | same => exact .inl hq
  | lock i next q' hi hfree hnext =>
    left
    by_cases hqq : q = q'
    · subst hqq
      rw [Function.update_self, hq]
    · rw [Function.update_of_ne hqq]
      exact hq
  | unlock i next q' hi hholds hnext =>
    left
    by_cases hqq : q = q'
    · subst hqq
      rw [Function.update_self, hq]
    · rw [Function.update_of_ne hqq]
      exact hq
  | close q' hopen =>
    by_cases hqq : q = q'
    · subst hqq
      exact .inr ⟨rfl, rfl⟩
    · left
      rw [Function.update_of_ne hqq]
      exact hq

/-! ## Who holds the mutex -/

/-- Who is in the scope of a lock on a queue holds the mutex, and is there once. -/
def QueueLocked [DecidableEq Θ] (s : State Θ T V E) : Prop :=
  ∀ θ q, ((s.stack θ).map (Instr.holdsQueue q)).sum =
    if (s.mem.queue q).edit_queue_ = some θ then 1 else 0

section

variable [DecidableEq Θ] {s : State Θ T V E} {θ : Θ} {i : Instr T V E} {rest : List (Instr T V E)}
  {c : Choice Θ T V E}

theorem queueLocked_init [Inhabited V] (role : Θ → Role) :
    QueueLocked (init role : State Θ T V E) := by
  intro θ q
  dsimp only [init]
  cases role θ <;> rfl

omit [DecidableEq Θ] in
/-- The mutex before and after a step, and what is left of the scope. -/
theorem HeadChange.edit_eq {m m' : Mem Θ T V E} {next : List (Instr T V E)}
    (h : HeadChange θ m i next m'.head) (q : Which) :
    ((m.queue q).edit_queue_ = none ∧ (m'.queue q).edit_queue_ = some θ ∧ i.holdsQueue q = 0 ∧
        (next.map (Instr.holdsQueue q)).sum = 1) ∨
      ((m'.queue q).edit_queue_ = none ∧ i.holdsQueue q = 1 ∧
        (next.map (Instr.holdsQueue q)).sum = 0) ∨
      ((m'.queue q).edit_queue_ = (m.queue q).edit_queue_ ∧
        (next.map (Instr.holdsQueue q)).sum = i.holdsQueue q) := by
  generalize hhead : m'.head = head at h
  have heq : (m'.queue q).edit_queue_ = (head q).1 := congrArg (fun f ↦ (f q).1) hhead
  rw [heq]
  cases h with
  | same _ _ hi hnext => exact .inr (.inr ⟨rfl, hnext q⟩)
  | lock i next q' hi hfree hnext =>
    have hzero : i.holdsQueue q = 0 := by cases i <;> simp_all [Instr.holdsQueue, Instr.locksQueue]
    by_cases hqq : q = q'
    · subst hqq
      rw [Function.update_self]
      exact .inl ⟨hfree, rfl, hzero, by rw [hnext, if_pos rfl]⟩
    · rw [Function.update_of_ne hqq]
      exact .inr (.inr ⟨rfl, by rw [hnext, if_neg (Ne.symm hqq), hzero]⟩)
  | unlock i next q' hi hholds hnext =>
    by_cases hqq : q = q'
    · subst hqq
      rw [Function.update_self]
      exact .inr (.inl ⟨rfl, by rw [hholds, if_pos rfl], hnext q⟩)
    · rw [Function.update_of_ne hqq]
      exact .inr (.inr ⟨rfl, by rw [hnext, hholds, if_neg (Ne.symm hqq)]⟩)
  | close q' hopen =>
    refine .inr (.inr ⟨?_, rfl⟩)
    by_cases hqq : q = q'
    · subst hqq
      rw [Function.update_self]
    · rw [Function.update_of_ne hqq]
      rfl

theorem QueueLocked.step [DecidableEq T] {role : Θ → Role} {l : Label T} {s' : State Θ T V E}
    (h : QueueLocked s) (hstep : Step role s l s') : QueueLocked s' := by
  cases hstep with
  | @exec θ i rest c hs henabled =>
    intro θ' q
    show _ = if ((Executor.exec θ s.mem c i).mem.queue q).edit_queue_ = some θ' then 1 else 0
    have hchange := (exec_headChange θ s.mem c i henabled).edit_eq q
    have hold := h θ q
    rw [hs, List.map_cons, List.sum_cons] at hold
    by_cases hθ : θ' = θ
    · subst hθ
      rw [Lib.Config.stack_after_self, List.map_append, List.sum_append]
      rcases hchange with ⟨hfree, hedit, hi, hnext⟩ | ⟨hedit, hi, hnext⟩ | ⟨hedit, hnext⟩
      · rw [hfree, if_neg (by simp)] at hold
        rw [hedit, if_pos rfl, hnext]
        omega
      · rw [hedit, if_neg (by simp), hnext]
        split_ifs at hold <;> omega
      · rw [hedit, hnext, hold]
    · rw [Lib.Config.stack_after_of_ne hθ, h θ' q]
      rcases hchange with ⟨hfree, hedit, hi, hnext⟩ | ⟨hedit, hi, hnext⟩ | ⟨hedit, hnext⟩
      · rw [hedit, hfree, if_neg (by simp), if_neg]
        exact fun heq ↦ hθ (Option.some.inj heq).symm
      · -- the one who unlocks is the one who holds it
        have hne : (s.mem.queue q).edit_queue_ ≠ some θ' := by
          intro heq
          rw [hi, heq, if_neg fun heq ↦ hθ (Option.some.inj heq)] at hold
          omega
        rw [hedit, if_neg hne, if_neg (by simp)]
      · rw [hedit]
  | @call θ call hcan hallowed =>
    have hcode (q : Which) : ((call.code ++ [.returned call] : List (Instr T V E)).map
        (Instr.holdsQueue q)).sum = 0 := by
      cases call <;> rfl
    intro θ' q
    show _ = if ((s.mem.call call).queue q).edit_queue_ = some θ' then 1 else 0
    rw [show (s.mem.call call).queue = s.mem.queue by cases call <;> rfl, ← h θ' q]
    by_cases hθ : θ' = θ
    · subst hθ
      rw [Lib.Config.stack_after_self, List.map_append, List.sum_append, hcode, Nat.zero_add]
    · rw [Lib.Config.stack_after_of_ne hθ]
  | tick d => exact h

/-- Who holds the mutex of a queue is in the scope of a lock on it. -/
theorem QueueLocked.exists_holds (h : QueueLocked s) {q : Which}
    (hedit : (s.mem.queue q).edit_queue_ = some θ) : ∃ i ∈ s.stack θ, i.holdsQueue q = 1 := by
  refine Lib.exists_eq_one_of_sum ?_
  rw [h θ q, if_pos hedit]

end

end Executor
end ManyTasks
