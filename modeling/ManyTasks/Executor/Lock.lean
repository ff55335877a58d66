import ManyTasks.Executor.Flow
import ManyTasks.Executor.Memory

/-!
# The lock of a task

`AddDepended`, `AddTriggered` and `OnFinished` lock the mutex of a task for the rest of their scope.
A thread is in the scope when it has an instruction of it on its stack (`Instr.holds`), and then it
holds the mutex (`Locked.edit_eq`).  So two threads are never in the scope of the same lock.
-/

set_option autoImplicit false

namespace ManyTasks
namespace Executor

variable {Θ T V E : Type} [DecidableEq T]

/-- Is the thread in the scope of a lock on `edit_task_` of `d`? -/
def Instr.holds (d : T) : Instr T V E → ℕ
  | .testDepended x _ | .register x _ | .testTriggered x _ | .registerTrigger x _
  | .activate x _ | .finishDepended x | .finishTriggered x | .unlockTask x => if x = d then 1 else 0
  | _ => 0

section

variable {m : Mem Θ T V E} {i : Instr T V E} {next : List (Instr T V E)} {l : Label T}
  {tasks : List T}

theorem Leads.holds_eq (h : Leads m i next) (d : T) :
    (i.locks = some d → (next.map (Instr.holds d)).sum = 1 ∧ i.holds d = 0) ∧
      (i = .unlockTask d → (next.map (Instr.holds d)).sum = 0 ∧ i.holds d = 1) ∧
      (i.locks ≠ some d → i ≠ .unlockTask d → (next.map (Instr.holds d)).sum = i.holds d) := by
  cases h with
  | cancelAll q ts => simp [Instr.holds, Instr.locks, Function.comp_def]
  | lockClose q j hj => rcases hj with rfl | rfl <;> simp [Instr.holds, Instr.locks]
  | done i h => cases i <;> simp_all [Instr.holds, Instr.locks, Instr.mayEnd]
  | _ => simp [Instr.holds, Instr.locks]

theorem Flow.holds_eq (h : Flow m i next l tasks) (d : T) :
    (i.locks = some d → (next.map (Instr.holds d)).sum = 1 ∧ i.holds d = 0) ∧
      (i = .unlockTask d → (next.map (Instr.holds d)).sum = 0 ∧ i.holds d = 1) ∧
      (i.locks ≠ some d → i ≠ .unlockTask d → (next.map (Instr.holds d)).sum = i.holds d) := by
  cases h with
  | quiet h => exact h.holds_eq d
  | _ => simp [Instr.holds, Instr.locks]

/-- A mutex is locked only if nobody holds it. -/
theorem edit_eq_none_of_enabled [DecidableEq Θ] {θ : Θ} {c : Choice Θ T V E} {d : T}
    (hi : i.locks = some d) (henabled : (exec θ m c i).enabled = true) :
    (m.task d).edit_task_ = none := by
  cases i with
  | addDepended x t =>
    obtain rfl := Option.some.inj hi
    exact Option.isNone_iff_eq_none.mp henabled
  | addTriggered x t =>
    obtain rfl := Option.some.inj hi
    exact Option.isNone_iff_eq_none.mp henabled
  | onFinished x =>
    obtain rfl := Option.some.inj hi
    exact Option.isNone_iff_eq_none.mp henabled
  | _ => cases hi

end

/-- Who is in the scope of a lock holds the mutex, and is there once. -/
def Locked [DecidableEq Θ] (s : State Θ T V E) : Prop :=
  ∀ θ d, ((s.stack θ).map (Instr.holds d)).sum =
    if (s.mem.task d).edit_task_ = some θ then 1 else 0

section

variable [DecidableEq Θ] {s : State Θ T V E} {θ : Θ} {i : Instr T V E} {rest : List (Instr T V E)}
  {c : Choice Θ T V E}

theorem locked_init [Inhabited V] (role : Θ → Role) : Locked (init role : State Θ T V E) := by
  intro θ d
  dsimp only [init]
  cases role θ <;> rfl

theorem Locked.exec (h : Locked s) (hs : s.stack θ = i :: rest)
    (henabled : (exec θ s.mem c i).enabled = true) :
    Locked (s.after θ rest (exec θ s.mem c i)) := by
  intro θ' d
  show _ = if ((Executor.exec θ s.mem c i).mem.task d).edit_task_ = some θ' then 1 else 0
  obtain ⟨hlocks, hunlock, hother⟩ := (exec_flow θ s.mem c i).holds_eq d
  have hold := h θ d
  have hold' := h θ' d
  rw [hs, List.map_cons, List.sum_cons] at hold
  by_cases hθ : θ' = θ
  · subst hθ
    rw [Lib.Config.stack_after_self, List.map_append, List.sum_append]
    rcases (exec_taskChange θ' s.mem c i).edit_eq d with
      ⟨hi, hedit⟩ | ⟨rfl, hedit⟩ | ⟨hi, hne, hedit⟩
    · rw [edit_eq_none_of_enabled hi henabled, if_neg (by simp)] at hold
      rw [hedit, if_pos rfl, (hlocks hi).1]
      omega
    · rw [hedit, if_neg (by simp), (hunlock rfl).1]
      rw [(hunlock rfl).2] at hold
      split_ifs at hold <;> omega
    · rw [hedit, hother hi hne, hold]
  · rw [Lib.Config.stack_after_of_ne hθ, hold']
    rcases (exec_taskChange θ s.mem c i).edit_eq d with
      ⟨hi, hedit⟩ | ⟨rfl, hedit⟩ | ⟨hi, hne, hedit⟩
    · rw [hedit, edit_eq_none_of_enabled hi henabled, if_neg (by simp), if_neg]
      exact fun heq ↦ hθ (Option.some.inj heq).symm
    · -- the one who unlocks is the one who holds it
      have hne : (s.mem.task d).edit_task_ ≠ some θ' := by
        intro heq
        rw [(hunlock rfl).2, heq, if_neg fun heq ↦ hθ (Option.some.inj heq)] at hold
        omega
      rw [hedit, if_neg hne, if_neg (by simp)]
    · rw [hedit]

theorem Locked.call (h : Locked s) {call : Call T} :
    Locked (s.after θ (s.stack θ)
      ⟨true, s.mem.call call, call.code ++ [.returned call], Label.called call⟩) := by
  have hcode (d : T) : ((call.code ++ [.returned call] : List (Instr T V E)).map
      (Instr.holds d)).sum = 0 := by
    cases call <;> rfl
  intro θ' d
  show _ = if ((s.mem.call call).task d).edit_task_ = some θ' then 1 else 0
  rw [show (s.mem.call call).task = s.mem.task by cases call <;> rfl, ← h θ' d]
  by_cases hθ : θ' = θ
  · subst hθ
    rw [Lib.Config.stack_after_self, List.map_append, List.sum_append, hcode, Nat.zero_add]
  · rw [Lib.Config.stack_after_of_ne hθ]

/-- Who is in the scope of a lock holds the mutex. -/
theorem Locked.edit_eq (h : Locked s) {d : T} (hi : i ∈ s.stack θ) (hholds : i.holds d = 1) :
    (s.mem.task d).edit_task_ = some θ := by
  have hle : i.holds d ≤ ((s.stack θ).map (Instr.holds d)).sum :=
    List.single_le_sum (fun _ _ ↦ Nat.zero_le _) _ (List.mem_map_of_mem hi)
  by_contra hne
  rw [h θ d, if_neg hne] at hle
  omega

/-- Who holds the mutex of a task is in the scope of a lock on it. -/
theorem Locked.exists_holds (h : Locked s) {d : T} (hedit : (s.mem.task d).edit_task_ = some θ) :
    ∃ i ∈ s.stack θ, i.holds d = 1 := by
  refine Lib.exists_eq_one_of_sum ?_
  rw [h θ d, if_pos hedit]

end

end Executor
end ManyTasks
