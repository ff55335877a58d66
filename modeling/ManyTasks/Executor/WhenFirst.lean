import ManyTasks.Executor.Outcome

/-!
# WhenFirst

The future that `WhenFirst` returns is enqueued when one of the futures that were passed is
finished.  But its function does not know which one that was: it runs later, and returns what the
first future of the list has that is finished by then (`not_first`).  It is the one that was
finished first when none of those before it in the list is found to be finished
(`whenFirst_correct`).
-/

set_option autoImplicit false

namespace ManyTasks
namespace Executor

section

variable {Θ T V E : Type} [DecidableEq T] [DecidableEq Θ] [Inhabited V] {s : Futures Θ T V E}
    {role : Θ → Role}
  {vector : List V → V} {c : T}

/-- **`WhenFirst` returns the first.**  In a run in which the futures that were passed are canceled
only before a worker takes them, and the function of the future that `WhenFirst` made does not come
to one that is finished but was not finished first, the future has what the one has that was
finished first, once a worker has finished it. -/
theorem whenFirst_correct {h : List (Futures Θ T V E × Move Θ T V E)}
    (hrun : Lib.Trace (Futures.Step role vector) (Futures.init role) h s) {all : List T}
    (hne : all ≠ [])
    (hc : s.func_ c = some (.whenFirst all))
    (htime : ∀ x ∈ h, ∀ d ∈ all, InTime x.1.exec (x.1.label x.2) d)
    (hscan : ∀ x ∈ h, x.1.ScansInOrder c all x.2) (hdone : s.exec.mem.Done c) :
    ∃ d, s.order.find? (· ∈ all) = some d ∧ (s.exec.mem.task c).get = (s.exec.mem.task d).get := by
  have hd : Delivers vector c (.whenFirst all) s := by
    refine delivers_of_trace hrun (by simpa using hne) htime (fun x hx all' hf ↦ ?_) hc
    obtain rfl := Func.whenFirst.inj hf
    exact hscan x hx
  rcases hdone with hstate | hstate
  · obtain ⟨d, hfirst, hget⟩ := hd.told.completed (.inl hstate)
    exact ⟨d, hfirst, by rw [hget, Task.get, hstate]⟩
  · obtain ⟨d, hfirst, hget⟩ := hd.told.failed (.inl hstate)
    exact ⟨d, hfirst, by rw [hget, Task.get, hstate]⟩

end

/-- A user passes tasks `1` and `0` to `WhenFirst`.  A worker runs task `0`, which throws; task `1`
is never submitted. -/
def firstFails : List (Move (Fin 2) (Fin 3) Value Unit) := List.flatten
  [[.machine (.call 0 (.submit 0))], Move.steps 0 15, [.make 0 2 (.whenFirst [1, 0]), .call 0],
    Move.steps 0 6, [.call 0], Move.steps 0 6, [.call 0], Move.steps 0 8, [.made 0], Move.steps 1 5,
    [.machine (.exec 1 (.throw ()))], Move.steps 1 22, [.start 1], List.replicate 7 (.body 1),
    [.leave 1], Move.steps 1 2]

theorem whenFirst_correct_failed :
    ∃ (h : List (Futures (Fin 2) (Fin 3) Value Unit × Move (Fin 2) (Fin 3) Value Unit))
      (s : Futures (Fin 2) (Fin 3) Value Unit),
      Lib.Trace (Futures.Step oneWorker Value.ofList) (Futures.init oneWorker) h s ∧
        s.func_ 2 = some (.whenFirst [1, 0]) ∧
        (∀ x ∈ h, ∀ d ∈ [1, 0], InTime x.1.exec (x.1.label x.2) d) ∧
        (∀ x ∈ h, x.1.ScansInOrder 2 [1, 0] x.2) ∧ (s.exec.mem.task 0).get = some (.error (some ()))
          ∧
        ∃ d, s.order.find? (· ∈ [1, 0]) = some d
          ∧ (s.exec.mem.task 2).get = (s.exec.mem.task d).get := by
  obtain ⟨h, s, hrun, hs⟩ := Futures.exists_trace_of_play oneWorker Value.ofList
    (Futures.init oneWorker : Futures (Fin 2) (Fin 3) Value Unit) firstFails
    (fun x ↦ x.2.func_ 2 = some (.whenFirst [1, 0]) ∧
      (∀ y ∈ x.1, ∀ d ∈ [1, 0], InTime y.1.exec (y.1.label y.2) d) ∧
      (∀ y ∈ x.1, y.1.ScansInOrder 2 [1, 0] y.2) ∧ (x.2.exec.mem.task 0).state_ = .Failed ∧
      (x.2.exec.mem.task 0).exc_ptr_ = some () ∧ x.2.exec.mem.Done 2)
    (by decide +kernel)
  obtain ⟨hc, htime, hscan, hstate, hexc, hdone⟩ := of_decide_eq_true hs
  refine ⟨h, s, hrun, hc, htime, hscan, ?_, whenFirst_correct hrun (by simp) hc htime hscan hdone⟩
  rw [Task.get, hstate, hexc]

/-- A user submits tasks `1` and `0` and passes them to `WhenFirst`, task `0` first.  One worker
runs task `1`, then task `0`, then the function. -/
def secondFinishes : List (Move (Fin 2) (Fin 3) Value Unit) := List.flatten
  [[.machine (.call 0 (.submit 1))], Move.steps 0 15, [.machine (.call 0 (.submit 0))],
    Move.steps 0 15, [.make 0 2 (.whenFirst [0, 1]), .call 0], Move.steps 0 6, [.call 0],
    Move.steps 0 6, [.call 0], Move.steps 0 8, [.made 0], Move.steps 1 5,
    [.machine (.exec 1 (.value (.bool false)))], Move.steps 1 21,
    [.machine (.exec 1 (.value (.bool true)))], Move.steps 1 12, [.start 1],
    List.replicate 4 (.body 1), [.leave 1], Move.steps 1 1]

/-- Nothing is canceled and task `1` is finished first, but `WhenFirst` returns the result of task
`0`. -/
theorem not_first :
    ∃ (h : List (Futures (Fin 2) (Fin 3) Value Unit × Move (Fin 2) (Fin 3) Value Unit))
      (s : Futures (Fin 2) (Fin 3) Value Unit),
      Lib.Trace (Futures.Step oneWorker Value.ofList) (Futures.init oneWorker) h s ∧
        s.func_ 2 = some (.whenFirst [0, 1]) ∧ (∀ x ∈ h, ∀ t, x.1.label x.2 ≠ .stored t .Canceled) ∧
        s.order = [1, 0, 2] ∧ (s.exec.mem.task 1).get = some (.ok (.bool false)) ∧
        (s.exec.mem.task 2).get = some (.ok (.bool true)) := by
  obtain ⟨h, s, hrun, hs⟩ := Futures.exists_trace_of_play oneWorker Value.ofList
    (Futures.init oneWorker : Futures (Fin 2) (Fin 3) Value Unit) secondFinishes
    (fun x ↦ x.2.func_ 2 = some (.whenFirst [0, 1])
      ∧ (∀ y ∈ x.1, ∀ t, y.1.label y.2 ≠ .stored t .Canceled) ∧
      x.2.order = [1, 0, 2] ∧ (x.2.exec.mem.task 1).state_ = .Completed ∧
      (x.2.exec.mem.task 1).result_ = .bool false ∧ (x.2.exec.mem.task 2).state_ = .Completed ∧
      (x.2.exec.mem.task 2).result_ = .bool true)
    (by decide +kernel)
  obtain ⟨hc, hnot, horder, hstate₁, hresult₁, hstate₂, hresult₂⟩ := of_decide_eq_true hs
  refine ⟨h, s, hrun, hc, hnot, horder, ?_, ?_⟩
  · rw [Task.get, hstate₁, hresult₁]
  · rw [Task.get, hstate₂, hresult₂]

end Executor
end ManyTasks
