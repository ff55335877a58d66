import ManyTasks.Coroutine.Scheduler
import Mathlib.Data.List.Range

/-!
# Whose turn it is

A task that has not been started is to be resumed before all that have, and the one that was added
first before the others; and then the tasks are resumed in the order of the time points they wait
for, and in the order in which they were added if these are equal (`First`).

`Compare` has the readings of the clock to tell the last of these, and they are in the order of the
tasks (`Inv.times`), but not strictly.  So the order is as it should be where no task in the queue
compares equal to the one in front (`Untied`): this is `schedule_correct`.  `not_first_four_at_once`
is a run in which four tasks are added at one reading, and the third is resumed before the second.
-/

set_option autoImplicit false

namespace ManyTasks
namespace Coroutine

open Lib (Trace)

/-- It is the turn of `c`. -/
def First (queue : Array Task) (c : Task) : Prop :=
  (c.is_started = false ∧ ∀ c' ∈ queue, c'.is_started = false → c.handle_ ≤ c'.handle_) ∨
    (∀ c' ∈ queue, c'.is_started = true) ∧
      ∀ c' ∈ queue, c.next_time ≤ c'.next_time ∧
        (c'.next_time = c.next_time → c.handle_ ≤ c'.handle_)

/-- No other task in the queue compares equal to the one that is resumed. -/
def Untied (s : Scheduler) : Label → Prop
  | .resume c => ∀ c' ∈ s.coroutines_, c.compare c' = false → c'.compare c = false → c' = c
  | _ => True

/-- The tasks that are not done. -/
def Scheduler.tasks (s : Scheduler) : List Task := s.coroutines_.toList ++ s.resumed.toList

/-- Every task is at one place: in the queue, resumed, or done. -/
def Scheduler.Accounted (s : Scheduler) : Prop :=
  (s.tasks.map Task.handle_ ++ s.done).Perm (List.range s.added)

/-- A task is resumed when it is its turn and it is not done, and `Run` returns when all tasks are
done. -/
def Correct (s : Scheduler) : Label → Prop
  | .resume c => c ∈ s.coroutines_ ∧ First s.coroutines_ c ∧ c.handle_ ∉ s.done
  | .stop => s.done.Perm (List.range s.added)
  | _ => True

/-- What the scheduler knows of the tasks that are not done. -/
structure Known (tasks : List Task) (clock : ℤ) : Prop where
  /-- The readings of the clock are in the order of the tasks. -/
  times : ∀ c ∈ tasks, ∀ c' ∈ tasks, c.handle_ < c'.handle_ → c.added_time ≤ c'.added_time
  past : ∀ c ∈ tasks, c.added_time ≤ clock
  fresh : ∀ c ∈ tasks, c.is_started = false → c.next_time = c.added_time

structure Inv (s : Scheduler) : Prop where
  heap : StdHeap s.coroutines_
  accounted : s.Accounted
  known : Known s.tasks s.clock

/-! ## Tasks -/

section Known

variable {tasks tasks' : List Task} {clock : ℤ}

theorem Known.mono (h : Known tasks clock) {now : ℤ} (hclock : clock ≤ now) : Known tasks now where
  times := h.times
  past c hc := (h.past c hc).trans hclock
  fresh := h.fresh

/-- Tasks may wait for other time points, once they are started. -/
theorem Known.transfer (h : Known tasks clock)
    (hsame : ∀ c' ∈ tasks', ∃ c ∈ tasks, c.handle_ = c'.handle_ ∧ c.added_time = c'.added_time ∧
      (c'.is_started = false → c.is_started = false ∧ c.next_time = c'.next_time)) :
    Known tasks' clock where
  times c₁ h₁ c₂ h₂ hlt := by
    obtain ⟨d₁, hd₁, hhandle₁, hadded₁, -⟩ := hsame c₁ h₁
    obtain ⟨d₂, hd₂, hhandle₂, hadded₂, -⟩ := hsame c₂ h₂
    rw [← hadded₁, ← hadded₂]
    exact h.times d₁ hd₁ d₂ hd₂ (by rw [hhandle₁, hhandle₂]; exact hlt)
  past c hc := by
    obtain ⟨d, hd, -, hadded, -⟩ := hsame c hc
    exact hadded ▸ h.past d hd
  fresh c hc hnot := by
    obtain ⟨d, hd, -, hadded, hkeep⟩ := hsame c hc
    obtain ⟨hstarted, hnext⟩ := hkeep hnot
    rw [← hadded, ← hnext]
    exact h.fresh d hd hstarted

/-- A new task is the last one. -/
theorem Known.add (h : Known tasks clock) {n : ℕ} (hn : ∀ c ∈ tasks, c.handle_ < n) :
    Known (.new n clock :: tasks) clock where
  times c hc c' hc' hlt := by
    rcases List.mem_cons.mp hc with rfl | hc
    · rcases List.mem_cons.mp hc' with rfl | hc'
      · exact le_rfl
      · have hlt' := hn c' hc'
        simp only [Task.new] at hlt
        omega
    · rcases List.mem_cons.mp hc' with rfl | hc'
      · exact h.past c hc
      · exact h.times c hc c' hc' hlt
  past c hc := by
    rcases List.mem_cons.mp hc with rfl | hc
    · exact le_rfl
    · exact h.past c hc
  fresh c hc hnot := by
    rcases List.mem_cons.mp hc with rfl | hc
    · rfl
    · exact h.fresh c hc hnot

/-- Of two tasks with different readings, the one with the less was added first. -/
theorem Known.handle_le (h : Known tasks clock) {c c' : Task} (hc : c ∈ tasks) (hc' : c' ∈ tasks)
    (hlt : c.added_time < c'.added_time) : c.handle_ ≤ c'.handle_ := by
  by_contra hnot
  exact absurd (h.times c' hc' c hc (not_le.mp hnot)) (not_le.mpr hlt)

/-- It is the turn of a task with the least key, if no other has the same. -/
theorem Known.first (h : Known tasks clock) {queue : Array Task} {c : Task} (hc : c ∈ queue)
    (hqueue : ∀ c' ∈ queue, c' ∈ tasks) (hleast : ∀ c' ∈ queue, c.key ≤ c'.key)
    (huntied : ∀ c' ∈ queue, c.key ≤ c'.key → c'.key ≤ c.key → c' = c) : First queue c := by
  have hless : ∀ c' ∈ queue, c.is_started = c'.is_started → c.next_time = c'.next_time →
      c.handle_ ≤ c'.handle_ := by
    intro c' hc' hstarted hnext
    have hle : c.added_time ≤ c'.added_time := by
      have hkey := Task.key_le_iff.mp (hleast c' hc')
      simpa [hstarted, hnext] using hkey
    rcases hle.lt_or_eq with hlt | heq
    · exact h.handle_le (hqueue c hc) (hqueue c' hc') hlt
    · have hsame : c'.key = c.key := by simp only [Task.key, hstarted, hnext, heq]
      rw [huntied c' hc' hsame.ge hsame.le]
  cases hstarted : c.is_started with
  | false =>
    refine .inl ⟨hstarted, fun c' hc' hnot ↦ ?_⟩
    have hkey := Task.key_le_iff.mp (hleast c' hc')
    rw [hstarted, hnot, h.fresh c (hqueue c hc) hstarted, h.fresh c' (hqueue c' hc') hnot] at hkey
    simp only [lt_self_iff_false, true_and, false_or] at hkey
    rcases hkey with hlt | ⟨heq, -⟩
    · exact h.handle_le (hqueue c hc) (hqueue c' hc') hlt
    · refine hless c' hc' (hstarted.trans hnot.symm) ?_
      rw [h.fresh c (hqueue c hc) hstarted, h.fresh c' (hqueue c' hc') hnot, heq]
  | true =>
    have hall : ∀ c' ∈ queue, c'.is_started = true := by
      intro c' hc'
      have hkey := Task.key_le_iff.mp (hleast c' hc')
      rw [hstarted] at hkey
      rcases hkey with hlt | ⟨heq, -⟩
      · exact absurd hlt (not_lt.mpr (Bool.le_true _))
      · exact heq.symm
    refine .inr ⟨hall, fun c' hc' ↦ ⟨?_, fun heq ↦ ?_⟩⟩
    · have hkey := Task.key_le_iff.mp (hleast c' hc')
      rw [hstarted, hall c' hc'] at hkey
      simp only [lt_self_iff_false, true_and, false_or] at hkey
      rcases hkey with hlt | ⟨heq, -⟩
      · exact hlt.le
      · exact heq.le
    · exact hless c' hc' (hstarted.trans (hall c' hc').symm) heq.symm

end Known

/-! ## Steps -/

section Steps

variable {s s' : Scheduler} {l : Label} {c : Task} {coroutines' : Array Task}

theorem PushHeap.perm (h : PushHeap s.coroutines_ c coroutines') :
    coroutines'.toList.Perm (s.coroutines_.toList ++ [c]) := by
  simpa using h.1.toList

theorem PopHeap.perm (h : PopHeap s.coroutines_ c coroutines') :
    s.coroutines_.toList.Perm (coroutines'.toList ++ [c]) := by
  simpa using h.2.1.toList

theorem Inv.handle_lt (hinv : Inv s) : ∀ c ∈ s.tasks, c.handle_ < s.added := by
  intro c hc
  rw [← List.mem_range, ← hinv.accounted.mem_iff]
  exact List.mem_append_left _ (List.mem_map_of_mem hc)

theorem Inv.add (hinv : Inv s) {now : ℤ} (hclock : s.clock ≤ now)
    (hheap : PushHeap s.coroutines_ (.new s.added now) coroutines') :
    Inv { s with coroutines_ := coroutines', clock := now, added := s.added + 1 } := by
  have hperm : (coroutines'.toList ++ s.resumed.toList).Perm (.new s.added now :: s.tasks) := by
    refine (hheap.perm.append_right _).trans ?_
    rw [List.append_assoc, Scheduler.tasks]
    exact List.perm_middle
  have hnew := (hinv.known.mono hclock).add hinv.handle_lt
  refine ⟨hheap.2, ?_, ?_⟩
  · rw [Scheduler.Accounted, List.range_succ]
    refine ((hperm.map Task.handle_).append_right s.done).trans ?_
    rw [List.map_cons, List.cons_append]
    exact (hinv.accounted.cons _).trans (List.perm_append_singleton _ _).symm
  · refine hnew.transfer fun c' hc' ↦ ⟨c', hperm.mem_iff.mp hc', rfl, rfl, fun hnot ↦ ⟨hnot, rfl⟩⟩

/-- A task changes its place, and what it waits for. -/
theorem Inv.move (hinv : Inv s) (tasks : List Task) (d : Task)
    (hbefore : s.tasks.Perm (tasks ++ [c])) (hafter : s'.tasks.Perm (tasks ++ [d]))
    (hhandle : d.handle_ = c.handle_) (hadded : d.added_time = c.added_time)
    (hstarted : d.is_started = true) (hheap : StdHeap s'.coroutines_) (hclock : s.clock ≤ s'.clock)
    (hcount : s'.added = s.added)
    (hdone : s'.done = s.done) : Inv s' := by
  refine ⟨hheap, ?_, (hinv.known.mono hclock).transfer fun c' hc' ↦ ?_⟩
  · have hhandles : (s'.tasks.map Task.handle_).Perm (s.tasks.map Task.handle_) := by
      refine (hafter.map _).trans (.trans ?_ (hbefore.map _).symm)
      rw [List.map_append, List.map_append, List.map_singleton, List.map_singleton, hhandle]
    rw [Scheduler.Accounted, hcount, hdone]
    exact (hhandles.append_right _).trans hinv.accounted
  · rcases List.mem_append.mp (hafter.mem_iff.mp hc') with hmem | hmem
    · exact ⟨c', hbefore.mem_iff.mpr (List.mem_append_left _ hmem), rfl, rfl,
        fun hnot ↦ ⟨hnot, rfl⟩⟩
    · obtain rfl := List.mem_singleton.mp hmem
      refine ⟨c, hbefore.mem_iff.mpr (by simp), hhandle.symm, hadded.symm, fun hnot ↦ ?_⟩
      rw [hstarted] at hnot
      cases hnot

/-- What is resumed has been started. -/
def Started (s : Scheduler) : Prop := ∀ c, s.resumed = some c → c.is_started = true

/-- The task that `std::pop_heap` takes out is one with the least key. -/
theorem PopHeap.least (hheap : StdHeap s.coroutines_) (hpop : PopHeap s.coroutines_ c coroutines') :
    c ∈ s.coroutines_ ∧ ∀ c' ∈ s.coroutines_, c.key ≤ c'.key := by
  obtain ⟨hsize, hfront⟩ := Array.getElem?_eq_some_iff.mp hpop.1
  refine ⟨hfront ▸ Array.getElem_mem hsize, fun c' hc' ↦ ?_⟩
  rw [← hfront]
  exact (stdHeap_iff.mp hheap).root_le_of_mem hsize hc'

/-- A task that is resumed is not done. -/
theorem Inv.notMem_done (hinv : Inv s) (hc : c ∈ s.tasks) : c.handle_ ∉ s.done := by
  intro hdone
  have hnodup := hinv.accounted.nodup_iff.mpr List.nodup_range
  exact (List.nodup_append.mp hnodup).2.2 _ (List.mem_map_of_mem hc) _ hdone rfl

/-- **What one step does**, if there is no tie. -/
theorem Inv.step (hinv : Inv s) (hstarted : Started s) (hstep : Step s l s')
    (huntied : Untied s l) :
    (Inv s' ∧ Started s') ∧ Correct s l := by
  cases hstep with
  | tick now h =>
    exact ⟨⟨⟨hinv.heap, hinv.accounted, hinv.known.mono h⟩, hstarted⟩, trivial⟩
  | add now coroutines' h hheap => exact ⟨⟨hinv.add h hheap, hstarted⟩, trivial⟩
  | resume c coroutines' now h hclock hheap hawait =>
    obtain ⟨hmem, hleast⟩ := hheap.least hinv.heap
    have htasks : s.tasks = s.coroutines_.toList := by simp [Scheduler.tasks, h]
    have hqueue : ∀ c' ∈ s.coroutines_, c' ∈ s.tasks := by
      intro c' hc'
      rw [htasks]
      exact hc'.val
    have hfirst : First s.coroutines_ c := hinv.known.first hmem hqueue hleast fun c' hc' hle hge ↦
      huntied c' hc' (Task.compare_eq_false_iff.mpr hle) (Task.compare_eq_false_iff.mpr hge)
    refine ⟨⟨?_, ?_⟩, hmem, hfirst, hinv.notMem_done (hqueue c hmem)⟩
    · refine hinv.move (c := c) coroutines'.toList { c with is_started := true } ?_
        (.refl _) rfl rfl rfl hheap.2.2 hclock rfl rfl
      rw [htasks]
      exact hheap.perm
    · intro c' hc'
      simp only [Option.some.injEq] at hc'
      rw [← hc']
  | suspend c time_point coroutines' h hheap =>
    refine ⟨⟨?_, by simp [Started]⟩, trivial⟩
    refine hinv.move (c := c) s.coroutines_.toList { c with next_time := time_point } ?_ ?_ rfl rfl
      (hstarted c h) hheap.2 le_rfl rfl rfl
    · rw [Scheduler.tasks, h]
      exact .refl _
    · simpa [Scheduler.tasks] using hheap.perm
  | finish c h =>
    have htasks : s.tasks = s.coroutines_.toList ++ [c] := by rw [Scheduler.tasks, h]; rfl
    refine ⟨⟨⟨hinv.heap, ?_, ?_⟩, by simp [Started]⟩, trivial⟩
    · have haccounted := hinv.accounted
      rw [Scheduler.Accounted, htasks] at haccounted
      refine .trans ?_ haccounted
      simp only [Scheduler.tasks, Option.toList, List.append_nil, List.map_append, List.map_cons,
        List.map_nil, List.append_assoc]
      exact List.Perm.append_left _ List.perm_append_comm
    · refine hinv.known.transfer fun c' hc' ↦ ⟨c', ?_, rfl, rfl, fun hnot ↦ ⟨hnot, rfl⟩⟩
      rw [htasks]
      simp only [Scheduler.tasks, Option.toList, List.append_nil] at hc'
      exact List.mem_append_left _ hc'
  | stop h hempty =>
    refine ⟨⟨hinv, hstarted⟩, ?_⟩
    change s.done.Perm (List.range s.added)
    have haccounted := hinv.accounted
    simpa [Scheduler.Accounted, Scheduler.tasks, h, hempty] using haccounted

end Steps

/-! ## The main result -/

theorem inv_init (clock : ℤ) : Inv (init clock) where
  heap := stdHeap_iff.mpr (Lib.isHeap_of_size_le_one (Nat.zero_le 1))
  accounted := by simp [Scheduler.Accounted, Scheduler.tasks, init]
  known := ⟨by simp [Scheduler.tasks, init], by simp [Scheduler.tasks, init],
    by simp [Scheduler.tasks, init]⟩

/-- **Every task is resumed when it is its turn**, if no other in the queue compares equal to it.
No task is lost, none is resumed after it is done, and `Run` returns when all are done and not
before. -/
theorem schedule_correct {clock : ℤ} {h : List (Scheduler × Label)} {s : Scheduler}
    (hrun : Trace Step (init clock) h s) (huntied : ∀ x ∈ h, Untied x.1 x.2) :
    (∀ x ∈ h, Correct x.1 x.2) ∧ s.Accounted ∧
      (s.resumed = none → ((∃ s', Step s .stop s') ↔ s.done.Perm (List.range s.added))) := by
  obtain ⟨⟨hinv, -⟩, hcorrect⟩ := hrun.forall_of_step (I := fun s ↦ Inv s ∧ Started s) huntied
    ⟨inv_init clock, by simp [Started, init]⟩ fun s l s' hI hstep hu ↦ hI.1.step hI.2 hstep hu
  refine ⟨hcorrect, hinv.accounted, fun hnone ↦ ⟨?_, fun hdone ↦ ?_⟩⟩
  · rintro ⟨s', hstep⟩
    cases hstep with
    | stop h hempty =>
      have haccounted := hinv.accounted
      simpa [Scheduler.Accounted, Scheduler.tasks, h, hempty] using haccounted
  · have hlength := hinv.accounted.length_eq.trans hdone.length_eq.symm
    refine ⟨s, .stop hnone ?_⟩
    rw [← Array.size_eq_zero_iff]
    simpa [Scheduler.tasks, hnone] using hlength

/-- Two tasks are added, one after the other, and the first waits for a time point that the second
has already waited for. -/
theorem schedule_correct_two : ∃ (h : List (Scheduler × Label)) (s : Scheduler),
    h.map Prod.snd = [.add 0, .add 1, .resume (.new 0 0), .suspend 0 5, .resume (.new 1 1),
      .finish 1, .resume ⟨0, true, 0, 5⟩, .finish 0, .stop] ∧ (∀ x ∈ h, Correct x.1 x.2) ∧
      s.Accounted ∧
      (s.resumed = none → ((∃ s', Step s .stop s') ↔ s.done.Perm (List.range s.added))) := by
  have h₁ : Step (init 0) (.add 0) ⟨#[.new 0 0], 0, 1, none, []⟩ :=
    .add 0 _ le_rfl ⟨.refl _, by decide⟩
  have h₂ : Step ⟨#[.new 0 0], 0, 1, none, []⟩ (.add 1) ⟨#[.new 0 0, .new 1 1], 1, 2, none, []⟩ :=
    .add 1 _ (by decide) ⟨.refl _, by decide⟩
  have h₃ : Step ⟨#[.new 0 0, .new 1 1], 1, 2, none, []⟩ (.resume (.new 0 0))
      ⟨#[.new 1 1], 1, 2, some ⟨0, true, 0, 0⟩, []⟩ :=
    .resume (.new 0 0) _ 1 rfl le_rfl ⟨rfl, Array.perm_iff_toList_perm.mpr (by decide), by decide⟩
      (by decide)
  have h₄ : Step ⟨#[.new 1 1], 1, 2, some ⟨0, true, 0, 0⟩, []⟩ (.suspend 0 5)
      ⟨#[.new 1 1, ⟨0, true, 0, 5⟩], 1, 2, none, []⟩ :=
    .suspend ⟨0, true, 0, 0⟩ 5 _ rfl ⟨.refl _, by decide⟩
  have h₅ : Step ⟨#[.new 1 1, ⟨0, true, 0, 5⟩], 1, 2, none, []⟩ (.resume (.new 1 1))
      ⟨#[⟨0, true, 0, 5⟩], 1, 2, some ⟨1, true, 1, 1⟩, []⟩ :=
    .resume (.new 1 1) _ 1 rfl le_rfl ⟨rfl, Array.perm_iff_toList_perm.mpr (by decide), by decide⟩
      (by decide)
  have h₆ : Step ⟨#[⟨0, true, 0, 5⟩], 1, 2, some ⟨1, true, 1, 1⟩, []⟩ (.finish 1)
      ⟨#[⟨0, true, 0, 5⟩], 1, 2, none, [1]⟩ := .finish ⟨1, true, 1, 1⟩ rfl
  have h₇ : Step ⟨#[⟨0, true, 0, 5⟩], 1, 2, none, [1]⟩ (.resume ⟨0, true, 0, 5⟩)
      ⟨#[], 5, 2, some ⟨0, true, 0, 5⟩, [1]⟩ :=
    .resume ⟨0, true, 0, 5⟩ _ 5 rfl (by decide) ⟨rfl, .refl _, by decide⟩ (by decide)
  have h₈ : Step ⟨#[], 5, 2, some ⟨0, true, 0, 5⟩, [1]⟩ (.finish 0) ⟨#[], 5, 2, none, [1, 0]⟩ :=
    .finish ⟨0, true, 0, 5⟩ rfl
  have hrun := (.nil : Trace Step (init 0) [] _) |>.snoc h₁ |>.snoc h₂ |>.snoc h₃ |>.snoc h₄
      |>.snoc h₅
    |>.snoc h₆ |>.snoc h₇ |>.snoc h₈ |>.snoc (.stop rfl rfl)
  refine ⟨_, _, rfl, schedule_correct hrun ?_⟩
  simp [Untied, Task.compare, Task.new]

/-- Four tasks are added at one reading of the clock.  When the first has been taken out, the third
is put in front of the second, which is a heap as well. -/
theorem not_first_four_at_once : ∃ (h : List (Scheduler × Label)) (s : Scheduler),
    Trace Step (init 0) h s ∧ h.map Prod.snd = [.add 0, .add 1, .add 2, .add 3, .resume (.new 0 0),
      .finish 0, .resume (.new 2 0)] ∧ ¬ ∀ x ∈ h, Correct x.1 x.2 := by
  have h₁ : Step (init 0) (.add 0) ⟨#[.new 0 0], 0, 1, none, []⟩ :=
    .add 0 _ le_rfl ⟨.refl _, by decide⟩
  have h₂ : Step ⟨#[.new 0 0], 0, 1, none, []⟩ (.add 1) ⟨#[.new 0 0, .new 1 0], 0, 2, none, []⟩ :=
    .add 0 _ le_rfl ⟨.refl _, by decide⟩
  have h₃ : Step ⟨#[.new 0 0, .new 1 0], 0, 2, none, []⟩ (.add 2)
      ⟨#[.new 0 0, .new 1 0, .new 2 0], 0, 3, none, []⟩ :=
    .add 0 _ le_rfl ⟨.refl _, by decide⟩
  have h₄ : Step ⟨#[.new 0 0, .new 1 0, .new 2 0], 0, 3, none, []⟩ (.add 3)
      ⟨#[.new 0 0, .new 1 0, .new 2 0, .new 3 0], 0, 4, none, []⟩ :=
    .add 0 _ le_rfl ⟨.refl _, by decide⟩
  have h₅ : Step ⟨#[.new 0 0, .new 1 0, .new 2 0, .new 3 0], 0, 4, none, []⟩ (.resume (.new 0 0))
      ⟨#[.new 2 0, .new 1 0, .new 3 0], 0, 4, some ⟨0, true, 0, 0⟩, []⟩ :=
    .resume (.new 0 0) _ 0 rfl le_rfl ⟨rfl, Array.perm_iff_toList_perm.mpr (by decide), by decide⟩
      (by decide)
  have h₆ : Step ⟨#[.new 2 0, .new 1 0, .new 3 0], 0, 4, some ⟨0, true, 0, 0⟩, []⟩ (.finish 0)
      ⟨#[.new 2 0, .new 1 0, .new 3 0], 0, 4, none, [0]⟩ := .finish ⟨0, true, 0, 0⟩ rfl
  have h₇ : Step ⟨#[.new 2 0, .new 1 0, .new 3 0], 0, 4, none, [0]⟩ (.resume (.new 2 0))
      ⟨#[.new 3 0, .new 1 0], 0, 4, some ⟨2, true, 0, 0⟩, [0]⟩ :=
    .resume (.new 2 0) _ 0 rfl le_rfl ⟨rfl, Array.perm_iff_toList_perm.mpr (by decide), by decide⟩
      (by decide)
  have hrun := (.nil : Trace Step (init 0) [] _) |>.snoc h₁ |>.snoc h₂ |>.snoc h₃ |>.snoc h₄
      |>.snoc h₅
    |>.snoc h₆ |>.snoc h₇
  refine ⟨_, _, hrun, rfl, fun hcorrect ↦ ?_⟩
  obtain ⟨-, hfirst, -⟩ := hcorrect _ (List.mem_append_right _ List.mem_cons_self)
  rcases hfirst with ⟨-, hfirst⟩ | ⟨hall, -⟩
  · exact absurd (hfirst (.new 1 0) (by simp) rfl) (by decide)
  · exact absurd (hall (.new 1 0) (by simp)) (by decide)

end Coroutine
end ManyTasks
