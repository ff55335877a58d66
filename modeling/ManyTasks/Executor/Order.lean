import ManyTasks.Executor.Lock
import ManyTasks.Executor.Section
import ManyTasks.Executor.Schedule

/-!
# The order of the locks

`OnFinished` holds the mutex of a task while it enqueues, or cancels, what depends on it; so mutexes
of tasks are locked in the order of the dependencies, which has no circle.  `Close` holds the mutex
of a queue while it locks those of tasks.  The other way round, `Push` locks the mutex of the queue
while `OnFinished` holds that of a task, and this is a circle waiting to happen (`deadlocked`).

It happens only if `Push` has found the queue open and `Close` locks it first: as long as no thread
waits in `Push` with a mutex in its hands while `Close` is in its critical section
(`PushBeforeClose`), no threads wait for each other in a circle (`no_deadlock`).
-/

set_option autoImplicit false

namespace ManyTasks
namespace Executor

variable {Θ T V E : Type}

/-! ## What is inside the scope of a lock -/

/-- `t` was made to wait for `d`, by `AddDependency` or `AddTrigger`. -/
def DependsOn (h : List (State Θ T V E × Label T)) (d t : T) : Prop :=
  ∃ x ∈ h, x.2 = .called (.addDependency t d) ∨ x.2 = .called (.addTrigger t d)

/-- What can be done in the scope of a lock on `d`, when `lt` are the dependencies: only what
concerns tasks that depend on `d`, and the critical section of `Push`. -/
def Instr.Inside (lt : T → T → Prop) (d : T) : Instr T V E → Prop
  | .testSubmitted _ t | .testTriggers _ t | .testDependencies _ t | .testQueue _ t
  | .casEnqueued _ t | .clearLists t | .testClosed .tasks t | .lockPush .tasks t
  | .emplace .tasks t | .store t _ | .onFinished t | .finishDepended t | .finishTriggered t
  | .unlockTask t => Relation.TransGen lt d t
  | .notifyOne .tasks | .unlockQueue .tasks => True
  | _ => False

/-- Whatever is above an instruction in the scope of a lock is inside it. -/
def Nested [DecidableEq T] (lt : T → T → Prop) (i : Instr T V E) (l : List (Instr T V E)) : Prop :=
  ∀ j ∈ l, ∀ d, j.holds d = 1 → i.Inside lt d

/-- What can be done in the scope of a lock on a queue. -/
def Instr.inSection : Instr T V E → Bool
  | .testSubmitted _ _ | .testTriggers _ _ | .testDependencies _ _ | .testQueue _ _
  | .casEnqueued _ _ | .clearLists _ | .testClosed .tasks _ | .lockPush .tasks _
  | .store _ _ | .onFinished _ | .finishDepended _ | .finishTriggered _ | .unlockTask _
  | .emplace _ _ | .notifyOne _ | .notifyAll _ | .cancelAll _ | .unlockQueue .tasks => true
  | _ => false

/-- The instructions from which nothing follows. -/
def Instr.isLast : Instr T V E → Bool
  | .emplace _ _ | .notifyOne _ | .notifyAll _ | .unlockQueue _ => true
  | _ => false

/-- The instructions of `Push` and `Pop` that are on top of the stack, if they are on it. -/
def Instr.isTop : Instr T V E → Bool
  | .lockPush _ _ | .testPop _ | .testDeadline => true
  | _ => false

/-- Whatever is above an instruction in the scope of a lock on a queue is inside it, and `Close`
does everything there but the last instructions. -/
@[mk_iff]
structure Sections (i : Instr T V E) (l : List (Instr T V E)) : Prop where
  top : ∀ j ∈ l, j.isTop = false
  inside : ∀ q, .unlockQueue q ∈ l → i.inSection = true
  close : i.isLast = false → .unlockQueue .tasks ∈ l → .notifyAll .tasks ∈ l

section

variable {m : Mem Θ T V E} {i : Instr T V E} {next : List (Instr T V E)} {l : Label T}
  {tasks : List T}

theorem sections_nil (i : Instr T V E) : Sections i [] where
  top _ hj := absurd hj List.not_mem_nil
  inside _ hq := absurd hq List.not_mem_nil
  close _ hq := absurd hq List.not_mem_nil

/-- Nothing follows from the last instructions of a critical section. -/
theorem Flow.eq_nil_of_isLast (h : Flow m i next l tasks) (hi : i.isLast = true) : next = [] := by
  cases h with
  | quiet h => cases h <;> first | rfl | cases hi
  | _ => first | rfl | cases hi

/-- In the scope of a lock only what is inside it follows, if the tasks that `OnFinished` goes
through depend on the one that is finished. -/
theorem Flow.inside (h : Flow m i next l tasks) {lt : T → T → Prop} {d : T} (hi : i.Inside lt d)
    (hfin : ∀ t x, i = .finishDepended t ∨ i = .finishTriggered t →
      .testSubmitted (.finished t) x ∈ next → lt t x) :
    ∀ j ∈ next, j.Inside lt d := by
  cases h with
  | quiet h =>
    cases h with
    | finishDepended t x =>
      have hlt := hfin t x (.inl rfl) List.mem_cons_self
      simpa [Instr.Inside] using ⟨hi.tail hlt, hi⟩
    | finishTriggered t x =>
      have hlt := hfin t x (.inr rfl) List.mem_cons_self
      simpa [Instr.Inside] using ⟨hi.tail hlt, hi⟩
    | testClosed q t => cases q <;> simp_all [Instr.Inside]
    | pushClosed q t => cases q <;> simp_all [Instr.Inside]
    | lockPush q t => cases q <;> simp_all [Instr.Inside]
    | cancelAll q ts => exact hi.elim
    | lockClose q j hj => exact hi.elim
    | _ => simp_all [Instr.Inside]
  | _ => simp_all [Instr.Inside]

variable [DecidableEq T]

theorem nested_nil (lt : T → T → Prop) (i : Instr T V E) : Nested lt i [] :=
  fun _ hj ↦ absurd hj List.not_mem_nil

/-- The scope of a lock begins with the instruction that locks. -/
theorem Flow.nested (h : Flow m i next l tasks) {lt : T → T → Prop}
    (hfin : ∀ t x, i = .finishDepended t ∨ i = .finishTriggered t →
      .testSubmitted (.finished t) x ∈ next → lt t x) :
    Lib.Each (Nested lt) next := by
  cases h with
  | quiet h =>
    cases h with
    | finishDepended t x =>
      have hlt := hfin t x (.inl rfl) List.mem_cons_self
      simpa [Lib.Each, Nested, Instr.holds, Instr.Inside] using .single hlt
    | finishTriggered t x =>
      have hlt := hfin t x (.inr rfl) List.mem_cons_self
      simpa [Lib.Each, Nested, Instr.holds, Instr.Inside] using .single hlt
    | cancelAll q ts =>
      refine Lib.each_of_forall fun i hi l' hl' j hj d hholds ↦ ?_
      obtain ⟨t, -, rfl⟩ := List.mem_map.mp (hl' hj)
      cases hholds
    | lockClose q j hj => rcases hj with rfl | rfl <;> simp [Lib.Each, Nested, Instr.holds]
    | _ => first | exact ⟨nested_nil lt _, trivial⟩ | simp [Lib.Each, Nested, Instr.holds]
  | _ => first | exact ⟨nested_nil lt _, trivial⟩ | simp [Lib.Each, Nested, Instr.holds]

theorem Flow.nested_append (h : Flow m i next l tasks) {lt : T → T → Prop}
    (hfin : ∀ t x, i = .finishDepended t ∨ i = .finishTriggered t →
      .testSubmitted (.finished t) x ∈ next → lt t x)
    {rest : List (Instr T V E)} (hi : Nested lt i rest) :
    Lib.Each (fun j l ↦ Nested lt j (l ++ rest)) next := by
  have hrest : Lib.Each (fun j _ ↦ Nested lt j rest) next :=
    Lib.each_of_forall fun j hj _ _ k hk d hholds ↦ h.inside (hi k hk d hholds) hfin j hj
  refine ((h.nested hfin).and hrest).imp fun j l ⟨hl, hr⟩ k hk d hholds ↦ ?_
  rcases List.mem_append.mp hk with hk | hk
  · exact hl k hk d hholds
  · exact hr k hk d hholds

omit [DecidableEq T] in
theorem Flow.inSection (h : Flow m i next l tasks) (hi : i.inSection = true) :
    ∀ j ∈ next, j.inSection = true := by
  cases h with
  | quiet h =>
    cases h with
    | testClosed q t => cases q <;> simp_all [Instr.inSection]
    | pushClosed q t => cases q <;> simp_all [Instr.inSection]
    | lockPush q t => cases q <;> simp_all [Instr.inSection]
    | lockClose q j hj => cases hi
    | _ => simp_all [Instr.inSection]
  | _ => simp_all [Instr.inSection]

omit [DecidableEq T] in
theorem Flow.sections (h : Flow m i next l tasks)
    (hclose : i = .lockClose .tasks →
      next = [.cancelAll .tasks, .notifyAll .tasks, .unlockQueue .tasks]) :
    Lib.Each Sections next := by
  cases h with
  | quiet h =>
    cases h with
    | cancelAll q ts =>
      refine Lib.each_of_forall fun j hj l' hl' ↦ ?_
      have hstore (k : Instr T V E) (hk : k ∈ l') : ∃ t, k = .store t .Canceled := by
        obtain ⟨t, -, rfl⟩ := List.mem_map.mp (hl' hk)
        exact ⟨t, rfl⟩
      refine ⟨fun k hk ↦ ?_, fun q hq ↦ ?_, fun _ hq ↦ ?_⟩
      · obtain ⟨t, rfl⟩ := hstore k hk
        rfl
      · obtain ⟨t, ht⟩ := hstore _ hq
        cases ht
      · obtain ⟨t, ht⟩ := hstore _ hq
        cases ht
    | lockClose q k hk =>
      cases q with
      | tasks =>
        rw [hclose rfl]
        simp [Lib.Each, sections_iff, Instr.isTop, Instr.inSection, Instr.isLast]
      | timer =>
        rcases hk with rfl | rfl <;>
          simp [Lib.Each, sections_iff, Instr.isTop, Instr.inSection, Instr.isLast]
    | _ =>
      first
      | exact ⟨sections_nil _, trivial⟩
      | simp [Lib.Each, sections_iff, Instr.isTop, Instr.inSection, Instr.isLast]
  | _ => first | exact ⟨sections_nil _, trivial⟩ | simp [Lib.Each, sections_iff, Instr.isTop]

omit [DecidableEq T] in
theorem Flow.sections_append (h : Flow m i next l tasks)
    (hclose : i = .lockClose .tasks →
      next = [.cancelAll .tasks, .notifyAll .tasks, .unlockQueue .tasks])
    {rest : List (Instr T V E)} (hi : Sections i rest) :
    Lib.Each (fun j l ↦ Sections j (l ++ rest)) next := by
  have hrest : Lib.Each (fun j _ ↦ Sections j rest) next := by
    refine Lib.each_of_forall fun j hj _ _ ↦ ⟨hi.top, fun q hq ↦ ?_, fun _ hq ↦ ?_⟩
    · exact h.inSection (hi.inside q hq) j hj
    · refine hi.close (Bool.eq_false_of_not_eq_true fun hlast ↦ ?_) hq
      rw [h.eq_nil_of_isLast hlast] at hj
      cases hj
  refine ((h.sections hclose).and hrest).imp fun j l ⟨hl, hr⟩ ↦ ⟨fun k hk ↦ ?_, fun q hq ↦ ?_, ?_⟩
  · exact (List.mem_append.mp hk).elim (hl.top k) (hr.top k)
  · exact (List.mem_append.mp hq).elim (hl.inside q) (hr.inside q)
  · intro hlast hq
    rcases List.mem_append.mp hq with hq | hq
    · exact List.mem_append_left _ (hl.close hlast hq)
    · exact List.mem_append_right _ (hr.close hlast hq)

end

/-! ## The invariant -/

/-- The dependency that an instruction is about to register. -/
def Instr.adds : Instr T V E → Option (T × T)
  | .addDepended d t | .testDepended d t | .register d t => some (d, t)
  | .addTriggered d t | .testTriggered d t | .registerTrigger d t => some (d, t)
  | _ => none

theorem Flow.adds {m : Mem Θ T V E} {i : Instr T V E} {next : List (Instr T V E)} {l : Label T}
    {tasks : List T} (h : Flow m i next l tasks) :
    ∀ j ∈ next, ∀ p, j.adds = some p → i.adds = some p := by
  cases h with
  | quiet h =>
    cases h with
    | lockClose q k hk => rcases hk with rfl | rfl <;> simp [Instr.adds]
    | cancelAll q ts => simp [Instr.adds]
    | _ =>
      simp only [List.mem_cons, List.not_mem_nil, or_false, forall_eq_or_imp, forall_eq,
        Instr.adds, reduceCtorEq, false_implies, implies_true, and_self, imp_self]
  | _ => simp [Instr.adds]

/-- The thread holds a mutex. -/
def Holds (s : State Θ T V E) (θ : Θ) : Prop :=
  (∃ d, (s.mem.task d).edit_task_ = some θ) ∨ ∃ q, (s.mem.queue q).edit_queue_ = some θ

/-- The thread waits in `Push` for the mutex of the queue of the workers, with a mutex in its
hands. -/
def PushWaits (s : State Θ T V E) (θ : Θ) : Prop :=
  (∃ t rest, s.stack θ = .lockPush .tasks t :: rest) ∧ Holds s θ

/-- No thread waits in `Push` with a mutex in its hands while `Close` is in its critical section. -/
def PushBeforeClose (s : State Θ T V E) : Prop :=
  (∃ θ, PushWaits s θ) → ¬ s.Pending (.notifyAll .tasks)

variable [DecidableEq T] [DecidableEq Θ]

/-- Who holds what, and what the threads do meanwhile; `lt` are the dependencies. -/
structure Ordered (lt : T → T → Prop) (s : State Θ T V E) : Prop where
  locked : Locked s
  queueLocked : QueueLocked s
  nested : ∀ θ, Lib.Each (Nested lt) (s.stack θ)
  sections : ∀ θ, Lib.Each Sections (s.stack θ)
  depended : ∀ d, ∀ t ∈ (s.mem.task d).depended_, lt d t
  triggered : ∀ d, ∀ t ∈ (s.mem.task d).triggered_, lt d t
  adds : ∀ i, s.Pending i → ∀ d t, i.adds = some (d, t) → lt d t
  closed : s.Pending (.lockClose .tasks) ∨ s.Pending (.notifyAll .tasks) →
    (s.mem.queue .tasks).closed_ = true

theorem ordered_init [Inhabited V] (role : Θ → Role) (lt : T → T → Prop) :
    Ordered lt (init role : State Θ T V E) := by
  have hmem (θ : Θ) (i : Instr T V E) (hi : i ∈ (init role : State Θ T V E).stack θ) :
      i = .lockPop .tasks ∨ i = .lockPop .timer := by
    dsimp only [init] at hi
    cases hrole : role θ <;> simp [hrole] at hi <;> simp [hi]
  refine ⟨locked_init role, queueLocked_init role, fun θ ↦ ?_, fun θ ↦ ?_, (fun _ _ h ↦ nomatch h),
    (fun _ _ h ↦ nomatch h), ?_, ?_⟩
  · dsimp only [init]
    cases role θ <;> simp [Lib.Each, Nested]
  · dsimp only [init]
    cases role θ <;> simp [Lib.Each, sections_iff]
  · rintro i ⟨θ, hi⟩ d t hadds
    rcases hmem θ i hi with rfl | rfl <;> cases hadds
  · rintro (⟨θ, hi⟩ | ⟨θ, hi⟩) <;> rcases hmem θ _ hi with h | h <;> cases h

section

variable {s : State Θ T V E} {θ : Θ} {i : Instr T V E} {rest : List (Instr T V E)}
  {c : Choice Θ T V E} {lt : T → T → Prop}

omit [DecidableEq Θ] in
theorem Nested.mono {lt' : T → T → Prop} (hlt : ∀ d t, lt d t → lt' d t)
    {l : List (Instr T V E)} (h : Nested lt i l) : Nested lt' i l := by
  intro j hj d hholds
  have hi := h j hj d hholds
  have htrans {t : T} (ht : Relation.TransGen lt d t) : Relation.TransGen lt' d t :=
    Relation.TransGen.mono hlt _ _ ht
  cases i with
  | testClosed q t => cases q with
    | tasks => exact htrans hi
    | timer => exact hi
  | lockPush q t => cases q with
    | tasks => exact htrans hi
    | timer => exact hi
  | emplace q t => cases q with
    | tasks => exact htrans hi
    | timer => exact hi
  | notifyOne q => cases q <;> exact hi
  | unlockQueue q => cases q <;> exact hi
  | _ => first | exact htrans hi | exact hi

theorem Ordered.mono {lt' : T → T → Prop} (hlt : ∀ d t, lt d t → lt' d t) (h : Ordered lt s) :
    Ordered lt' s :=
  ⟨h.locked, h.queueLocked, fun θ ↦ (h.nested θ).imp fun _ _ ↦ Nested.mono hlt, h.sections,
    fun d t ht ↦ hlt d t (h.depended d t ht), fun d t ht ↦ hlt d t (h.triggered d t ht),
    fun i hi d t hadds ↦ hlt d t (h.adds i hi d t hadds), h.closed⟩

/-- `OnFinished` goes through tasks that depend on the one that is finished. -/
theorem Ordered.finishes (h : Ordered lt s) (t x : T)
    (hi : i = .finishDepended t ∨ i = .finishTriggered t)
    (hx : .testSubmitted (.finished t) x ∈ (exec θ s.mem c i).next) : lt t x := by
  rcases hi with rfl | rfl
  · dsimp only [exec] at hx
    split at hx
    · simp [go] at hx
    · rename_i y ys heq
      simp only [go, List.mem_cons, Instr.testSubmitted.injEq, true_and, reduceCtorEq, or_false,
        List.not_mem_nil] at hx
      subst hx
      exact h.depended t x (by rw [heq]; exact List.mem_cons_self)
  · dsimp only [exec] at hx
    split at hx
    · simp [go] at hx
    · rename_i y ys heq
      simp only [go, List.mem_cons, Instr.testSubmitted.injEq, true_and, reduceCtorEq, or_false,
        List.not_mem_nil] at hx
      subst hx
      exact h.triggered t x (by rw [heq]; exact List.mem_cons_self)

omit [DecidableEq T] [DecidableEq Θ] in
theorem Flow.lockClose_of_mem {m : Mem Θ T V E} {next : List (Instr T V E)} {l : Label T}
    {tasks : List T} (h : Flow m i next l tasks) (hj : .notifyAll .tasks ∈ next) :
    i = .lockClose .tasks := by
  cases h with
  | quiet h =>
    cases h with
    | lockClose q k hk => rcases hk with rfl | rfl <;> simp_all
    | _ => simp at hj
  | _ => simp at hj

omit [DecidableEq T] [DecidableEq Θ] in
theorem Flow.setClosed_of_mem {m : Mem Θ T V E} {next : List (Instr T V E)} {l : Label T}
    {tasks : List T} (h : Flow m i next l tasks) (hj : .lockClose .tasks ∈ next) :
    i = .setClosed .tasks := by
  cases h with
  | quiet h =>
    cases h with
    | lockClose q k hk => rcases hk with rfl | rfl <;> simp at hj
    | _ => simp_all
  | _ => simp at hj

omit [DecidableEq T] [DecidableEq Θ] in
theorem Flow.testClosed_of_mem {m : Mem Θ T V E} {next : List (Instr T V E)} {l : Label T}
    {tasks : List T} {t : T} (h : Flow m i next l tasks) (hj : .lockPush .tasks t ∈ next) :
    i = .testClosed .tasks t := by
  cases h with
  | quiet h =>
    cases h with
    | lockClose q k hk => rcases hk with rfl | rfl <;> simp at hj
    | _ => simp_all
  | _ => simp at hj

theorem Ordered.exec (h : Ordered lt s) (hs : s.stack θ = i :: rest)
    (henabled : (exec θ s.mem c i).enabled = true) :
    Ordered lt (s.after θ rest (exec θ s.mem c i)) := by
  have hflow := exec_flow θ s.mem c i
  have hchange := exec_taskChange θ s.mem c i
  have hadds := h.adds i (Lib.Config.pending_top hs)
  have hstep : Step (fun _ ↦ .user) s _ (s.after θ rest (Executor.exec θ s.mem c i)) :=
    .exec c hs henabled
  refine ⟨h.locked.exec hs henabled, h.queueLocked.step hstep, ?_, ?_, fun d t ht ↦ ?_,
    fun d t ht ↦ ?_, fun j hj d t hp ↦ ?_, fun hpend ↦ ?_⟩
  · exact Lib.Config.each_after h.nested hs (hflow.nested_append h.finishes)
  · refine Lib.Config.each_after h.sections hs (hflow.sections_append ?_)
    rintro rfl
    rfl
  · rcases hchange.depended_eq d with heq | ⟨x, rfl, heq⟩ | ⟨-, x, heq⟩
    · exact h.depended d t (by rw [← heq]; exact ht)
    · rw [Lib.Config.mem_after, heq, List.mem_append, List.mem_singleton] at ht
      rcases ht with ht | rfl
      · exact h.depended d t ht
      · exact hadds d t rfl
    · exact h.depended d t (by rw [heq]; exact List.mem_cons_of_mem x ht)
  · rcases hchange.triggered_eq d with heq | ⟨x, rfl, heq⟩ | ⟨-, x, heq, -⟩
    · exact h.triggered d t (by rw [← heq]; exact ht)
    · rw [Lib.Config.mem_after, heq, List.mem_append, List.mem_singleton] at ht
      rcases ht with ht | rfl
      · exact h.triggered d t ht
      · exact hadds d t rfl
    · exact h.triggered d t (by rw [heq]; exact List.mem_cons_of_mem x ht)
  · rcases Lib.Config.pending_after hs hj with hnext | hold
    · exact hadds d t (hflow.adds j hnext (d, t) hp)
    · exact h.adds j hold d t hp
  · have hkeep (hq : (s.mem.queue .tasks).closed_ = true) :
        ((Executor.exec θ s.mem c i).mem.queue .tasks).closed_ = true :=
      (exec_queueChange θ s.mem c i).closed hq
    rcases hpend with hpend | hpend
    · rcases Lib.Config.pending_after hs hpend with hnext | hold
      · -- `Close` has just set the flag
        obtain rfl := hflow.setClosed_of_mem hnext
        by_cases hq : (s.mem.queue .tasks).closed_ = true
        · exact hkeep hq
        · simp [Executor.exec, hq, go]
      · exact hkeep (h.closed (.inl hold))
    · rcases Lib.Config.pending_after hs hpend with hnext | hold
      · obtain rfl := hflow.lockClose_of_mem hnext
        exact hkeep (h.closed (.inl (Lib.Config.pending_top hs)))
      · exact hkeep (h.closed (.inr hold))

omit [DecidableEq Θ] in
/-- A thread that calls holds nothing: a user thread in no call, or a worker in the body of a
task. -/
theorem Call.nested_code (call : Call T) {l : List (Instr T V E)}
    (hfree : ∀ j ∈ l, ∀ d, j.holds d ≠ 1) :
    Lib.Each (fun j l' ↦ Nested lt j (l' ++ l)) (call.code ++ [.returned call]) := by
  have hcode : ∀ k ∈ (call.code ++ [.returned call] : List (Instr T V E)), ∀ d,
      k.holds d ≠ 1 := by
    cases call <;> simp [Call.code, Instr.holds]
  refine Lib.each_of_forall fun j _ l' hl' k hk d hholds ↦ ?_
  rcases List.mem_append.mp hk with hk | hk
  · exact absurd hholds (hcode k (hl' hk) d)
  · exact absurd hholds (hfree k hk d)

omit [DecidableEq T] in
theorem Call.sections_code (call : Call T) {l : List (Instr T V E)}
    (htop : ∀ j ∈ l, j.isTop = false) (hfree : ∀ q, .unlockQueue q ∉ l) :
    Lib.Each (fun j l' ↦ Sections j (l' ++ l)) (call.code ++ [.returned call]) := by
  cases call <;> simp_all [Lib.Each, Call.code, sections_iff, Instr.isTop, or_imp]

omit [DecidableEq T] [DecidableEq Θ] in
theorem Call.adds_code (call : Call T) :
    ∀ j ∈ (call.code ++ [.returned call] : List (Instr T V E)), ∀ d t, j.adds = some (d, t) →
      call = .addDependency t d ∨ call = .addTrigger t d := by
  cases call <;> simp +contextual [Call.code, Instr.adds]

/-- Below the body of a task there is only the loop of a worker. -/
theorem Ordered.free_of_canCall (h : Ordered lt s) {role : Θ → Role} (hcan : CanCall role s θ) :
    (∀ j ∈ s.stack θ, ∀ d, j.holds d ≠ 1) ∧ (∀ j ∈ s.stack θ, j.isTop = false) ∧
      ∀ q, .unlockQueue q ∉ s.stack θ := by
  rcases hcan with ⟨-, hs⟩ | ⟨t, rest, hs⟩
  · rw [hs]
    exact ⟨(fun _ h ↦ nomatch h), (fun _ h ↦ nomatch h), fun _ h ↦ nomatch h⟩
  · have hnested := h.nested θ
    have hsections := h.sections θ
    rw [hs] at hnested hsections ⊢
    refine ⟨fun j hj d hholds ↦ ?_, fun j hj ↦ ?_, fun q hq ↦ ?_⟩
    · rcases List.mem_cons.mp hj with rfl | hj
      · cases hholds
      · exact hnested.1 j hj d hholds
    · rcases List.mem_cons.mp hj with rfl | hj
      · rfl
      · exact hsections.1.top j hj
    · rcases List.mem_cons.mp hq with hq | hq
      · cases hq
      · exact Bool.false_ne_true (hsections.1.inside q hq)

theorem Ordered.call (h : Ordered lt s) {role : Θ → Role} {call : Call T}
    (hcan : CanCall role s θ) (hallowed : Allowed s call)
    (hlt : ∀ d t, call = .addDependency t d ∨ call = .addTrigger t d → lt d t) :
    Ordered lt (s.after θ (s.stack θ)
      ⟨true, s.mem.call call, call.code ++ [.returned call], Label.called call⟩) := by
  have hqueue : (s.mem.call call).queue = s.mem.queue := by cases call <;> rfl
  have htask : (s.mem.call call).task = s.mem.task := by cases call <;> rfl
  obtain ⟨hholds, htop, hunlock⟩ := h.free_of_canCall hcan
  refine ⟨h.locked.call, h.queueLocked.step (.call call hcan hallowed), ?_, ?_, fun d t ht ↦ ?_,
    fun d t ht ↦ ?_, fun j hj d t hp ↦ ?_, fun hpend ↦ ?_⟩
  · exact Lib.Config.each_push h.nested (call.nested_code hholds)
  · exact Lib.Config.each_push h.sections (call.sections_code htop hunlock)
  · rw [Lib.Config.mem_after, htask] at ht
    exact h.depended d t ht
  · rw [Lib.Config.mem_after, htask] at ht
    exact h.triggered d t ht
  · rcases Lib.Config.pending_push.mp hj with hcode | hold
    · exact hlt d t (call.adds_code j hcode d t hp)
    · exact h.adds j hold d t hp
  · rw [Lib.Config.mem_after, hqueue]
    refine h.closed (hpend.imp (fun hp ↦ ?_) fun hp ↦ ?_)
    · refine (Lib.Config.pending_push.mp hp).resolve_left ?_
      cases call <;> simp [Call.code]
    · refine (Lib.Config.pending_push.mp hp).resolve_left ?_
      cases call <;> simp [Call.code]

omit [DecidableEq T] [DecidableEq Θ] in
theorem DependsOn.append {h : List (State Θ T V E × Label T)} {d t : T} (hdep : DependsOn h d t)
    (h' : List (State Θ T V E × Label T)) : DependsOn (h ++ h') d t := by
  obtain ⟨x, hx, hl⟩ := hdep
  exact ⟨x, List.mem_append_left _ hx, hl⟩

theorem ordered_step {h : List (State Θ T V E × Label T)} (hinv : Ordered (DependsOn h) s)
    {role : Θ → Role} {l : Label T} {s' : State Θ T V E} (hstep : Step role s l s') :
    Ordered (DependsOn (h ++ [(s, l)])) s' := by
  have hmore : Ordered (DependsOn (h ++ [(s, l)])) s := hinv.mono fun _ _ hdep ↦ hdep.append _
  cases hstep with
  | exec c hs henabled => exact hmore.exec hs henabled
  | call call hcan hallowed =>
    refine hmore.call hcan hallowed fun d t hcall ↦ ?_
    refine ⟨_, List.mem_append_right _ List.mem_cons_self, ?_⟩
    rcases hcall with rfl | rfl
    · exact .inl rfl
    · exact .inr rfl
  | tick d =>
    exact ⟨hmore.locked, hmore.queueLocked, hmore.nested, hmore.sections, hmore.depended,
      hmore.triggered, hmore.adds, hmore.closed⟩

/-! ## `Push` and `Close` -/

/-- A mutex is taken by the thread that locks it. -/
theorem Holds.of_exec {θ' : Θ} (hθ : θ' ≠ θ)
    (henabled : (exec θ s.mem c i).enabled = true)
    (h : Holds (s.after θ rest (exec θ s.mem c i)) θ') : Holds s θ' := by
  rcases h with ⟨d, hd⟩ | ⟨q, hq⟩
  · rcases (exec_taskChange θ s.mem c i).edit_eq d with ⟨-, heq⟩ | ⟨-, heq⟩ | ⟨-, -, heq⟩
    · exact absurd (Option.some.inj (heq.symm.trans hd)).symm hθ
    · exact nomatch heq.symm.trans hd
    · exact .inl ⟨d, heq.symm.trans hd⟩
  · rcases (exec_headChange θ s.mem c i henabled).edit_eq q with
      ⟨-, heq, -, -⟩ | ⟨heq, -, -⟩ | ⟨heq, -⟩
    · exact absurd (Option.some.inj (heq.symm.trans hq)).symm hθ
    · exact nomatch heq.symm.trans hq
    · exact .inr ⟨q, heq.symm.trans hq⟩

/-- If a thread waits in `Push` with a mutex in its hands while another is in the critical section
of `Close`, then `Close` has only just locked the queue. -/
def JustClosed (s : State Θ T V E) : Prop :=
  ∀ θ θ', PushWaits s θ → .notifyAll .tasks ∈ s.stack θ' →
    ∃ rest, s.stack θ' = .cancelAll .tasks :: rest

theorem justClosed_exec (h : Ordered lt s) (hcond : PushBeforeClose s)
    (hs : s.stack θ = i :: rest) (henabled : (exec θ s.mem c i).enabled = true) :
    JustClosed (s.after θ rest (exec θ s.mem c i)) := by
  rintro θ₁ θ₂ ⟨⟨t, rest₁, hpush⟩, hholds⟩ hnotify
  rcases Lib.Config.mem_stack_after hs hnotify with ⟨rfl, hnext⟩ | hold
  · obtain rfl := (exec_flow θ₂ s.mem c i).lockClose_of_mem hnext
    exact ⟨_, Lib.Config.stack_after_self⟩
  · exfalso
    have hclosed := h.closed (.inr ⟨θ₂, hold⟩)
    by_cases hθ : θ₁ = θ
    · -- it has not come to `Push` in this step, since it would have found the queue closed
      subst hθ
      have hsections := h.sections θ₁
      rw [hs] at hsections
      rw [Lib.Config.stack_after_self] at hpush
      rcases List.append_eq_cons_iff.mp hpush with ⟨-, hrest⟩ | ⟨next, hnext, -⟩
      · have htop := hsections.1.top (.lockPush .tasks t) (by rw [hrest]; exact List.mem_cons_self)
        cases htop
      · have hi : i = .testClosed .tasks t :=
          (exec_flow θ₁ s.mem c i).testClosed_of_mem (by rw [hnext]; exact List.mem_cons_self)
        subst hi
        simp [exec, hclosed, go] at hnext
    · rw [Lib.Config.stack_after_of_ne hθ] at hpush
      exact hcond ⟨θ₁, ⟨t, rest₁, hpush⟩, hholds.of_exec hθ henabled⟩ ⟨θ₂, hold⟩

theorem justClosed_step (h : Ordered lt s) (hcond : PushBeforeClose s) {role : Θ → Role}
    {l : Label T} {s' : State Θ T V E} (hstep : Step role s l s') : JustClosed s' := by
  cases hstep with
  | exec c hs henabled => exact justClosed_exec h hcond hs henabled
  | @call θ call hcan hallowed =>
    have hqueue : (s.mem.call call).queue = s.mem.queue := by cases call <;> rfl
    have htask : (s.mem.call call).task = s.mem.task := by cases call <;> rfl
    rintro θ₁ θ₂ ⟨⟨t, rest₁, hpush⟩, hholds⟩ hnotify
    exfalso
    rw [Holds, Lib.Config.mem_after, hqueue, htask] at hholds
    have hpend : s.Pending (.notifyAll .tasks) := by
      refine (Lib.Config.pending_push.mp ⟨θ₂, hnotify⟩).resolve_left ?_
      cases call <;> simp [Call.code]
    by_cases hθ : θ₁ = θ
    · subst hθ
      rw [Lib.Config.stack_after_self] at hpush
      cases call <;> simp [Call.code] at hpush
    · rw [Lib.Config.stack_after_of_ne hθ] at hpush
      exact hcond ⟨θ₁, ⟨t, rest₁, hpush⟩, hholds⟩ hpend
  | tick d =>
    rintro θ₁ θ₂ hwaits hnotify
    exact absurd ⟨θ₂, hnotify⟩ (hcond ⟨θ₁, hwaits⟩)

theorem ordered_of_trace [Inhabited V] {role : Θ → Role} {h : List (State Θ T V E × Label T)}
    (hrun : Lib.Trace (Step role) (init role) h s) (hcond : ∀ x ∈ h, PushBeforeClose x.1) :
    Ordered (DependsOn h) s ∧ JustClosed s := by
  induction hrun with
  | nil =>
    refine ⟨ordered_init role _, fun θ θ' ⟨⟨t, rest, hpush⟩, _⟩ ↦ ?_⟩
    dsimp only [init] at hpush
    cases hrole : role θ <;> simp [hrole] at hpush
  | @snoc h s s' l hrun hstep ih =>
    have hinv := (ih fun x hx ↦ hcond x (List.mem_append_left _ hx)).1
    have hlast := hcond (s, l) (List.mem_append_right _ List.mem_cons_self)
    exact ⟨ordered_step hinv hstep, justClosed_step hinv hlast hstep⟩

/-! ## The result -/

/-- The thread waits for a mutex that another thread holds. -/
def WaitsFor (s : State Θ T V E) (θ θ' : Θ) : Prop :=
  ∃ i rest, s.stack θ = i :: rest ∧
    ((∃ d, i.locks = some d ∧ (s.mem.task d).edit_task_ = some θ') ∨
      ∃ q, i.locksQueue = some q ∧ (s.mem.queue q).edit_queue_ = some θ')

/-- The task whose mutex the thread waits for. -/
def Wants (s : State Θ T V E) (θ : Θ) (d : T) : Prop :=
  ∃ i rest, s.stack θ = i :: rest ∧ i.locks = some d

omit [DecidableEq T] [DecidableEq Θ] in
theorem WaitsFor.holds {θ' : Θ} (h : WaitsFor s θ θ') : Holds s θ' := by
  obtain ⟨i, rest, -, ⟨d, -, hd⟩ | ⟨q, -, hq⟩⟩ := h
  · exact .inl ⟨d, hd⟩
  · exact .inr ⟨q, hq⟩

/-- Who holds the mutex of a task while he waits is in `OnFinished` of it, and waits for one that
depends on it. -/
theorem Ordered.inside_of_holds (h : Ordered lt s) (hs : s.stack θ = i :: rest)
    (hi : i.locks ≠ none ∨ i.locksQueue ≠ none) {d : T}
    (hd : (s.mem.task d).edit_task_ = some θ) : i.Inside lt d := by
  obtain ⟨j, hj, hholds⟩ := h.locked.exists_holds hd
  have hnested := h.nested θ
  rw [hs] at hj hnested
  rcases List.mem_cons.mp hj with rfl | hj
  · cases j <;> simp_all [Instr.locks, Instr.locksQueue, Instr.holds]
  · exact hnested.1 j hj d hholds

theorem Ordered.unlockQueue_mem (h : Ordered lt s) (hs : s.stack θ = i :: rest)
    (hi : i.locks ≠ none ∨ i.locksQueue ≠ none) {q : Which}
    (hq : (s.mem.queue q).edit_queue_ = some θ) : .unlockQueue q ∈ rest := by
  obtain ⟨j, hj, hholds⟩ := h.queueLocked.exists_holds hq
  have hsections := h.sections θ
  rw [hs] at hj hsections
  rcases List.mem_cons.mp hj with rfl | hj
  · cases j <;> simp_all [Instr.locks, Instr.locksQueue, Instr.holdsQueue]
  · have htop := hsections.1.top j hj
    cases j with
    | unlockQueue q' =>
      have hq' : q' = q := by
        by_contra hne
        rw [Instr.holdsQueue, if_neg hne] at hholds
        cases hholds
      rw [← hq']
      exact hj
    | testPop q' => cases htop
    | testDeadline => cases htop
    | _ => cases hholds

/-- In a circle nobody waits for the mutex of a queue. -/
theorem Ordered.exists_wants (h : Ordered lt s) (hjust : JustClosed s)
    (hcircle : Relation.TransGen (WaitsFor s) θ θ) : ∃ d, Wants s θ d := by
  obtain ⟨θ₁, hfirst, hback⟩ := Relation.TransGen.head'_iff.mp hcircle
  obtain ⟨θ₀, -, hlast⟩ := Relation.TransGen.tail'_iff.mp hcircle
  have hholds := hlast.holds
  obtain ⟨i, rest, hs, ⟨d, hi, -⟩ | ⟨q, hi, hq⟩⟩ := hfirst
  · exact ⟨d, i, rest, hs, hi⟩
  exfalso
  have hlocks : i.locks ≠ none ∨ i.locksQueue ≠ none := .inr (by rw [hi]; simp)
  -- with a mutex in its hands a thread waits for that of a queue only in `Push`
  have hpush : ∃ t, i = .lockPush .tasks t := by
    have hcases : (∃ d, i.Inside lt d) ∨ i.inSection = true := by
      rcases hholds with ⟨d, hd⟩ | ⟨q', hq'⟩
      · exact .inl ⟨d, h.inside_of_holds hs hlocks hd⟩
      · have hsections := h.sections θ
        rw [hs] at hsections
        exact .inr (hsections.1.inside q' (h.unlockQueue_mem hs hlocks hq'))
    cases i with
    | lockPush q' t =>
      cases q' with
      | tasks => exact ⟨t, rfl⟩
      | timer => rcases hcases with ⟨d, hd⟩ | hd <;> cases hd
    | lockPop q' => rcases hcases with ⟨d, hd⟩ | hd <;> cases hd
    | lockClose q' => rcases hcases with ⟨d, hd⟩ | hd <;> cases hd
    | lockTimer => rcases hcases with ⟨d, hd⟩ | hd <;> cases hd
    | _ => cases hi
  obtain ⟨t, rfl⟩ := hpush
  obtain rfl : Which.tasks = q := Option.some.inj hi
  -- the one who holds it waits too, so it is in `Close`
  have hnext : ∃ θ₂, WaitsFor s θ₁ θ₂ := by
    rcases Relation.ReflTransGen.cases_head hback with rfl | ⟨θ₂, h₂, -⟩
    · exact ⟨_, _, _, hs, .inr ⟨_, rfl, hq⟩⟩
    · exact ⟨θ₂, h₂⟩
  obtain ⟨θ₂, j, rest₁, hs₁, hj⟩ := hnext
  have hlocks₁ : j.locks ≠ none ∨ j.locksQueue ≠ none := by
    rcases hj with ⟨d, hd, -⟩ | ⟨q, hq, -⟩
    · exact .inl (by rw [hd]; simp)
    · exact .inr (by rw [hq]; simp)
  have hunlock := h.unlockQueue_mem hs₁ hlocks₁ hq
  have hsections := h.sections θ₁
  rw [hs₁] at hsections
  have hlast₁ : j.isLast = false := by
    cases j <;> simp_all [Instr.locks, Instr.locksQueue, Instr.isLast]
  have hnotify := hsections.1.close hlast₁ hunlock
  obtain ⟨rest₂, hs₂⟩ := hjust θ θ₁ ⟨⟨t, rest, hs⟩, hholds⟩
    (by rw [hs₁]; exact List.mem_cons_of_mem j hnotify)
  obtain ⟨rfl, -⟩ := List.cons.inj (hs₁.symm.trans hs₂)
  rcases hlocks₁ with hnone | hnone <;> exact hnone rfl

/-- The mutexes of tasks are locked in the order of the dependencies. -/
theorem Ordered.wants_lt (h : Ordered lt s) {θ' : Θ} {x y : T} (hwaits : WaitsFor s θ θ')
    (hx : Wants s θ x) (hy : Wants s θ' y) : Relation.TransGen lt x y := by
  obtain ⟨i, rest, hs, hi⟩ := hx
  obtain ⟨j, rest', hs', hj⟩ := hy
  have hedit : (s.mem.task x).edit_task_ = some θ' := by
    obtain ⟨k, rest₁, hk, ⟨d, hd, hedit⟩ | ⟨q, hq, -⟩⟩ := hwaits
    · obtain ⟨rfl, -⟩ := List.cons.inj (hs.symm.trans hk)
      rw [Option.some.inj (hi.symm.trans hd)]
      exact hedit
    · obtain ⟨rfl, -⟩ := List.cons.inj (hs.symm.trans hk)
      cases i <;> simp_all [Instr.locks, Instr.locksQueue]
  have hinside := h.inside_of_holds hs' (.inl (by rw [hj]; simp)) hedit
  cases j with
  | onFinished t =>
    rw [← Option.some.inj hj]
    exact hinside
  | addDepended d t => exact hinside.elim
  | addTriggered d t => exact hinside.elim
  | _ => cases hj

/-- **No deadlock, in runs where `Push` is not overtaken by `Close`.**  If dependencies and triggers
have no circle, and in no state of a run a thread waits in `Push` for the mutex of the queue of the
workers, with another mutex in its hands, while `Close` of this queue is in its critical section,
then no threads wait in a circle, each for a mutex that the next one holds. -/
theorem no_deadlock [Inhabited V] {role : Θ → Role} {h : List (State Θ T V E × Label T)}
    (hrun : Lib.Trace (Step role) (init role) h s)
    (hacyclic : ∀ t, ¬ Relation.TransGen (DependsOn h) t t)
    (hcond : ∀ x ∈ h, PushBeforeClose x.1) (θ : Θ) : ¬ Relation.TransGen (WaitsFor s) θ θ := by
  obtain ⟨hinv, hjust⟩ := ordered_of_trace hrun hcond
  exact Lib.no_circle_of_order hacyclic (fun _ ↦ hinv.exists_wants hjust)
    (fun _ _ _ _ ↦ hinv.wants_lt) θ

end

section

variable [Fintype Θ] [Fintype T] [DecidableEq V] [DecidableEq E]

instance (s : State Θ T V E) (θ : Θ) : Decidable (Holds s θ) :=
  decidable_of_iff ((∃ d, (s.mem.task d).edit_task_ = some θ) ∨
      (s.mem.queue .tasks).edit_queue_ = some θ ∨ (s.mem.queue .timer).edit_queue_ = some θ)
    (or_congr Iff.rfl ⟨fun h ↦ h.elim (fun h ↦ ⟨_, h⟩) fun h ↦ ⟨_, h⟩,
      fun ⟨q, h⟩ ↦ match q with | .tasks => .inl h | .timer => .inr h⟩)

instance (s : State Θ T V E) (θ : Θ) : Decidable (PushWaits s θ) :=
  decidable_of_iff ((∃ t, (s.stack θ).head? = some (.lockPush .tasks t)) ∧ Holds s θ)
    (and_congr (exists_congr fun _ ↦ List.head?_eq_some_iff) Iff.rfl)

instance (s : State Θ T V E) : Decidable (PushBeforeClose s) :=
  decidable_of_iff ((∃ θ, PushWaits s θ) → ¬ ∃ θ, .notifyAll .tasks ∈ s.stack θ) Iff.rfl

end

instance (h : List (State Θ T V E × Label T)) (d t : T) : Decidable (DependsOn h d t) :=
  inferInstanceAs (Decidable (∃ x ∈ h, _ ∨ _))

omit [DecidableEq T] [DecidableEq Θ] in
/-- Dependencies on smaller tasks have no circle. -/
theorem acyclic_of_lt [Preorder T] {h : List (State Θ T V E × Label T)}
    (hlt : ∀ d t, DependsOn h d t → d < t) (t : T) : ¬ Relation.TransGen (DependsOn h) t t := by
  intro hcircle
  have hpath (t' : T) (hto : Relation.TransGen (DependsOn h) t t') : t < t' := by
    induction hto with
    | single hdep => exact hlt _ _ hdep
    | tail _ hdep ih => exact ih.trans (hlt _ _ hdep)
  exact (hpath t hcircle).false

/-- Task `1` depends on task `0`, which is in the queue; a user cancels task `0`, so that
`OnFinished` of it comes to push task `1`. -/
def pushDependent : List (Action (Fin 3) (Fin 2) Unit Unit) :=
  [.call 0 (.addDependency 1 0)] ++ Action.steps 0 6 ++ [.call 0 (.submit 1)] ++ Action.steps 0 8 ++
    [.call 0 (.submit 0)] ++ Action.steps 0 15 ++ [.call 0 (.cancel 0)] ++ Action.steps 0 10

/-- `Push` locks the queue first, and `Close` waits for it. -/
theorem no_deadlock_push_first :
    ∃ (h : List (State (Fin 3) (Fin 2) Unit Unit × Label (Fin 2)))
      (s : State (Fin 3) (Fin 2) Unit Unit),
      Lib.Trace (Step twoUsers) (init twoUsers) h s ∧ DependsOn h 0 1 ∧ WaitsFor s 1 0 ∧
        ∀ θ, ¬ Relation.TransGen (WaitsFor s) θ θ := by
  obtain ⟨h, s, hrun, hp⟩ := exists_trace_of_play twoUsers
    (init twoUsers : State (Fin 3) (Fin 2) Unit Unit)
    (pushDependent ++ [.call 1 .startShutdown] ++ Action.steps 1 1 ++ Action.steps 0 1)
    (fun x ↦ (∀ d t, DependsOn x.1 d t → d < t) ∧ (∀ y ∈ x.1, PushBeforeClose y.1) ∧
      DependsOn x.1 0 1 ∧ (x.2.stack 1).head? = some (.lockClose .tasks) ∧
      (x.2.mem.queue .tasks).edit_queue_ = some 0)
    (by decide +kernel)
  obtain ⟨hlt, hcond, hdep, hhead, hedit⟩ := of_decide_eq_true hp
  obtain ⟨rest, hs⟩ := List.head?_eq_some_iff.mp hhead
  exact ⟨h, s, hrun, hdep, ⟨_, rest, hs, .inr ⟨.tasks, rfl, hedit⟩⟩,
    no_deadlock hrun (acyclic_of_lt hlt) hcond⟩

/-- `Close` locks the queue first: it waits for the mutex of task `0`, which is held by the thread
that waits in `Push` for the mutex of the queue. -/
theorem deadlocked :
    ∃ (h : List (State (Fin 3) (Fin 2) Unit Unit × Label (Fin 2)))
      (s : State (Fin 3) (Fin 2) Unit Unit),
      Lib.Trace (Step twoUsers) (init twoUsers) h s ∧
        (∀ t, ¬ Relation.TransGen (DependsOn h) t t) ∧ Relation.TransGen (WaitsFor s) 0 0 := by
  obtain ⟨h, s, hrun, hp⟩ := exists_trace_of_play twoUsers
    (init twoUsers : State (Fin 3) (Fin 2) Unit Unit)
    (pushDependent ++ [.call 1 .startShutdown] ++ Action.steps 1 4)
    (fun x ↦ (∀ d t, DependsOn x.1 d t → d < t) ∧
      (x.2.stack 0).head? = some (.lockPush .tasks 1) ∧
      (x.2.stack 1).head? = some (.onFinished 0) ∧
      (x.2.mem.queue .tasks).edit_queue_ = some 1 ∧ (x.2.mem.task 0).edit_task_ = some 0)
    (by decide +kernel)
  obtain ⟨hlt, hhead₀, hhead₁, hqueue, htask⟩ := of_decide_eq_true hp
  obtain ⟨rest₀, hs₀⟩ := List.head?_eq_some_iff.mp hhead₀
  obtain ⟨rest₁, hs₁⟩ := List.head?_eq_some_iff.mp hhead₁
  have hpush : WaitsFor s 0 1 := ⟨_, rest₀, hs₀, .inr ⟨.tasks, rfl, hqueue⟩⟩
  have hclose : WaitsFor s 1 0 := ⟨_, rest₁, hs₁, .inl ⟨0, rfl, htask⟩⟩
  exact ⟨h, s, hrun, acyclic_of_lt hlt, .tail (.single hpush) hclose⟩

end Executor
end ManyTasks
