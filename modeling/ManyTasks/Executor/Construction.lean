import ManyTasks.Executor.Combinators

/-!
# What the future of a combinator waits for

While `WhenAll` goes over the futures that were passed, these may be finishing on other threads.
Whatever the order, the future that it makes has been given all of them when it is submitted, and
nothing else (`Built`), so it is enqueued only when all are finished; that of `WhenFirst` only when
one of them is (`Func.Ready`).  This stays so while it is in the hands of a thread or in the queue,
and when its function runs (`InHands`).
-/

set_option autoImplicit false

namespace ManyTasks
namespace Executor

variable {Θ T V E : Type}

/-! ## Links -/

/-- `AddDependency` or `AddTrigger`. -/
inductive Kind where
  | dependency
  | trigger
deriving DecidableEq, Repr

def Func.kind : Func T → Kind
  | .whenAll _ => .dependency
  | .whenFirst _ => .trigger

/-- `dependencies_` or `triggers_`. -/
def Task.links (r : Task Θ T V E) : Kind → List T
  | .dependency => r.dependencies_
  | .trigger => r.triggers_

/-- What the call adds to what: to the first task the second. -/
def Instr.adding : Instr T V E → Option (Kind × T × T)
  | .addDepended d t | .testDepended d t | .register d t | .linkDependency t d =>
    some (.dependency, t, d)
  | .addTriggered d t | .testTriggered d t | .registerTrigger d t | .activate d t | .linkTrigger t
      d =>
    some (.trigger, t, d)
  | _ => none

/-- The last instruction of such a call. -/
def Kind.link : Kind → T → T → Instr T V E
  | .dependency, t, d => .linkDependency t d
  | .trigger, t, d => .linkTrigger t d

section

variable {m : Mem Θ T V E} {i : Instr T V E} {next : List (Instr T V E)} {l : Label T}
  {tasks : List T}

/-- What adds comes from what adds the same. -/
theorem Flow.adding_eq (h : Flow m i next l tasks) :
    ∀ j ∈ next, ∀ t, j.addsTo = some t → i.addsTo = some t ∧ i.adding = j.adding := by
  cases h with
  | quiet h =>
    cases h with
    | lockClose q k hk => rcases hk with rfl | rfl <;> simp [Instr.addsTo]
    | cancelAll q ts => simp [Instr.addsTo]
    | _ =>
      simp only [List.mem_cons, List.not_mem_nil, or_false, forall_eq_or_imp, forall_eq,
        Instr.addsTo, Instr.adding, reduceCtorEq, false_implies, implies_true, and_self, and_true,
        imp_self]
  | _ => simp [Instr.addsTo]

variable [DecidableEq Θ] [DecidableEq T]

/-- What is going to be added is so until it is. -/
theorem exists_adding_next {θ : Θ} {c : Choice Θ T V E} {k : Kind} {t d : T}
    (h : i.adding = some (k, t, d)) :
    (∃ j ∈ (exec θ m c i).next, j.adding = some (k, t, d)) ∨ i = k.link t d := by
  cases i with
  | linkDependency x y =>
    obtain ⟨rfl, rfl, rfl⟩ : Kind.dependency = k ∧ x = t ∧ y = d := by simpa [Instr.adding] using h
    exact .inr rfl
  | linkTrigger x y =>
    obtain ⟨rfl, rfl, rfl⟩ : Kind.trigger = k ∧ x = t ∧ y = d := by simpa [Instr.adding] using h
    exact .inr rfl
  | addDepended y x => exact .inl ⟨_, List.mem_singleton_self _, h⟩
  | addTriggered y x => exact .inl ⟨_, List.mem_singleton_self _, h⟩
  | testDepended y x =>
    dsimp only [exec, go]
    split
    · exact .inl ⟨_, List.mem_cons_of_mem _ List.mem_cons_self, h⟩
    · exact .inl ⟨_, List.mem_singleton_self _, h⟩
  | testTriggered y x =>
    dsimp only [exec, go]
    split <;> exact .inl ⟨_, List.mem_singleton_self _, h⟩
  | register y x => exact .inl ⟨_, List.mem_cons_of_mem _ List.mem_cons_self, h⟩
  | registerTrigger y x => exact .inl ⟨_, List.mem_cons_of_mem _ List.mem_cons_self, h⟩
  | activate y x => exact .inl ⟨_, List.mem_cons_of_mem _ List.mem_cons_self, h⟩
  | _ => cases h

/-- Who changes what has been added. -/
theorem links_exec (θ : Θ) (c : Choice Θ T V E) (k : Kind) (t : T) :
    ((exec θ m c i).mem.task t).links k = (m.task t).links k ∨
      (∃ d, i = k.link t d ∧ ((exec θ m c i).mem.task t).links k = (m.task t).links k ++ [d]) ∨
      (i = .clearLists t ∧ ((exec θ m c i).mem.task t).links k = []) := by
  cases k with
  | dependency =>
    rcases (exec_taskChange θ m c i).dependencies_eq t with ⟨heq, -⟩ | ⟨d, rfl, heq, -⟩ | ⟨rfl, heq,
      -⟩
    · exact .inl heq
    · exact .inr (.inl ⟨d, rfl, heq⟩)
    · exact .inr (.inr ⟨rfl, heq⟩)
  | trigger =>
    rcases (exec_taskChange θ m c i).triggers_eq t with ⟨heq, -⟩ | ⟨d, rfl, heq, -⟩ | ⟨rfl, heq, -⟩
    · exact .inl heq
    · exact .inr (.inl ⟨d, rfl, heq⟩)
    · exact .inr (.inr ⟨rfl, heq⟩)

/-- Who sets a time trigger. -/
theorem has_time_trigger_exec (θ : Θ) (c : Choice Θ T V E) (t : T) :
    ((exec θ m c i).mem.task t).has_time_trigger_ = (m.task t).has_time_trigger_ ∨
      ∃ at_, i = .setTimeTrigger t at_ := by
  have hchange := exec_taskChange θ m c i
  generalize (exec θ m c i).mem.task = task at hchange ⊢
  cases hchange with
  | same => exact .inl rfl
  | _ =>
    simp only [Mem.task_onTask]
    split_ifs <;> simp_all

/-- What is linked is linked. -/
theorem mem_links_link (θ : Θ) (m : Mem Θ T V E) (c : Choice Θ T V E) (k : Kind) (t d : T) :
    d ∈ ((exec θ m c (k.link t d)).mem.task t).links k := by
  cases k <;> simp [Kind.link, exec, go, Task.links]

end

/-! ## Calls -/

section

variable {call : Call T} {t d : T} {f : Func T}

/-- Only the target of a call is added to. -/
theorem Call.target_of_addsTo : ∀ j ∈ (call.code ++ [.returned call] : List (Instr T V E)),
    ∀ t, j.addsTo = some t → call.target = some t ∧ call ≠ .submit t := by
  cases call <;> simp [Call.code, Call.target, Instr.addsTo]

theorem Func.adding_of_mem_code :
    ∀ j ∈ ((f.add t d).code ++ [.returned (f.add t d)] : List (Instr T V E)),
    ∀ x, j.addsTo = some x → j.adding = some (f.kind, t, d) := by
  cases f <;> simp [Func.add, Call.code, Instr.addsTo, Instr.adding, Func.kind]

theorem Func.exists_mem_code : ∃ j ∈ ((f.add t d).code : List (Instr T V E)),
    j.adding = some (f.kind, t, d) := by
  cases f <;> simp [Func.add, Call.code, Instr.adding, Func.kind]

theorem Func.target_add : (f.add t d).target = some t := by
  cases f <;> rfl

/-- The calls that are left end with `Submit`. -/
theorem Func.suffix_cases {calls : List (Call T)} (h : calls <:+ f.calls t) :
    calls = [] ∨ calls = [.submit t] ∨
      ∃ d ∈ f.all, ∃ rest, calls = f.add t d :: rest ∧ rest ≠ [] ∧ rest <:+ f.calls t := by
  cases calls with
  | nil => exact .inl rfl
  | cons call rest =>
    right
    obtain ⟨pre, hpre⟩ := h
    rw [Func.calls] at hpre
    rcases List.append_eq_append_iff.mp hpre with ⟨mid, hmid, hrest⟩ | ⟨mid, hmid, hrest⟩
    · -- the loop is not over
      cases mid with
      | nil =>
        rw [List.nil_append] at hrest
        exact .inl hrest
      | cons x mid =>
        rw [List.cons_append] at hrest
        obtain ⟨rfl, rfl⟩ := List.cons.inj hrest
        have hmem : call ∈ f.all.map (f.add t) := by
          rw [hmid]
          exact List.mem_append_right _ List.mem_cons_self
        obtain ⟨d, hd, rfl⟩ := List.mem_map.mp hmem
        refine .inr ⟨d, hd, _, rfl, by simp, pre ++ [f.add t d], ?_⟩
        rw [Func.calls, hmid]
        simp
    · cases mid with
      | nil => exact .inl hrest.symm
      | cons x mid =>
        rw [List.cons_append] at hrest
        exact absurd (List.cons.inj hrest).2 (by simp)

end

/-! ## The invariant -/

/-- `d` has been added to `t`, or is being added, or `WhenAll` or `WhenFirst` has not come to it. -/
def Futures.Linked (s : Futures Θ T V E) (t : T) (f : Func T) (d : T) : Prop :=
  d ∈ (s.exec.mem.task t).links f.kind ∨
    (∃ i, s.exec.Pending i ∧ i.adding = some (f.kind, t, d)) ∨
    ∃ θ calls, s.script θ = some (t, calls) ∧ f.add t d ∈ calls

/-- What a future of a combinator gets: the futures that were passed, and nothing else. -/
structure Gets (s : Futures Θ T V E) (t : T) (f : Func T) : Prop where
  pending : ∀ i, s.exec.Pending i → i.addsTo = some t → ∃ d ∈ f.all, i.adding = some (f.kind, t, d)
  other : ∀ k, k ≠ f.kind → (s.exec.mem.task t).links k = []
  time : (s.exec.mem.task t).has_time_trigger_ = false
  links : ∀ d ∈ (s.exec.mem.task t).links f.kind, d ∈ f.all
  linked : s.exec.mem.Waiting t → ∀ d ∈ f.all, s.Linked t f d

/-- How far the calls of `WhenAll` and `WhenFirst` have come. -/
structure Built (s : Futures Θ T V E) : Prop where
  script : ∀ θ t calls, s.script θ = some (t, calls) → ∃ f, s.func_ t = some f ∧
    calls <:+ f.calls t ∧ (calls ≠ [] → s.exec.mem.submitted t = false)
  builder : ∀ θ θ' t calls calls', s.script θ = some (t, calls) → s.script θ' = some (t, calls') →
    θ = θ'
  made : ∀ t f, s.func_ t = some f → s.exec.mem.submitted t = true ∨
    ∃ θ calls, s.script θ = some (t, calls) ∧ calls ≠ []
  gets : ∀ t f, s.func_ t = some f → Gets s t f

section

variable {s s' : Futures Θ T V E} {t d : T} {f : Func T}

theorem Gets.congr (h : Gets s t f) (hexec : s'.exec = s.exec) (hscript : s'.script = s.script) :
    Gets s' t f := by
  obtain ⟨hpending, hother, htime, hlinks, hlinked⟩ := h
  constructor
  · rw [hexec]; exact hpending
  · rw [hexec]; exact hother
  · rw [hexec]; exact htime
  · rw [hexec]; exact hlinks
  · rw [hexec]
    intro hwait d hd
    have hold := hlinked hwait d hd
    rw [Futures.Linked, ← hexec, ← hscript] at hold
    exact hold

/-- Nothing that is looked at here has changed. -/
theorem Built.congr (h : Built s) (hexec : s'.exec = s.exec) (hfunc : s'.func_ = s.func_)
    (hscript : s'.script = s.script) : Built s' where
  script := by rw [hexec, hfunc, hscript]; exact h.script
  builder := by rw [hscript]; exact h.builder
  made := by rw [hexec, hfunc, hscript]; exact h.made
  gets t f ht := by
    rw [hfunc] at ht
    exact (h.gets t f ht).congr hexec hscript

variable [DecidableEq Θ] [DecidableEq T]

theorem Gets.exec (h : Gets s t f) (hinv : Invariant s.exec) {θ : Θ} {i : Instr T V E}
    {rest : List (Instr T V E)} {c : Choice Θ T V E} (hs : s.exec.stack θ = i :: rest) :
    Gets { s with exec := s.exec.after θ rest (exec θ s.exec.mem c i) } t f where
  pending j hj ht := by
    rcases Lib.Config.pending_after hs hj with hnext | hpend
    · obtain ⟨hi, hadds⟩ := (exec_flow θ s.exec.mem c i).adding_eq j hnext t ht
      rw [← hadds]
      exact h.pending i (Lib.Config.pending_top hs) hi
    · exact h.pending j hpend ht
  other k hk := by
    rcases links_exec (m := s.exec.mem) (i := i) θ c k t with heq | ⟨d, rfl, -⟩ | ⟨-, heq⟩
    · exact heq.trans (h.other k hk)
    · obtain ⟨x, -, hx⟩ := h.pending _ (Lib.Config.pending_top hs) (by cases k <;> rfl)
      cases k <;> exact absurd (Prod.mk.inj (Option.some.inj hx)).1 hk
    · exact heq
  time := by
    rcases has_time_trigger_exec (m := s.exec.mem) (i := i) θ c t with heq | ⟨at_, rfl⟩
    · exact heq.trans h.time
    · obtain ⟨x, -, hx⟩ := h.pending _ (Lib.Config.pending_top hs) rfl
      cases hx
  links d hd := by
    rcases links_exec (m := s.exec.mem) (i := i) θ c f.kind t with heq | ⟨x, rfl, heq⟩ | ⟨-, heq⟩
    · exact h.links d (heq ▸ hd)
    · replace hd := List.mem_append.mp (heq ▸ hd)
      rcases hd with hd | hd
      · exact h.links d hd
      · obtain ⟨y, hy, hadds⟩ := h.pending _ (Lib.Config.pending_top hs) (by cases f.kind <;> rfl)
        obtain rfl : x = y := by
          cases hk : f.kind <;> rw [hk] at hadds <;> simpa [Kind.link, Instr.adding] using hadds
        rw [List.mem_singleton.mp hd]
        exact hy
    · exact absurd (heq ▸ hd) List.not_mem_nil
  linked hwait d hd := by
    have hok := hinv.ok i (Lib.Config.pending_top hs)
    have hold := (exec_grows θ c hok).waiting hwait
    rcases h.linked hold d hd with hmem | ⟨j, hpend, hadds⟩ | hscript
    · rcases links_exec (m := s.exec.mem) (i := i) θ c f.kind t with heq | ⟨x, rfl, heq⟩ | ⟨rfl, -⟩
      · exact .inl (heq.symm ▸ hmem)
      · exact .inl (heq.symm ▸ List.mem_append_left _ hmem)
      · exact absurd hold hok
    · rcases hpend.after hs with rfl | hpend
      · rcases exists_adding_next (m := s.exec.mem) (θ := θ) (c :=
          c) hadds with ⟨j', hj', hadds'⟩ | rfl
        · exact .inr (.inl ⟨j', Lib.Config.pending_next hj', hadds'⟩)
        · exact .inl (mem_links_link θ s.exec.mem c f.kind t d)
      · exact .inr (.inl ⟨j, hpend, hadds⟩)
    · exact .inr (.inr hscript)

/-- A thread begins a call. -/
def Futures.push (s : Futures Θ T V E) (θ : Θ) (call : Call T) : Futures Θ T V E :=
  { s with
    exec := s.exec.after θ (s.exec.stack θ)
      ⟨true, s.exec.mem.call call, call.code ++ [.returned call], Label.called call⟩ }

theorem Gets.push (h : Gets s t f) {θ : Θ} {call : Call T} {s' : Futures Θ T V E}
    (hexec : s'.exec = s.exec.after θ (s.exec.stack θ)
      ⟨true, s.exec.mem.call call, call.code ++ [.returned call], Label.called call⟩)
    (hcode : ∀ j ∈ (call.code ++ [.returned call] : List (Instr T V E)), j.addsTo = some t →
      ∃ d ∈ f.all, j.adding = some (f.kind, t, d))
    (hlinked : ∀ d ∈ f.all, s.Linked t f d → s'.Linked t f d) : Gets s' t f := by
  have htask : s'.exec.mem.task = s.exec.mem.task := by
    rw [hexec]
    cases call <;> rfl
  constructor
  · intro j hj ht
    rw [hexec] at hj
    rcases Lib.Config.pending_push.mp hj with hj | hj
    · exact hcode j hj ht
    · exact h.pending j hj ht
  · rw [htask]; exact h.other
  · rw [htask]; exact h.time
  · rw [htask]; exact h.links
  · intro hwait d hd
    rw [Mem.Waiting, htask] at hwait
    exact hlinked d hd (h.linked hwait d hd)

/-- A call does not undo what was going to be added. -/
theorem Futures.Linked.push (h : s.Linked t f d) {θ : Θ} {call : Call T} {s' : Futures Θ T V E}
    (hexec : s'.exec = s.exec.after θ (s.exec.stack θ)
      ⟨true, s.exec.mem.call call, call.code ++ [.returned call], Label.called call⟩)
    (hscript : ∀ θ calls, s.script θ = some (t, calls) → f.add t d ∈ calls →
      (∃ θ calls, s'.script θ = some (t, calls) ∧ f.add t d ∈ calls) ∨ call = f.add t d) :
    s'.Linked t f d := by
  have htask : s'.exec.mem.task = s.exec.mem.task := by
    rw [hexec]
    cases call <;> rfl
  rcases h with hmem | ⟨j, hpend, hadds⟩ | ⟨θ', calls, hcalls, hadd⟩
  · exact .inl (htask.symm ▸ hmem)
  · exact .inr (.inl ⟨j, by rw [hexec]; exact Lib.Config.pending_push.mpr (.inr hpend), hadds⟩)
  · rcases hscript θ' calls hcalls hadd with hleft | rfl
    · exact .inr (.inr hleft)
    · obtain ⟨j, hj, hadds⟩ := Func.exists_mem_code (V := V) (E := E) (f := f) (t := t) (d := d)
      refine .inr (.inl ⟨j, ?_, hadds⟩)
      rw [hexec]
      exact Lib.Config.pending_push.mpr (.inl (List.mem_append_left _ hj))

omit [DecidableEq Θ] [DecidableEq T] in
theorem built_init [Inhabited V] (role : Θ → Role) :
    Built (Futures.init role : Futures Θ T V E) where
  script _ _ _ h := by cases h
  builder _ _ _ _ _ h := by cases h
  made _ _ h := by cases h
  gets _ _ h := by cases h

/-- A thread goes on in the machine. -/
theorem Built.exec (h : Built s) (hinv : Invariant s.exec) {θ : Θ} {i : Instr T V E}
    {rest : List (Instr T V E)} {c : Choice Θ T V E} (hs : s.exec.stack θ = i :: rest) :
    Built { s with exec := s.exec.after θ rest (exec θ s.exec.mem c i) } where
  script θ' t calls hscript := by
    obtain ⟨f, hf, hsuffix, hsub⟩ := h.script θ' t calls hscript
    refine ⟨f, hf, hsuffix, fun hne ↦ ?_⟩
    rw [Lib.Config.mem_after, (submitted_exec θ s.exec.mem c i).1]
    exact hsub hne
  builder := h.builder
  made t f hf := by
    rw [Lib.Config.mem_after, (submitted_exec θ s.exec.mem c i).1]
    exact h.made t f hf
  gets t f hf := (h.gets t f hf).exec hinv hs

omit [DecidableEq Θ] in
theorem submitted_call {m : Mem Θ T V E} {call : Call T} {x : T} :
    (m.call call).submitted x = true ↔ m.submitted x = true ∨ call = .submit x := by
  cases call with
  | submit y =>
    by_cases hxy : x = y
    · subst hxy
      simp [Mem.call]
    · simp [Mem.call, hxy, Ne.symm hxy]
  | _ => simp [Mem.call]

/-- A thread makes a call that is not one of `WhenAll` or `WhenFirst`. -/
theorem Built.call (h : Built s) {θ : Θ} {call : Call T} (hallowed : Allowed s.exec call)
    (htarget : ∀ t, call.target = some t → ¬ s.Building t) : Built (s.push θ call) where
  script θ' t calls hscript := by
    obtain ⟨f, hf, hsuffix, hsub⟩ := h.script θ' t calls hscript
    refine ⟨f, hf, hsuffix, fun hne ↦ Bool.eq_false_iff.mpr fun hsubmitted ↦ ?_⟩
    rcases submitted_call.mp hsubmitted with hold | rfl
    · exact Bool.false_ne_true ((hsub hne).symm.trans hold)
    · exact htarget t rfl ⟨θ', calls, hscript⟩
  builder := h.builder
  made t f hf := (h.made t f hf).imp_left fun hsub ↦ submitted_call.mpr (.inl hsub)
  gets t f hf := by
    refine (h.gets t f hf).push rfl (fun j hj ht ↦ ?_) fun d _ hd ↦
      hd.push rfl fun θ' calls hcalls hadd ↦ .inl ⟨θ', calls, hcalls, hadd⟩
    -- nothing is added to it any more, since it has been submitted
    obtain ⟨hcall, hne⟩ := Call.target_of_addsTo j hj t ht
    rcases h.made t f hf with hsub | ⟨θ', calls, hcalls, -⟩
    · have hnot : s.exec.mem.submitted t = false := by
        cases call with
        | submit x => exact absurd (congrArg Call.submit (Option.some.inj hcall)) hne
        | cancel x => cases hcall
        | startShutdown => cases hcall
        | _ => exact Option.some.inj hcall ▸ hallowed
      exact absurd (hnot.symm.trans hsub) Bool.false_ne_true
    · exact absurd ⟨θ', calls, hcalls⟩ (htarget t hcall)

omit [DecidableEq T] in
/-- What the script of a thread is after it has been set. -/
theorem Futures.script_setScript {θ θ' : Θ} {p : Option (T × List (Call T))} {x : T}
    {calls : List (Call T)} (h : (s.setScript θ p).script θ' = some (x, calls)) :
    (θ' = θ ∧ p = some (x, calls)) ∨ (θ' ≠ θ ∧ s.script θ' = some (x, calls)) := by
  replace h : Function.update s.script θ p θ' = some (x, calls) := h
  by_cases hθ : θ' = θ
  · rw [hθ, Function.update_self] at h
    exact .inl ⟨hθ, h⟩
  · rw [Function.update_of_ne hθ] at h
    exact .inr ⟨hθ, h⟩

/-- `WhenAll` or `WhenFirst` makes its next call. -/
theorem Built.callScript (h : Built s) {θ : Θ} {call : Call T} {rest : List (Call T)}
    (hscript : s.script θ = some (t, call :: rest)) :
    Built ((s.push θ call).setScript θ (some (t, rest))) := by
  obtain ⟨f, hf, hsuffix, hsub⟩ := h.script θ t _ hscript
  have hcall : (call = .submit t ∧ rest = []) ∨ ∃ d, call = f.add t d ∧ d ∈ f.all ∧ rest ≠ [] := by
    rcases Func.suffix_cases hsuffix with hnil | heq | ⟨d, hd, rest', heq, hne, -⟩
    · cases hnil
    · exact .inl ⟨(List.cons.inj heq).1, (List.cons.inj heq).2⟩
    · obtain ⟨rfl, rfl⟩ := List.cons.inj heq
      exact .inr ⟨d, rfl, hd, hne⟩
  -- `Submit` is called only on the future of this thread
  have hsubmit (x : T) (hx : call = .submit x) : x = t ∧ rest = [] := by
    rcases hcall with ⟨rfl, hrest⟩ | ⟨d, rfl, -⟩
    · exact ⟨(Call.submit.inj hx).symm, hrest⟩
    · cases f <;> cases hx
  constructor
  · intro θ' x calls hx
    rcases Futures.script_setScript hx with ⟨rfl, heq⟩ | ⟨hne, hold⟩
    · obtain ⟨rfl, rfl⟩ := Prod.mk.inj (Option.some.inj heq)
      refine ⟨f, hf, (List.suffix_cons _ _).trans hsuffix, fun hrest ↦
        Bool.eq_false_iff.mpr fun hsubmitted ↦ ?_⟩
      rcases submitted_call.mp hsubmitted with hold | hx
      · exact Bool.false_ne_true ((hsub (List.cons_ne_nil _ _)).symm.trans hold)
      · exact hrest (hsubmit _ hx).2
    · obtain ⟨fx, hfx, hsuffix', hsub'⟩ := h.script θ' x calls hold
      refine ⟨fx, hfx, hsuffix', fun hcalls ↦ Bool.eq_false_iff.mpr fun hsubmitted ↦ ?_⟩
      rcases submitted_call.mp hsubmitted with hbefore | hx
      · exact Bool.false_ne_true ((hsub' hcalls).symm.trans hbefore)
      · obtain ⟨rfl, -⟩ := hsubmit x hx
        exact hne (h.builder _ _ _ _ _ hold hscript)
  · intro θ₁ θ₂ x calls₁ calls₂ h₁ h₂
    have hold (θ' : Θ) (calls : List (Call T))
        (hx : ((s.push θ call).setScript θ (some (t, rest))).script θ' = some (x, calls)) :
        ∃ calls, s.script θ' = some (x, calls) := by
      rcases Futures.script_setScript hx with ⟨rfl, heq⟩ | ⟨-, hx⟩
      · obtain ⟨rfl, -⟩ := Prod.mk.inj (Option.some.inj heq)
        exact ⟨_, hscript⟩
      · exact ⟨calls, hx⟩
    obtain ⟨c₁, hc₁⟩ := hold θ₁ calls₁ h₁
    obtain ⟨c₂, hc₂⟩ := hold θ₂ calls₂ h₂
    exact h.builder _ _ _ _ _ hc₁ hc₂
  · intro x fx hfx
    rcases h.made x fx hfx with hold | ⟨θ', calls, hx, hne⟩
    · exact .inl (submitted_call.mpr (.inl hold))
    · by_cases hθ : θ' = θ
      · subst hθ
        obtain ⟨rfl, rfl⟩ := Prod.mk.inj (Option.some.inj (hx.symm.trans hscript))
        rcases hcall with ⟨rfl, -⟩ | ⟨d, -, -, hrest⟩
        · exact .inl (submitted_call.mpr (.inr rfl))
        · exact .inr ⟨θ', rest, Function.update_self _ _ _, hrest⟩
      · exact .inr ⟨θ', calls, (Function.update_of_ne hθ _ _).trans hx, hne⟩
  · intro x fx hfx
    refine (h.gets x fx hfx).push rfl (fun j hj hx ↦ ?_) fun d hd hlinked ↦
      hlinked.push rfl fun θ' calls hcalls hadd ↦ ?_
    · obtain ⟨htarget, hne⟩ := Call.target_of_addsTo j hj x hx
      rcases hcall with ⟨rfl, -⟩ | ⟨d, rfl, hd, -⟩
      · exact absurd (congrArg Call.submit (Option.some.inj htarget)) hne
      · obtain rfl : t = x := Option.some.inj (Func.target_add.symm.trans htarget)
        obtain rfl : f = fx := Option.some.inj (hf.symm.trans hfx)
        exact ⟨d, hd, Func.adding_of_mem_code j hj _ hx⟩
    · by_cases hθ : θ' = θ
      · subst hθ
        obtain ⟨rfl, rfl⟩ := Prod.mk.inj (Option.some.inj (hcalls.symm.trans hscript))
        rcases List.mem_cons.mp hadd with hadd | hadd
        · exact .inr hadd.symm
        · exact .inl ⟨θ', rest, Function.update_self _ _ _, hadd⟩
      · exact .inl ⟨θ', calls, (Function.update_of_ne hθ _ _).trans hcalls, hadd⟩

/-- A new future is made. -/
theorem Built.make [Inhabited V] (h : Built s) {θ : Θ} (hscript : s.script θ = none)
    (hfresh : s.Fresh t) :
    Built ((s.setFunc t f).setScript θ (some (t, f.calls t))) := by
  have hne : f.calls t ≠ [] := by simp [Func.calls]
  have hnew (θ' : Θ) (calls : List (Call T)) : s.script θ' ≠ some (t, calls) := by
    intro hold
    obtain ⟨g, hg, -⟩ := h.script θ' t calls hold
    cases hg.symm.trans hfresh.func
  have hfunc (x : T) (hx : x ≠ t) : (s.setFunc t f).func_ x = s.func_ x :=
    Function.update_of_ne hx _ _
  have hself : (s.setFunc t f).func_ t = some f := Function.update_self _ _ _
  constructor
  · intro θ' x calls hx
    rcases Futures.script_setScript hx with ⟨rfl, heq⟩ | ⟨-, hold⟩
    · obtain ⟨rfl, rfl⟩ := Prod.mk.inj (Option.some.inj heq)
      exact ⟨f, hself, List.suffix_refl _, fun _ ↦ hfresh.submitted⟩
    · obtain ⟨g, hg, hrest⟩ := h.script θ' x calls hold
      have hxt : x ≠ t := by
        rintro rfl
        exact hnew _ _ hold
      exact ⟨g, (hfunc x hxt).trans hg, hrest⟩
  · intro θ₁ θ₂ x calls₁ calls₂ h₁ h₂
    rcases Futures.script_setScript h₁ with ⟨rfl, heq₁⟩ | ⟨-, hold₁⟩ <;>
      rcases Futures.script_setScript h₂ with ⟨rfl, heq₂⟩ | ⟨-, hold₂⟩
    · rfl
    · obtain ⟨rfl, -⟩ := Prod.mk.inj (Option.some.inj heq₁)
      exact absurd hold₂ (hnew _ _)
    · obtain ⟨rfl, -⟩ := Prod.mk.inj (Option.some.inj heq₂)
      exact absurd hold₁ (hnew _ _)
    · exact h.builder _ _ _ _ _ hold₁ hold₂
  · intro x g hg
    by_cases hxt : x = t
    · subst hxt
      obtain rfl : f = g := Option.some.inj (hself.symm.trans hg)
      exact .inr ⟨θ, _, Function.update_self _ _ _, hne⟩
    · refine (h.made x g ((hfunc x hxt).symm.trans hg)).imp_right ?_
      rintro ⟨θ', calls, hold, hcalls⟩
      have hθ : θ' ≠ θ := by
        rintro rfl
        cases hold.symm.trans hscript
      exact ⟨θ', calls, (Function.update_of_ne hθ _ _).trans hold, hcalls⟩
  · intro x g hg
    by_cases hxt : x = t
    · subst hxt
      obtain rfl : f = g := Option.some.inj (hself.symm.trans hg)
      have htask := hfresh.task
      constructor
      · intro i hi hadds
        exact absurd hadds (hfresh.pending i hi)
      · intro k _
        show (s.exec.mem.task x).links k = []
        rw [htask]
        cases k <;> rfl
      · show (s.exec.mem.task x).has_time_trigger_ = false
        rw [htask]
        rfl
      · intro d hd
        replace hd : d ∈ (s.exec.mem.task x).links f.kind := hd
        rw [htask] at hd
        cases f <;> cases hd
      · intro _ d hd
        refine .inr (.inr ⟨θ, _, Function.update_self _ _ _, ?_⟩)
        exact List.mem_append_left _ (List.mem_map_of_mem hd)
    · obtain ⟨hpending, hother, htime, hlinks, hlinked⟩ := h.gets x g ((hfunc x hxt).symm.trans hg)
      refine ⟨hpending, hother, htime, hlinks, fun hwait d hd ↦ (hlinked hwait d hd).imp_right ?_⟩
      refine Or.imp_right ?_
      rintro ⟨θ', calls, hold, hcalls⟩
      have hθ : θ' ≠ θ := by
        rintro rfl
        cases hold.symm.trans hscript
      exact ⟨θ', calls, (Function.update_of_ne hθ _ _).trans hold, hcalls⟩

omit [DecidableEq T] in
/-- `WhenAll` or `WhenFirst` returns. -/
theorem Built.returns (h : Built s) {θ : Θ} (hscript : s.script θ = some (t, [])) :
    Built (s.setScript θ none) := by
  have hold {θ' : Θ} {x : T} {calls : List (Call T)}
      (hx : (s.setScript θ none).script θ' = some (x, calls)) : s.script θ' = some (x, calls) := by
    rcases Futures.script_setScript hx with ⟨-, heq⟩ | ⟨-, hx⟩
    · cases heq
    · exact hx
  have hkeep {θ' : Θ} {x : T} {calls : List (Call T)} (hx : s.script θ' = some (x, calls))
      (hcalls : calls ≠ []) : (s.setScript θ none).script θ' = some (x, calls) := by
    refine (Function.update_of_ne ?_ _ _).trans hx
    rintro rfl
    exact hcalls (Prod.mk.inj (Option.some.inj (hx.symm.trans hscript))).2
  constructor
  · exact fun θ' x calls hx ↦ h.script θ' x calls (hold hx)
  · exact fun θ₁ θ₂ x calls₁ calls₂ h₁ h₂ ↦ h.builder _ _ _ _ _ (hold h₁) (hold h₂)
  · refine fun x g hg ↦ (h.made x g hg).imp_right ?_
    rintro ⟨θ', calls, hx, hcalls⟩
    exact ⟨θ', calls, hkeep hx hcalls, hcalls⟩
  · intro x g hg
    obtain ⟨hpending, hother, htime, hlinks, hlinked⟩ := h.gets x g hg
    refine ⟨hpending, hother, htime, hlinks, fun hwait d hd ↦ (hlinked hwait d hd).imp_right ?_⟩
    refine Or.imp_right ?_
    rintro ⟨θ', calls, hx, hadd⟩
    exact ⟨θ', calls, hkeep hx (List.ne_nil_of_mem hadd), hadd⟩

/-- The calls of `WhenAll` and `WhenFirst` go on as they should. -/
theorem Built.step [Inhabited V] (h : Built s) (hinv : Invariant s.exec) {role : Θ → Role}
    {vector : List V → V} {mv : Move Θ T V E} (hstep : Futures.Step role vector s mv s') :
    Built s' := by
  cases hstep with
  | machine a hmove hfree =>
    cases hmove with
    | exec c hs henabled => exact (h.exec hinv hs).congr rfl rfl rfl
    | call call hcan hallowed => exact (h.call hallowed hfree.2.2).congr rfl rfl rfl
    | tick d =>
      exact ⟨h.script, h.builder, h.made, fun t f hf ↦
        let ⟨hpending, hother, htime, hlinks, hlinked⟩ := h.gets t f hf
        ⟨hpending, hother, htime, hlinks, hlinked⟩⟩
  | make θ t f hcan hfunc hscript hfresh hall => exact h.make hscript hfresh
  | call θ t call rest hscript hframe hmove =>
    cases hmove with
    | call _ hcan hallowed => exact (h.callScript hscript).congr rfl rfl rfl
  | made θ t hscript hcan => exact h.returns hscript
  | start | body => exact h.congr rfl rfl rfl
  | leave θ fr c hframe hchoice hmove =>
    cases hmove with
    | exec _ hs henabled => exact (h.exec hinv hs).congr rfl rfl rfl

end

end Executor
end ManyTasks
