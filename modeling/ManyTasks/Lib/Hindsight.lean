import ManyTasks.Lib.Atomic
import Mathlib.Data.Set.Finite.Basic
import Mathlib.Data.Set.Insert

/-!
# Calls that answer in hindsight

A call that only reads may look at an object piece by piece while others change it.  There may be no
moment at which it takes effect that could be told when it comes: only when it returns is it seen
which state of the past its answer is right for.

`Hindsight` is such an object: a call that has begun keeps the states that the object has been in
since, and returns the answer of any of them.  From outside this cannot be told from an object on
which every call takes effect at one moment (`Hindsight.atomic`).  Of what is inside, only how many
steps are taken is different, so what is seen are the labels other than `tau`.
-/

set_option autoImplicit false

namespace ManyTasks
namespace Lib

variable {C O R A S : Type}

open Function (update)

/-- The label, if it is seen from outside. -/
def Label.seen? : Label C O R → Option (Label C O R)
  | .tau => none
  | .call c op => some (.call c op)
  | .ret c res => some (.ret c res)

/-- What is seen of a run from outside. -/
def seen (h : List (S × Label C O R)) : List (Label C O R) := h.filterMap fun x ↦ x.2.seen?

section

variable {T : Type} {h₁ h₂ : List (S × Label C O R)} {s : S}

@[simp] theorem seen_append : seen (h₁ ++ h₂) = seen h₁ ++ seen h₂ := List.filterMap_append

@[simp] theorem seen_nil : seen ([] : List (S × Label C O R)) = [] := rfl

@[simp] theorem seen_singleton {l : Label C O R} : seen [(s, l)] = l.seen?.toList := by
  cases l with
  | _ => rfl

end

/-- An object, its calls, and the states it has been in since they have begun. -/
structure Hindsight (C O R A : Type) where
  state : A
  calls : C → Progress O R
  past : C → Set A

/-- No call has begun. -/
def Hindsight.init (a : A) : Hindsight C O R A := ⟨a, fun _ ↦ .idle, fun _ ↦ ∅⟩

variable [DecidableEq C] (apply : A → O → R × A)

/-- The operation changes nothing. -/
def Reads (op : O) : Prop := ∀ a, (apply a op).2 = a

/-- Calls begin, take effect at one moment, and return; one that only reads may also return the
answer of a state of the past. -/
inductive Hindsight.Step : Hindsight C O R A → Label C O R → Hindsight C O R A → Prop where
  | call {o} (c op) (h : o.calls c = .idle) :
      Step o (.call c op)
        { o with calls := update o.calls c (.called op), past := update o.past c {o.state} }
  | effect {o} (c op) (h : o.calls c = .called op) :
      Step o .tau ⟨(apply o.state op).2, update o.calls c (.done op (apply o.state op).1),
        fun c' ↦ insert (apply o.state op).2 (o.past c')⟩
  | stutter {o} : Step o .tau o
  | ret {o} (c op res) (h : o.calls c = .done op res) :
      Step o (.ret c res) { o with calls := update o.calls c (.returned op res) }
  | answer {o} (c op a) (h : o.calls c = .called op) (hop : Reads apply op) (ha : a ∈ o.past c) :
      Step o (.ret c (apply a op).1)
        { o with calls := update o.calls c (.returned op (apply a op).1) }

variable {apply}

/-! ## Which call has taken effect already -/

/-- A call may be thought of as done, with the answer of a state of the past. -/
def Hindsight.MayBeDone (apply : A → O → R × A) (s : Hindsight C O R A) (c : C)
    (p : Progress O R) : Prop :=
  ∃ op a, Reads apply op ∧ s.calls c = .called op ∧ a ∈ s.past c ∧ p = .done op (apply a op).1

/-- A way to think of the calls: finitely many of those that only read have taken effect. -/
structure Hindsight.Chosen (apply : A → O → R × A) (s : Hindsight C O R A) (o : Atomic C O R A) :
    Prop where
  state : o.state = s.state
  calls (c : C) : o.calls c = s.calls c ∨ s.MayBeDone apply c (o.calls c)
  finite : {c | o.calls c ≠ s.calls c}.Finite

/-- Some steps that are not seen. -/
def Silently (apply : A → O → R × A) (o o' : Atomic C O R A) : Prop :=
  ∃ h, Trace (Atomic.Step apply) o h o' ∧ seen h = []

theorem Silently.refl (o : Atomic C O R A) : Silently apply o o := ⟨[], .nil, rfl⟩

theorem Silently.trans {o₁ o₂ o₃ : Atomic C O R A} (h : Silently apply o₁ o₂)
    (h' : Silently apply o₂ o₃) :
    Silently apply o₁ o₃ := by
  obtain ⟨h₁, hrun₁, hseen₁⟩ := h
  obtain ⟨h₂, hrun₂, hseen₂⟩ := h'
  exact ⟨h₁ ++ h₂, hrun₁.append hrun₂, by rw [seen_append, hseen₁, hseen₂]; rfl⟩

/-- Finitely many calls that only read take effect, one after the other. -/
theorem silently_of_finite {F : Set C} (hF : F.Finite) {o : Atomic C O R A}
    {calls : C → Progress O R} (hrest : ∀ c, c ∉ F → calls c = o.calls c)
    (hreads : ∀ c ∈ F, ∃ op, Reads apply op ∧ o.calls c = .called op ∧
      calls c = .done op (apply o.state op).1) : Silently apply o ⟨o.state, calls⟩ := by
  induction F, hF using Set.Finite.induction_on generalizing o with
  | empty =>
    have hcalls : calls = o.calls := funext fun c ↦ hrest c (Set.notMem_empty c)
    rw [hcalls]
    exact .refl o
  | @insert c F hc hF ih =>
    obtain ⟨op, hop, hcalled, hdone⟩ := hreads c (Set.mem_insert c F)
    have hstep : Atomic.Step apply o .tau
        ⟨o.state, update o.calls c (.done op (apply o.state op).1)⟩ := by
      have heffect : Atomic.Step apply o .tau _ := .effect c op hcalled
      rwa [hop] at heffect
    refine .trans ⟨_, .snoc .nil hstep, rfl⟩ ?_
    have hnext := ih (o := ⟨o.state, update o.calls c (.done op (apply o.state op).1)⟩)
        (fun c' hc' ↦ ?_) fun c' hc' ↦ ?_
    · exact hnext
    · show calls c' = update o.calls c (.done op (apply o.state op).1) c'
      by_cases hcc : c' = c
      · subst hcc
        rw [hdone, Function.update_self]
      · rw [hrest c' fun hmem ↦ hmem.elim hcc hc', Function.update_of_ne hcc]
    · have hcc : c' ≠ c := by
        rintro rfl
        exact hc hc'
      obtain ⟨op', hop', hcalled', hdone'⟩ := hreads c' (Set.mem_insert_of_mem c hc')
      exact ⟨op', hop', (Function.update_of_ne hcc ..).trans hcalled', hdone'⟩

section

variable {s s' : Hindsight C O R A} {o' : Atomic C O R A} {c : C}

omit [DecidableEq C] in
/-- A call that is not just called is what it is. -/
theorem Hindsight.Chosen.eq_of (h : s.Chosen apply o') (hc : ∀ op, s.calls c ≠ .called op) :
    o'.calls c = s.calls c := by
  refine (h.calls c).resolve_right ?_
  rintro ⟨op, a, -, hcalled, -⟩
  exact hc op hcalled

/-- The others are thought of as they are afterwards. -/
theorem Hindsight.Chosen.back (h : s'.Chosen apply o') {p : Progress O R}
    (hp : p = s.calls c ∨ s.MayBeDone apply c p) (hcalls : ∀ c', c' ≠ c → s'.calls c' = s.calls c')
    (hpast : ∀ c', c' ≠ c → s'.past c' = s.past c') :
    s.Chosen apply ⟨s.state, update o'.calls c p⟩ := by
  refine ⟨rfl, fun c' ↦ ?_, (h.finite.insert c).subset fun c' hc' ↦ ?_⟩
  · show update o'.calls c p c' = _ ∨ s.MayBeDone apply c' (update o'.calls c p c')
    by_cases hcc : c' = c
    · subst hcc
      rw [Function.update_self]
      exact hp
    · rw [Function.update_of_ne hcc]
      refine (h.calls c').imp (fun heq ↦ heq.trans (hcalls c' hcc)) ?_
      rintro ⟨op, a, hop, hcalled, ha, heq⟩
      exact ⟨op, a, hop, (hcalls c' hcc).symm.trans hcalled, hpast c' hcc ▸ ha, heq⟩
  · by_cases hcc : c' = c
    · exact .inl hcc
    · refine .inr fun heq ↦ hc' ?_
      exact (Function.update_of_ne hcc ..).trans (heq.trans (hcalls c' hcc))

/-- What one step is, however the calls are thought of afterwards. -/
def Hindsight.Answered (apply : A → O → R × A) (s : Hindsight C O R A) (l : Label C O R)
    (o' : Atomic C O R A) : Prop :=
  ∃ o, s.Chosen apply o ∧ ∃ h, Trace (Atomic.Step apply) o h o' ∧ seen h = l.seen?.toList

theorem Hindsight.Chosen.single {o : Atomic C O R A} {l : Label C O R} {a : A}
    (h : s.Chosen apply o) (hstate : o'.state = a) (hstep : Atomic.Step apply o l ⟨a, o'.calls⟩) :
    s.Answered apply l o' := by
  subst hstate
  exact ⟨o, h, _, .snoc .nil hstep, seen_singleton⟩

/-- One call is changed. -/
theorem update_back {calls : C → Progress O R} {p q : Progress O R} (h : calls c = q) :
    update (update calls c p) c q = calls := by
  rw [Function.update_idem, ← h, Function.update_eq_self]

/-- A call begins. -/
theorem Hindsight.Chosen.call {op : O} (hidle : s.calls c = .idle)
    (h : Hindsight.Chosen apply { s with
      calls := update s.calls c (.called op),
      past := update s.past c {s.state} } o') :
    s.Answered apply (.call c op) o' := by
  have hback := h.back (s := s) (.inl hidle.symm) (fun c' hc' ↦ Function.update_of_ne hc' ..)
    fun c' hc' ↦ Function.update_of_ne hc' ..
  have hstep : Atomic.Step apply ⟨s.state, update o'.calls c .idle⟩ (.call c op)
      ⟨s.state, update o'.calls c (.called op)⟩ := by
    simpa using Atomic.Step.call (o := ⟨s.state, update o'.calls c .idle⟩) c op
      (Function.update_self ..)
  rcases h.calls c with heq | ⟨op', a, hop, hcalled, ha, hdone⟩
  · have hcalled : o'.calls c = .called op := by simpa using heq
    rw [← hcalled, Function.update_eq_self] at hstep
    exact hback.single h.state hstep
  · have hopop : op = op' := by simpa using hcalled
    subst hopop
    have hstate : a = s.state := by simpa using ha
    subst hstate
    have heffect : Atomic.Step apply ⟨s.state, update o'.calls c (.called op)⟩ .tau _ :=
      .effect c op (Function.update_self ..)
    rw [hop, update_back hdone] at heffect
    rw [show s.state = o'.state from h.state.symm] at hback hstep heffect
    refine ⟨_, hback, _, .snoc (.snoc .nil hstep) heffect, ?_⟩
    rw [seen_append, seen_append, seen_singleton, seen_singleton]
    rfl

/-- A call returns that has taken effect. -/
theorem Hindsight.Chosen.ret {op : O} {res : R} (hdone : s.calls c = .done op res)
    (h : Hindsight.Chosen apply { s with calls := update s.calls c (.returned op res) } o') :
    s.Answered apply (.ret c res) o' := by
  have hreturned : o'.calls c = .returned op res := by simpa using h.eq_of (c := c) (by simp)
  have hback := h.back (s := s) (.inl hdone.symm)
      (fun c' hc' ↦ Function.update_of_ne hc' ..) fun _ _ ↦ rfl
  have hstep : Atomic.Step apply ⟨s.state, update o'.calls c (.done op res)⟩ (.ret c res) _ :=
    .ret c op res (Function.update_self ..)
  rw [update_back hreturned] at hstep
  exact hback.single h.state hstep

/-- A call returns the answer of a state of the past: it has taken effect then. -/
theorem Hindsight.Chosen.answer {op : O} {a : A} (hcalled : s.calls c = .called op)
    (hop : Reads apply op) (ha : a ∈ s.past c)
    (h : Hindsight.Chosen apply
      { s with calls := update s.calls c (.returned op (apply a op).1) } o') :
    s.Answered apply (.ret c (apply a op).1) o' := by
  have hreturned : o'.calls c = .returned op (apply a op).1 := by
    simpa using h.eq_of (c := c) (by simp)
  have hback := h.back (s := s) (.inr ⟨op, a, hop, hcalled, ha, rfl⟩)
    (fun c' hc' ↦ Function.update_of_ne hc' ..) fun _ _ ↦ rfl
  have hstep : Atomic.Step apply ⟨s.state, update o'.calls c (.done op (apply a op).1)⟩
      (.ret c (apply a op).1) _ := .ret c op (apply a op).1 (Function.update_self ..)
  rw [update_back hreturned] at hstep
  exact hback.single h.state hstep

/-- A call takes effect, and with it those that have the answer of the new state. -/
theorem Hindsight.Chosen.effect {op : O} (hcalled : s.calls c = .called op)
    (h : Hindsight.Chosen apply
      ⟨(apply s.state op).2, update s.calls c (.done op (apply s.state op).1),
        fun c' ↦ insert (apply s.state op).2 (s.past c')⟩ o') : s.Answered apply .tau o' := by
  classical
  have hdone : o'.calls c = .done op (apply s.state op).1 := by
    simpa using h.eq_of (c := c) (by simp)
  have hother {c' : C} (hc' : c' ≠ c) : update s.calls c (.done op (apply s.state op).1) c' =
      s.calls c' :=
    Function.update_of_ne hc' ..
  -- those that could not be done before
  let F : Set C := {c' | c' ≠ c ∧ o'.calls c' ≠ s.calls c' ∧ ¬ s.MayBeDone apply c' (o'.calls c')}
  have hF : F.Finite := h.finite.subset fun c' hc' heq ↦ hc'.2.1 (heq.trans (hother hc'.1))
  let before : C → Progress O R := fun c' ↦ if c' ∈ F then s.calls c' else o'.calls c'
  have hbefore : before c = o'.calls c := if_neg fun hc ↦ hc.1 rfl
  refine ⟨⟨s.state, update before c (.called op)⟩, ⟨rfl, fun c' ↦ ?_, ?_⟩, ?_⟩
  · show update before c _ c' = _ ∨ s.MayBeDone apply c' (update before c _ c')
    by_cases hcc : c' = c
    · rw [hcc, Function.update_self]
      exact .inl hcalled.symm
    · rw [Function.update_of_ne hcc]
      by_cases hmem : c' ∈ F
      · exact .inl (if_pos hmem)
      · rw [show before c' = o'.calls c' from if_neg hmem]
        by_contra hnot
        exact hmem ⟨hcc, not_or.mp hnot⟩
  · refine (h.finite.insert c).subset fun c' hc' ↦ ?_
    by_cases hcc : c' = c
    · exact .inl hcc
    · refine .inr fun heq ↦ hc' ?_
      show update before c _ c' = s.calls c'
      rw [Function.update_of_ne hcc]
      by_cases hmem : c' ∈ F
      · exact if_pos hmem
      · exact (if_neg hmem).trans (heq.trans (hother hcc))
  · have heffect : Atomic.Step apply ⟨s.state, update before c (.called op)⟩ .tau _ :=
      .effect c op (by simp)
    rw [update_back (hbefore.trans hdone)] at heffect
    have hsilent : Silently apply ⟨(apply s.state op).2, before⟩
        ⟨(apply s.state op).2, o'.calls⟩ := by
      refine silently_of_finite hF (fun c' hc' ↦ (if_neg hc').symm) fun c' hc' ↦ ?_
      obtain ⟨hcc, hne, hnot⟩ := hc'
      rcases h.calls c' with heq | ⟨op', a, hop', hcalled', ha, hdone'⟩
      · exact absurd (heq.trans (hother hcc)) hne
      · have hcalls : s.calls c' = .called op' := (hother hcc).symm.trans hcalled'
        rcases ha with rfl | ha
        · exact ⟨op', hop', (if_pos ⟨hcc, hne, hnot⟩).trans hcalls, hdone'⟩
        · exact absurd ⟨op', a, hop', hcalls, ha, hdone'⟩ hnot
    obtain ⟨h', hrun, hseen⟩ := hsilent
    have hrun' := (Trace.snoc .nil heffect).append hrun
    rw [show (apply s.state op).2 = o'.state from h.state.symm] at hrun'
    exact ⟨_, hrun', by rw [seen_append, seen_append, seen_singleton, hseen]; rfl⟩

/-- **One step**: however the calls are thought of afterwards, they can be thought of before it. -/
theorem Hindsight.Step.answered {l : Label C O R} (hstep : Hindsight.Step apply s l s')
    (h : s'.Chosen apply o') : s.Answered apply l o' := by
  cases hstep with
  | call c op hidle => exact h.call hidle
  | effect c op hcalled => exact h.effect hcalled
  | stutter => exact ⟨o', h, [], .nil, rfl⟩
  | ret c op res hdone => exact h.ret hdone
  | answer c op a hcalled hop ha => exact h.answer hcalled hop ha

/-- **Nobody can tell the difference.**  What is seen of the object from outside can be seen of one
on which every call takes effect at one moment. -/
theorem Hindsight.atomic {a : A} {h : List (Hindsight C O R A × Label C O R)}
    (hrun : Trace (Hindsight.Step apply) (.init a) h s) :
    ∃ h' o, Trace (Atomic.Step apply) (.init a) h' o ∧ seen h' = seen h := by
  suffices hall : ∀ o, s.Chosen apply o → ∃ h', Trace (Atomic.Step apply) (.init a) h' o ∧
      seen h' = seen h by
    obtain ⟨h', hrun', hseen⟩ := hall ⟨s.state, s.calls⟩ ⟨rfl, fun _ ↦ .inl rfl, by simp⟩
    exact ⟨h', _, hrun', hseen⟩
  induction hrun with
  | nil =>
    intro o ho
    have hcalls : o.calls = fun _ ↦ .idle := funext fun c ↦ ho.eq_of (by simp [Hindsight.init])
    obtain ⟨state, calls⟩ := o
    obtain rfl := ho.state
    obtain rfl := hcalls
    exact ⟨[], .nil, rfl⟩
  | snoc hrun hstep ih =>
    intro o' ho'
    obtain ⟨o, ho, h₂, hrun₂, hseen₂⟩ := hstep.answered ho'
    obtain ⟨h₁, hrun₁, hseen₁⟩ := ih o ho
    exact ⟨h₁ ++ h₂, hrun₁.append
      hrun₂, by rw [seen_append, seen_append, hseen₁, hseen₂, seen_singleton]⟩

end

end Lib
end ManyTasks
