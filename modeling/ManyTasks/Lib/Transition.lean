import Mathlib.Data.Nat.Init
import Mathlib.Logic.Relation
import Mathlib.Tactic.Basic

/-!
# Runs of a system

A system is a relation `step` on its states; a run is a path of it, so the states that can be
reached are those related by `Relation.ReflTransGen step`.  Two kinds of statement are made about
all runs.

* A safety property holds in every state that can be reached.  It follows from an invariant, by
  `invariant_of_step`.
* `Inevitable step P s` says that every run from `s` comes to a state with `P`: no schedule avoids
  it for ever, and none gets stuck before.

Where a property is about what happened on the way and not only about the state reached, the steps
carry labels, and a `Trace` has the labels of a run in their order, each with the state it was
taken in.
-/

set_option autoImplicit false

namespace ManyTasks
namespace Lib

variable {S : Type} {step : S → S → Prop} {P Q : S → Prop}

/-- What holds at the start and is kept by every step holds in every state that can be reached. -/
theorem invariant_of_step {I : S → Prop} {s₀ s : S} (hrun : Relation.ReflTransGen step s₀ s)
    (hinit : I s₀) (hstep : ∀ s s', I s → step s s' → I s') : I s := by
  induction hrun with
  | refl => exact hinit
  | tail _ hs ih => exact hstep _ _ ih hs

/-- Whatever the schedule, a state with `P` is reached after finitely many steps. -/
inductive Inevitable (step : S → S → Prop) (P : S → Prop) : S → Prop where
  | now {s : S} (h : P s) : Inevitable step P s
  | later {s : S} (hcan : ∃ s', step s s') (h : ∀ s', step s s' → Inevitable step P s') :
      Inevitable step P s

theorem Inevitable.trans {s : S} (h : Inevitable step P s)
    (hPQ : ∀ s', P s' → Inevitable step Q s') : Inevitable step Q s := by
  induction h with
  | now h => exact hPQ _ h
  | later hcan _ ih => exact .later hcan ih

/-- What every step brings nearer, and only stops when it is reached, is reached. -/
theorem Inevitable.of_measure {I : S → Prop} (μ : S → ℕ)
    (hstep : ∀ s s', I s → step s s' → I s' ∧ μ s' < μ s)
    (hcan : ∀ s, I s → P s ∨ ∃ s', step s s') {s : S} (hs : I s) : Inevitable step P s := by
  induction hn : μ s using Nat.strong_induction_on generalizing s with
  | _ n ih =>
    subst hn
    rcases hcan s hs with hP | hnext
    · exact .now hP
    · refine .later hnext fun s' hs' ↦ ?_
      obtain ⟨hI, hlt⟩ := hstep s s' hs hs'
      exact ih (μ s') hlt hI rfl

/-- A step taken before `P` holds does not lead away from it. -/
theorem Inevitable.next {s s' : S} (h : Inevitable step P s) (hnot : ¬P s) (hs : step s s') :
    Inevitable step P s' := by
  cases h with
  | now h => exact absurd h hnot
  | later _ h => exact h s' hs

/-- What is kept by every step holds when `P` does. -/
theorem Inevitable.exists_of_invariant {I : S → Prop} {s : S} (h : Inevitable step P s)
    (hinit : I s) (hstep : ∀ s s', I s → step s s' → I s') : ∃ s', P s' ∧ I s' := by
  induction h with
  | now h => exact ⟨_, h, hinit⟩
  | later hcan _ ih =>
    obtain ⟨s', hs'⟩ := hcan
    exact ih s' hs' (hstep _ _ hinit hs')

/-! ## Traces -/

/-- A run from `s₀` to the last argument, with the labels of its steps and the state before each. -/
inductive Trace {L : Type} (step : S → L → S → Prop) (s₀ : S) : List (S × L) → S → Prop where
  | nil : Trace step s₀ [] s₀
  | snoc {h : List (S × L)} {s s' : S} {l : L} (hrun : Trace step s₀ h s) (hstep : step s l s') :
      Trace step s₀ (h ++ [(s, l)]) s'

theorem Trace.cons {L : Type} {step : S → L → S → Prop} {s₀ s₁ s : S} {h : List (S × L)} {l : L}
    (hstep : step s₀ l s₁) (hrun : Trace step s₁ h s) : Trace step s₀ ((s₀, l) :: h) s := by
  induction hrun with
  | nil => exact .snoc (h := []) .nil hstep
  | snoc _ hs ih => exact .snoc ih hs

theorem Trace.append {L : Type} {step : S → L → S → Prop} {s₀ s₁ s : S} {h₁ h₂ : List (S × L)}
    (hrun₁ : Trace step s₀ h₁ s₁) (hrun₂ : Trace step s₁ h₂ s) : Trace step s₀ (h₁ ++ h₂) s := by
  induction hrun₂ with
  | nil => rw [List.append_nil]; exact hrun₁
  | snoc _ hs ih => rw [← List.append_assoc]; exact .snoc ih hs

/-- What holds of the empty trace and is kept by every step holds of every trace. -/
theorem Trace.invariant {L : Type} {step : S → L → S → Prop} {I : List (S × L) → S → Prop}
    {s₀ s : S} {h : List (S × L)} (hrun : Trace step s₀ h s) (hinit : I [] s₀)
    (hstep : ∀ h s l s', I h s → step s l s' → I (h ++ [(s, l)]) s') : I h s := by
  induction hrun with
  | nil => exact hinit
  | snoc _ hs ih => exact hstep _ _ _ _ ih hs

/-- The same for a run all of whose steps meet a condition. -/
theorem Trace.invariant_of_forall {L : Type} {step : S → L → S → Prop} {C : S → L → Prop}
    {I : S → Prop} {s₀ s : S} {h : List (S × L)} (hrun : Trace step s₀ h s)
    (hC : ∀ x ∈ h, C x.1 x.2) (hinit : I s₀)
    (hstep : ∀ s l s', I s → step s l s' → C s l → I s') : I s := by
  induction hrun with
  | nil => exact hinit
  | snoc _ hs ih =>
    have hlast := hC _ (List.mem_append_right _ List.mem_cons_self)
    exact hstep _ _ _ (ih fun x hx ↦ hC x (List.mem_append_left _ hx)) hs hlast

/-- What every step has, where an invariant holds, all the steps of a run have. -/
theorem Trace.forall_of_step {L : Type} {step : S → L → S → Prop} {C P : S → L → Prop}
    {I : S → Prop} {s₀ s : S} {h : List (S × L)} (hrun : Trace step s₀ h s)
    (hC : ∀ x ∈ h, C x.1 x.2) (hinit : I s₀)
    (hstep : ∀ s l s', I s → step s l s' → C s l → I s' ∧ P s l) : I s ∧ ∀ x ∈ h, P x.1 x.2 := by
  induction hrun with
  | nil => exact ⟨hinit, by simp⟩
  | @snoc h s s' l _ hs ih =>
    obtain ⟨hI, hP⟩ := ih fun x hx ↦ hC x (List.mem_append_left _ hx)
    obtain ⟨hI', hl⟩ := hstep s l s' hI hs (hC _ (List.mem_append_right _ List.mem_cons_self))
    refine ⟨hI', fun x hx ↦ ?_⟩
    rcases List.mem_append.mp hx with hx | hx
    · exact hP x hx
    · rw [List.mem_singleton.mp hx]
      exact hl

/-- What certain steps leave in a history, with one more step. -/
theorem filterMap_snoc {L A : Type} (f : L → Option A) (h : List (S × L)) (s : S) (l : L) :
    (h ++ [(s, l)]).filterMap (fun x ↦ f x.2) = h.filterMap (fun x ↦ f x.2) ++ (f l).toList := by
  rw [List.filterMap_append]
  cases hl : f l <;> simp [hl]

/-- A trace up to one of its steps is a trace, of which the step is the next. -/
theorem Trace.split {L : Type} {step : S → L → S → Prop} {s₀ s s₁ : S}
    {h₁ h₂ : List (S × L)} {l : L} (hrun : Trace step s₀ (h₁ ++ (s₁, l) :: h₂) s) :
    Trace step s₀ h₁ s₁ ∧ ∃ s₂, step s₁ l s₂ ∧ Trace step s₂ h₂ s := by
  generalize hh : h₁ ++ (s₁, l) :: h₂ = h at hrun
  induction hrun generalizing h₂ with
  | nil => exact absurd hh (by simp)
  | @snoc h' s' s'' l' hrun hstep ih =>
    rcases List.eq_nil_or_concat h₂ with rfl | ⟨h₃, x, rfl⟩
    · obtain ⟨rfl, hx⟩ := List.append_inj' hh rfl
      obtain ⟨rfl, rfl⟩ := Prod.mk.injEq .. ▸ List.singleton_inj.mp hx
      exact ⟨hrun, s'', hstep, .nil⟩
    · rw [List.concat_eq_append, ← List.cons_append, ← List.append_assoc] at hh
      obtain ⟨hh, hx⟩ := List.append_inj' hh rfl
      obtain ⟨htrace, s₂, hs₂, hrest⟩ := ih hh
      rw [List.concat_eq_append, List.singleton_inj.mp hx]
      exact ⟨htrace, s₂, hs₂, hrest.snoc hstep⟩

/-- **Forward simulation.**  If every step of one system can be answered by a step of another with
the same label, then every trace of the first has one of the second with the same labels. -/
theorem Trace.simulation {T L : Type} {step : S → L → S → Prop} {step' : T → L → T → Prop}
    {R : S → T → Prop} {s₀ s : S} {t₀ : T} {h : List (S × L)} (hrun : Trace step s₀ h s)
    (hinit : R s₀ t₀) (hstep : ∀ s l s' t, R s t → step s l s' → ∃ t', step' t l t' ∧ R s' t') :
    ∃ h' t, Trace step' t₀ h' t ∧ h'.map Prod.snd = h.map Prod.snd ∧ R s t := by
  induction hrun with
  | nil => exact ⟨[], t₀, .nil, rfl, hinit⟩
  | @snoc h s s' l _ hs ih =>
    obtain ⟨h', t, hrun', hlabels, hR⟩ := ih
    obtain ⟨t', ht', hR'⟩ := hstep _ _ _ _ hR hs
    refine ⟨h' ++ [(t, l)], t', hrun'.snoc ht', ?_, hR'⟩
    rw [List.map_append, List.map_append, hlabels]
    rfl

/-- A run by a list of inputs, with what is returned for each, if all of them can be taken. -/
def play {A R : Type} (act : S → A → Option (R × S)) :
    List A → S → Option (List (S × (A × R)) × S)
  | [], s => some ([], s)
  | a :: as, s =>
    (act s a).bind fun (r, s₁) ↦ (play act as s₁).map fun (h, s₂) ↦ ((s, (a, r)) :: h, s₂)

/-- What is played is a trace. -/
theorem trace_of_play {A R : Type} {act : S → A → Option (R × S)} {as : List A} {s s' : S}
    {h : List (S × (A × R))} (hplay : play act as s = some (h, s')) :
    Trace (fun s l s' ↦ act s l.1 = some (l.2, s')) s h s' := by
  induction as generalizing s h with
  | nil =>
    obtain ⟨rfl, rfl⟩ := Prod.mk.inj (Option.some.inj hplay)
    exact .nil
  | cons a as ih =>
    obtain ⟨⟨r, s₁⟩, hact, hrest⟩ := Option.bind_eq_some_iff.mp hplay
    obtain ⟨⟨h', s₂⟩, hplay', heq⟩ := Option.map_eq_some_iff.mp hrest
    obtain ⟨rfl, rfl⟩ := Prod.mk.inj heq
    exact .cons hact (ih hplay')

/-- Inputs that can be played, and end as tested, give a trace that ends so. -/
theorem exists_trace_of_play {A R : Type} (act : S → A → Option (R × S)) (as : List A) (s : S)
    (p : List (S × (A × R)) × S → Bool) (hplay : (play act as s).any p = true) :
    ∃ h s', Trace (fun s l s' ↦ act s l.1 = some (l.2, s')) s h s' ∧ p (h, s') = true := by
  obtain ⟨⟨h, s'⟩, hplay, hp⟩ := (Option.any_eq_true _ _).mp hplay
  exact ⟨h, s', trace_of_play hplay, hp⟩

end Lib
end ManyTasks
