import ManyTasks.Lib.Transition

/-!
# Systems made of parts

A system that is made of parts moves several of them in one step, and leaves the others alone.  What
such a step is for one part is said by `Moves`: a step of the part, or nothing.

The parts may rely on each other: what one of them may only do under a condition is a step of the
whole without it, and the condition follows from an invariant of the whole.  Then every trace of the
whole is one of each part (`Trace.project`), and what has been proved of the parts alone holds of
them together.
-/

set_option autoImplicit false

namespace ManyTasks
namespace Lib

variable {S T L K : Type} {step : S → L → S → Prop} {part : T → K → T → Prop}

/-- A step of a part, or none. -/
def Moves (part : T → K → T → Prop) (t : T) : Option K → T → Prop
  | none, t' => t' = t
  | some k, t' => part t k t'

@[simp] theorem moves_none {t t' : T} : Moves part t none t' ↔ t' = t := Iff.rfl

@[simp] theorem moves_some {t t' : T} {k : K} : Moves part t (some k) t' ↔ part t k t' := Iff.rfl

/-- **Projection.**  If, under an invariant of the whole, each of its steps is a step of the part or
nothing, then a trace of the whole is a trace of the part, with the labels that concern the part. -/
theorem Trace.project (proj : S → T) (label : L → Option K) {I : S → Prop} {s₀ s : S}
    {h : List (S × L)} (hrun : Trace step s₀ h s) (hinit : I s₀)
    (hinv : ∀ s l s', I s → step s l s' → I s')
    (hpart : ∀ s l s', I s → step s l s' → Moves part (proj s) (label l) (proj s')) :
    ∃ h', Trace part (proj s₀) h' (proj s) ∧
      h'.map Prod.snd = h.filterMap fun x ↦ label x.2 := by
  suffices hboth : I s ∧ ∃ h', Trace part (proj s₀) h' (proj s) ∧
      h'.map Prod.snd = h.filterMap fun x ↦ label x.2 from hboth.2
  induction hrun with
  | nil => exact ⟨hinit, [], .nil, rfl⟩
  | @snoc h s s' l _ hstep ih =>
    obtain ⟨hI, h', hrun', hlabels⟩ := ih
    refine ⟨hinv s l s' hI hstep, ?_⟩
    have hmoves := hpart s l s' hI hstep
    cases hl : label l with
    | none =>
      rw [hl, moves_none] at hmoves
      refine ⟨h', by rw [hmoves]; exact hrun', ?_⟩
      simp [hlabels, hl]
    | some k =>
      rw [hl, moves_some] at hmoves
      refine ⟨h' ++ [(proj s, k)], hrun'.snoc hmoves, ?_⟩
      simp [hlabels, hl]

/-- **Simulation of a part.**  If every step of the whole can be answered by a step of the part or
by none, then a trace of the whole has one of the part, with the labels that concern the part. -/
theorem Trace.follow (label : L → Option K) {R : S → T → Prop} {s₀ s : S} {t₀ : T}
    {h : List (S × L)} (hrun : Trace step s₀ h s) (hinit : R s₀ t₀)
    (hstep : ∀ s l s' t, R s t → step s l s' → ∃ t', Moves part t (label l) t' ∧ R s' t') :
    ∃ h' t, Trace part t₀ h' t ∧ (h'.map Prod.snd = h.filterMap fun x ↦ label x.2) ∧ R s t := by
  induction hrun with
  | nil => exact ⟨[], t₀, .nil, rfl, hinit⟩
  | @snoc h s s' l _ hs ih =>
    obtain ⟨h', t, hrun', hlabels, hR⟩ := ih
    obtain ⟨t', hmoves, hR'⟩ := hstep s l s' t hR hs
    cases hl : label l with
    | none =>
      rw [hl, moves_none] at hmoves
      refine ⟨h', t, hrun', ?_, hmoves ▸ hR'⟩
      simp [hlabels, hl]
    | some k =>
      rw [hl, moves_some] at hmoves
      refine ⟨h' ++ [(t, k)], t', hrun'.snoc hmoves, ?_, hR'⟩
      simp [hlabels, hl]

end Lib
end ManyTasks
