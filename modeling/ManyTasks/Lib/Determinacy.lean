import ManyTasks.Lib.Stream
import ManyTasks.Lib.Transition

/-!
# Determinacy

A system may leave it open who moves next, and still leave it only one way to end.  `Diamond` is the
reason for that: of two steps from the same state each can still be taken after the other.  Then one
run that comes to a state without steps is enough to know all runs, as they all have its length and
come to the same state (`Inevitable.of_diamond`).

A `Link` is a connection with a program at each end of it.  The programs move one symbol at a time,
so what arrives is cut in every possible way.  Their steps have the diamond property
(`Link.diamond`), since what one of them writes is only put behind what the other has not read yet,
and a program sees the end of the stream only when the other one has ended.  So it is enough to
follow each program alone, with all it needs before it (`Prog.Steps`).
-/

set_option autoImplicit false

namespace ManyTasks
namespace Lib

open Relation

/-! ## The diamond property -/

section Diamond

variable {S : Type} {step : S → S → Prop} {s t : S} {n : ℕ}

/-- Two steps lead to the same state, or each can still be taken after the other. -/
def Diamond (step : S → S → Prop) (s : S) : Prop :=
  ∀ a b, step s a → step s b → a = b ∨ ∃ c, step a c ∧ step b c

/-- There is a run of this length. -/
def InSteps (step : S → S → Prop) : ℕ → S → S → Prop
  | 0, s, t => s = t
  | n + 1, s, t => ∃ s', step s s' ∧ InSteps step n s' t

theorem exists_inSteps (h : ReflTransGen step s t) : ∃ n, InSteps step n s t := by
  induction h using ReflTransGen.head_induction_on with
  | refl => exact ⟨0, rfl⟩
  | head hstep _ ih =>
    obtain ⟨n, hn⟩ := ih
    exact ⟨n + 1, _, hstep, hn⟩

theorem InSteps.reflTransGen (h : InSteps step n s t) : ReflTransGen step s t := by
  induction n generalizing s with
  | zero => exact h ▸ .refl
  | succ n ih =>
    obtain ⟨s', hstep, hrest⟩ := h
    exact .head hstep (ih hrest)

/-- Every step is the first one of a run that is as long. -/
theorem InSteps.next (hdiamond : ∀ a, ReflTransGen step a t → Diamond step a)
    (hend : ∀ u, ¬step t u) (h : InSteps step n s t) {a : S} (ha : step s a) :
    ∃ m, n = m + 1 ∧ InSteps step m a t := by
  induction n generalizing s a with
  | zero =>
    subst h
    exact absurd ha (hend a)
  | succ n ih =>
    have hdiamond_s := hdiamond s h.reflTransGen
    obtain ⟨b, hb, hrest⟩ := h
    rcases hdiamond_s a b ha hb with rfl | ⟨c, hac, hbc⟩
    · exact ⟨n, rfl, hrest⟩
    · obtain ⟨m, rfl, hc⟩ := ih hrest hbc
      exact ⟨m + 1, rfl, c, hac, hc⟩

/-- **One run for all.**  If a run comes to a state without steps, every run comes to it.  The
diamond property is needed only on the way. -/
theorem Inevitable.of_diamond (hdiamond : ∀ a, ReflTransGen step a t → Diamond step a)
    (hend : ∀ u, ¬step t u) (hrun : ReflTransGen step s t) : Inevitable step (· = t) s := by
  obtain ⟨n, hn⟩ := exists_inSteps hrun
  clear hrun
  induction n generalizing s with
  | zero => exact .now hn
  | succ n ih =>
    obtain ⟨b, hb, -⟩ := id hn
    refine .later ⟨b, hb⟩ fun a ha ↦ ?_
    obtain ⟨m, hm, hrest⟩ := hn.next hdiamond hend ha
    exact ih (Nat.succ.inj hm ▸ hrest)

end Diamond

/-! ## Programs alone -/

namespace Prog

variable {β ε α γ : Type} {closed closed' : Prop} {p p' p'' : Prog β Unit ε α}
  {inp inp' inp'' out out' : List β}

/-- The program has returned or thrown. -/
def Ended : Prog β Unit ε α → Prop
  | ret _ => True
  | raise _ => True
  | read _ => False
  | write _ _ => False
  | atomic _ _ => False

theorem Step.not_ended (h : Step closed p () inp p' () inp' out) : ¬p.Ended := by
  cases h <;> exact id

/-- A program has only one step. -/
theorem Step.unique (h : Step closed p () inp p' () inp' out)
    (h' : Step closed p () inp p'' () inp'' out') : p' = p'' ∧ inp' = inp'' ∧ out = out' := by
  cases h <;> cases h' <;> exact ⟨rfl, rfl, rfl⟩

/-- Before the end of the stream, what arrives later does not matter. -/
theorem Step.arrive (h : Step closed p () inp p' () inp' out) (hopen : ¬closed) (more : List β) :
    Step closed' p () (inp ++ more) p' () (inp' ++ more) out := by
  cases h with
  | read => exact .read _ _ _ _
  | eof _ _ hclosed => exact absurd hclosed hopen
  | write => exact .write _ _ _ _
  | atomic => exact .atomic _ _ _ _

theorem Step.of_open (h : Step False p () inp p' () inp' out) :
    Step closed p () inp p' () inp' out := by
  simpa using (h.arrive id [] : Step closed p () (inp ++ []) p' () (inp' ++ []) out)

/-- With `inp` before it the program comes to `p'`; it has left `inp'` and has written `out`. -/
inductive Steps : Prog β Unit ε α → List β → Prog β Unit ε α → List β → List β → Prop where
  | refl (p : Prog β Unit ε α) (inp : List β) : Steps p inp p inp []
  | head {p p' p'' : Prog β Unit ε α} {inp inp' inp'' out out' : List β}
      (h : Step False p () inp p' () inp' out) (hrest : Steps p' inp' p'' inp'' out') :
      Steps p inp p'' inp'' (out ++ out')

theorem Steps.bind (h : Steps p inp p' inp' out) (f : α → Prog β Unit ε γ) :
    Steps (p >>= f) inp (p' >>= f) inp' out := by
  induction h with
  | refl p inp => exact .refl _ _
  | head hstep _ ih => exact .head (hstep.bind f) ih

/-- A program that returns whatever else arrives comes to its end. -/
theorem steps_of_run [Nonempty β] {a : α}
    (hrun : ∀ more, p.run () (inp ++ more) = ⟨.ok a, (), more, out⟩) :
    Steps p inp (ret a) [] out := by
  induction p generalizing inp out with
  | ret a' =>
    obtain ⟨hret, rfl⟩ | ⟨_, _, _, _, hstep⟩ := exists_step False hrun
    · have hout : [] = out := congrArg Outcome.output (hrun [])
      rw [hret, ← hout]
      exact .refl _ _
    · cases hstep
  | raise e =>
    have hresult := congrArg Outcome.result (hrun [])
    simp [run] at hresult
  | read next ih =>
    obtain ⟨hret, -⟩ | ⟨_, _, _, _, hstep⟩ := exists_step False hrun
    · cases hret
    · cases hstep with
      | read _ _ b => exact .head (.read next () b _) (ih (some b) hrun)
      | eof _ _ h => exact h.elim
  | write b next ih =>
    obtain ⟨out', -, rfl⟩ := Outcome.of_prepend_eq (hrun [])
    refine .head (.write b next () inp) (ih fun more ↦ ?_)
    obtain ⟨out'', hnext, hout⟩ := Outcome.of_prepend_eq (hrun more)
    rw [hnext, (List.cons.inj hout).2]
  | atomic update next ih => exact .head (.atomic update next () inp) (ih () hrun)

theorem steps_of_reads [Nonempty β] {a : α} (h : ∀ rest, Reads p (inp ++ rest) a rest) :
    Steps p inp (ret a) [] [] :=
  steps_of_run fun more ↦ h more ()

theorem steps_of_writes [Nonempty β] {p : Prog β Unit ε Unit} (h : Writes p out) :
    Steps p [] (ret ()) [] out :=
  steps_of_run fun more ↦ h () more

end Prog

/-! ## Two programs on a connection -/

/-- A program at each end of a connection, and what has arrived there and has not been read. -/
structure Link (β ε ε' α γ : Type) where
  left : Prog β Unit ε α
  right : Prog β Unit ε' γ
  toLeft : List β
  toRight : List β

namespace Link

variable {β ε ε' α γ : Type} {d : Link β ε ε' α γ}

/-- One of the programs moves.  The stream to it ends when the other one has ended. -/
inductive Step (d : Link β ε ε' α γ) : Link β ε ε' α γ → Prop where
  | left {p : Prog β Unit ε α} {inp out : List β}
      (h : Prog.Step d.right.Ended d.left () d.toLeft p () inp out) :
      Step d ⟨p, d.right, inp, d.toRight ++ out⟩
  | right {q : Prog β Unit ε' γ} {inp out : List β}
      (h : Prog.Step d.left.Ended d.right () d.toRight q () inp out) :
      Step d ⟨d.left, q, d.toLeft ++ out, inp⟩

theorem diamond (d : Link β ε ε' α γ) : Diamond Step d := by
  intro a b ha hb
  cases ha with
  | left h =>
    cases hb with
    | left h' =>
      obtain ⟨rfl, rfl, rfl⟩ := h.unique h'
      exact .inl rfl
    | right h' => exact .inr ⟨_, .right (h'.arrive h.not_ended _), .left (h.arrive h'.not_ended _)⟩
  | right h =>
    cases hb with
    | left h' => exact .inr ⟨_, .left (h'.arrive h.not_ended _), .right (h.arrive h'.not_ended _)⟩
    | right h' =>
      obtain ⟨rfl, rfl, rfl⟩ := h.unique h'
      exact .inl rfl

/-- What the left program does alone. -/
theorem left_steps {p p' : Prog β Unit ε α} {inp inp' out : List β} (h : p.Steps inp p' inp' out)
    (q : Prog β Unit ε' γ) (toRight : List β) :
    ReflTransGen Step ⟨p, q, inp, toRight⟩ ⟨p', q, inp', toRight ++ out⟩ := by
  induction h generalizing toRight with
  | refl p inp => exact (List.append_nil toRight).symm ▸ .refl
  | head hstep _ ih =>
    rw [← List.append_assoc]
    exact .head (.left hstep.of_open) (ih _)

/-- What the right program does alone. -/
theorem right_steps {q q' : Prog β Unit ε' γ} {inp inp' out : List β} (h : q.Steps inp q' inp' out)
    (p : Prog β Unit ε α) (toLeft : List β) :
    ReflTransGen Step ⟨p, q, toLeft, inp⟩ ⟨p, q', toLeft ++ out, inp'⟩ := by
  induction h generalizing toLeft with
  | refl q inp => exact (List.append_nil toLeft).symm ▸ .refl
  | head hstep _ ih =>
    rw [← List.append_assoc]
    exact .head (.right hstep.of_open) (ih _)

/-- The end of both programs is the end. -/
theorem not_step_of_ended (hleft : d.left.Ended) (hright : d.right.Ended) (d' : Link β ε ε' α γ) :
    ¬Step d d' := by
  intro h
  cases h with
  | left h => exact h.not_ended hleft
  | right h => exact h.not_ended hright

end Link

end Lib
end ManyTasks
