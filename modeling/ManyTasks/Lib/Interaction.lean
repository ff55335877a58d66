import Mathlib.Logic.Basic
import Mathlib.Tactic.Basic

/-!
# Programs that ask

A `Proc Op Res α` asks its environment for operations of type `Op`, one after the other, and goes on
with the answer; the answer to `op` is of type `Res op`.  A program that also throws is an `ExceptT
ε (Proc Op Res) α`.

An environment is a relation `env s op r s'`: in the state `s` it may answer the operation `op` with
`r` and be in the state `s'` afterwards.  It may have a choice, and it may have no answer.

* `Ends env Q p s`: whatever the answers are, the program gets one each time, and returns with `Q`
  at last.
* `Yields env p s a s'`: and what it returns with is always `a` and `s'`.  What follows such a
  program can be looked at on its own (`Yields.bind`).
* `Path p h q`: with the answers in `h` the program `p` comes to `q`.

That an environment does not answer is also a way to say what a program must not do: a program that
`Ends` has never asked for it.
-/

set_option autoImplicit false

namespace ManyTasks
namespace Lib

/-- A program that asks for operations. -/
inductive Proc (Op : Type) (Res : Op → Type) (α : Type) where
  | ret (a : α)
  | act (op : Op) (next : Res op → Proc Op Res α)

namespace Proc

variable {Op : Type} {Res : Op → Type} {ε α γ S : Type}

/-- Sequencing. -/
def bind : Proc Op Res α → (α → Proc Op Res γ) → Proc Op Res γ
  | ret a, f => f a
  | act op next, f => act op fun r ↦ (next r).bind f

instance : Monad (Proc Op Res) where
  pure := ret
  bind := bind

instance : LawfulMonad (Proc Op Res) := by
  refine LawfulMonad.mk' _ (fun p ↦ ?_) (fun a f ↦ rfl) (fun p f g ↦ ?_)
  · change p.bind ret = p
    induction p with
    | ret a => rfl
    | act op next ih => exact congrArg (act op) (funext ih)
  · change (p.bind f).bind g = p.bind fun a ↦ (f a).bind g
    induction p with
    | ret a => rfl
    | act op next ih => exact congrArg (act op) (funext ih)

/-- One operation. -/
def ask (op : Op) : Proc Op Res (Res op) := act op ret

/-- What is left of a program after one answer. -/
inductive Child : Proc Op Res α → Proc Op Res α → Prop
  | mk (op : Op) (next : Res op → Proc Op Res α) (r : Res op) : Child (next r) (act op next)

/-- No program asks for ever. -/
theorem wellFounded_child : WellFounded (@Child Op Res α) := by
  refine ⟨fun p ↦ ?_⟩
  induction p with
  | ret a => exact ⟨_, fun _ h ↦ nomatch h⟩
  | act op next ih =>
    refine ⟨_, fun q h ↦ ?_⟩
    cases h with
    | mk _ _ r => exact ih r

/-! ## What a program comes to -/

section Ends

variable (env : S → (op : Op) → Res op → S → Prop)

/-- Every answer there is leads to `Q`, and there is always one. -/
def Ends (Q : α → S → Prop) : Proc Op Res α → S → Prop
  | ret a, s => Q a s
  | act op next, s => (∃ r s', env s op r s') ∧ ∀ r s', env s op r s' → Ends Q (next r) s'

/-- The program always comes to `a` and `s'`. -/
def Yields (p : Proc Op Res α) (s : S) (a : α) (s' : S) : Prop :=
  Ends env (fun b t ↦ b = a ∧ t = s') p s

end Ends

variable {env : S → (op : Op) → Res op → S → Prop} {Q R : α → S → Prop}

theorem ends_pure {a : α} {s : S} : Ends env Q (pure a) s ↔ Q a s := Iff.rfl

theorem ends_bind {Q : γ → S → Prop} {p : Proc Op Res α} {f : α → Proc Op Res γ} {s : S} :
    Ends env Q (p >>= f) s ↔ Ends env (fun a s' ↦ Ends env Q (f a) s') p s := by
  induction p generalizing s with
  | ret a => exact Iff.rfl
  | act op next ih => exact and_congr Iff.rfl (forall_congr' fun r ↦ forall₂_congr fun s' _ ↦ ih r)

theorem Ends.mono {p : Proc Op Res α} {s : S} (h : Ends env Q p s) (hQR : ∀ a s', Q a s' → R a s') :
    Ends env R p s := by
  induction p generalizing s with
  | ret a => exact hQR a s h
  | act op next ih => exact ⟨h.1, fun r s' hr ↦ ih r (h.2 r s' hr)⟩

theorem Ends.and {p : Proc Op Res α} {s : S} (hQ : Ends env Q p s) (hR : Ends env R p s) :
    Ends env (fun a s' ↦ Q a s' ∧ R a s') p s := by
  induction p generalizing s with
  | ret a => exact ⟨hQ, hR⟩
  | act op next ih => exact ⟨hQ.1, fun r s' hr ↦ ih r (hQ.2 r s' hr) (hR.2 r s' hr)⟩

/-- A program that ends comes to something. -/
theorem Ends.exists {p : Proc Op Res α} {s : S} (h : Ends env Q p s) : ∃ a s', Q a s' := by
  induction p generalizing s with
  | ret a => exact ⟨a, s, h⟩
  | act op next ih =>
    obtain ⟨⟨r, s', hr⟩, hnext⟩ := h
    exact ih r (hnext r s' hr)

/-- What a program comes to decides. -/
theorem Yields.ends_iff {p : Proc Op Res α} {s s' : S} {a : α} (h : Yields env p s a s') :
    Ends env Q p s ↔ Q a s' := by
  constructor
  · intro hQ
    obtain ⟨_, _, ⟨rfl, rfl⟩, hQ⟩ := (Ends.and h hQ).exists
    exact hQ
  · intro hQ
    refine h.mono ?_
    rintro _ _ ⟨rfl, rfl⟩
    exact hQ

theorem yields_pure (a : α) (s : S) : Yields env (pure a) s a s := ⟨rfl, rfl⟩

theorem yields_ask {op : Op} {r : Res op} {s s' : S} (h : env s op r s')
    (hall : ∀ r₁ s₁, env s op r₁ s₁ → r₁ = r ∧ s₁ = s') : Yields env (ask op) s r s' :=
  ⟨⟨r, s', h⟩, hall⟩

/-! ## With exceptions -/

section Except

variable {Q : Except ε γ → S → Prop}

/-- What follows a program that returns. -/
theorem Yields.bind {p : ExceptT ε (Proc Op Res) α} {f : α → ExceptT ε (Proc Op Res) γ} {s s' : S}
    {a : α}
    (h : Yields env p.run s (.ok a) s') : Ends env Q (p >>= f).run s ↔ Ends env Q (f a).run s' := by
  rw [ExceptT.run_bind, ends_bind, h.ends_iff]

/-- Nothing follows a program that throws. -/
theorem Yields.bind_error {p : ExceptT ε (Proc Op Res) α} {f : α → ExceptT ε (Proc Op Res) γ}
    {s s' : S}
    {e : ε} (h : Yields env p.run s (.error e) s') :
    Ends env Q (p >>= f).run s ↔ Q (.error e) s' := by
  rw [ExceptT.run_bind, ends_bind, h.ends_iff]
  rfl

theorem Yields.map {p : ExceptT ε (Proc Op Res) α} {s s' : S} {r : Except ε α} (f : α → γ)
    (h : Yields env p.run s r s') : Yields env (f <$> p).run s (r.map f) s' := by
  rw [Yields, ExceptT.run_map, map_eq_pure_bind, ends_bind, h.ends_iff]
  exact ⟨rfl, rfl⟩

/-- Where something always holds of the state, it holds at the end of both parts. -/
theorem ends_bind_of_kept {G : S → Prop} {p : ExceptT ε (Proc Op Res) α}
    {f : α → ExceptT ε (Proc Op Res) γ} {s : S}
    (hp : Ends env (fun _ s' ↦ G s') p.run s) (hf : ∀ a s', G s' →
      Ends env (fun _ s' ↦ G s') (f a).run s') :
    Ends env (fun _ s' ↦ G s') (p >>= f).run s := by
  rw [ExceptT.run_bind, ends_bind]
  refine hp.mono ?_
  rintro (e | a) s' hG
  · exact hG
  · exact hf a s' hG

/-- What must hold of a program with a handler: where it throws, the handler goes on. -/
def caught (Q : Except ε γ → S → Prop) (handled : ε → S → Prop) : Except ε γ → S → Prop
  | .ok c, s => Q (.ok c) s
  | .error e, s => handled e s

theorem ends_tryCatch {p : ExceptT ε (Proc Op Res) γ} {f : ε → ExceptT ε (Proc Op Res) γ} {s : S} :
    Ends env Q (tryCatch p f).run s
      ↔ Ends env (caught Q fun e s' ↦ Ends env Q (f e).run s') p.run s := by
  have hrun : (tryCatch p f).run = p.run >>= fun r ↦ match r with
      | .ok c => pure (.ok c)
      | .error e => (f e).run := rfl
  rw [hrun, ends_bind]
  constructor
  · refine fun h ↦ h.mono ?_
    rintro (e | c) s' h
    · exact h
    · exact h
  · refine fun h ↦ h.mono ?_
    rintro (e | c) s' h
    · exact h
    · exact h

end Except

/-! ## Paths -/

/-- An operation and its answer. -/
abbrev Event (Op : Type) (Res : Op → Type) : Type := (op : Op) × Res op

/-- With these answers the program `p` comes to `q`. -/
inductive Path : Proc Op Res α → List (Event Op Res) → Proc Op Res α → Prop
  | nil {p : Proc Op Res α} : Path p [] p
  | cons {op : Op} {next : Res op → Proc Op Res α} {r : Res op} {h : List (Event Op Res)}
      {q : Proc Op Res α}
      (hpath : Path (next r) h q) : Path (act op next) (⟨op, r⟩ :: h) q

theorem Path.append {p q o : Proc Op Res α} {h h' : List (Event Op Res)} (hpq : Path p h q)
    (hqo : Path q h' o) : Path p (h ++ h') o := by
  induction hpq with
  | nil => exact hqo
  | cons _ ih => exact cons (ih hqo)

theorem Path.snoc {p : Proc Op Res α} {op : Op} {next : Res op → Proc Op Res α}
    {h : List (Event Op Res)}
    (hpath : Path p h (act op next)) (r : Res op) : Path p (h ++ [⟨op, r⟩]) (next r) :=
  hpath.append (cons nil)

theorem Path.snoc_tryCatch {p : Proc Op Res (Except ε α)} {op : Op}
    {next : Res op → Proc Op Res (Except ε α)}
    {f : ε → ExceptT ε (Proc Op Res) α} {h : List (Event Op Res)}
    (hpath : Path p h (tryCatch (ExceptT.mk (act op next)) f).run) (r : Res op) :
    Path p (h ++ [⟨op, r⟩]) (tryCatch (ExceptT.mk (next r)) f).run :=
  hpath.append (cons nil)

theorem Path.ret_inv {a : α} {h : List (Event Op Res)} {q : Proc Op Res α}
    (hpath : Path (ret a) h q) :
    h = [] ∧ q = ret a := by
  cases hpath
  exact ⟨rfl, rfl⟩

theorem Path.act_inv {op : Op} {next : Res op → Proc Op Res α} {h : List (Event Op Res)}
    {q : Proc Op Res α}
    (hpath : Path (act op next) h q) : h = [] ∨ ∃ r h', h = ⟨op, r⟩ :: h' ∧ Path (next r) h' q := by
  cases hpath with
  | nil => exact Or.inl rfl
  | cons hpath => exact Or.inr ⟨_, _, rfl, hpath⟩

/-- The same answers lead to the same operation. -/
theorem Path.op_unique {p q q' : Proc Op Res α} {h t t' : List (Event Op Res)} {op op' : Op}
    {r : Res op}
    {r' : Res op'} (hq : Path p (h ++ ⟨op, r⟩ :: t) q) (hq' : Path p (h ++ ⟨op', r'⟩ :: t') q') :
    op = op' := by
  induction h generalizing p with
  | nil =>
    cases hq
    cases hq'
    rfl
  | cons e h ih =>
    cases hq with
    | cons hq =>
      cases hq' with
      | cons hq' => exact ih hq hq'

end Proc
end Lib
end ManyTasks
