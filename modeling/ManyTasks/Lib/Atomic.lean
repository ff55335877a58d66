import ManyTasks.Lib.Transition
import Mathlib.Logic.Function.Basic

/-!
# Objects that several threads use

An object has operations; `apply` says what an operation does to its state, and what it returns.  If
several threads use it, an operation is a call that begins and returns later, with others in
between.

The ideal is that the call takes effect at one moment after it has begun and before it returns.
This is `Atomic`, of which `Atomic.Step` are the steps.  An implementation is `Linearizable` if
nothing that can be seen of it from outside, when calls begin and what they return, cannot be seen
of this ideal as well.

A call is known by an identifier of its own.  A thread that makes several calls makes them under
several identifiers, one after the other.
-/

set_option autoImplicit false

namespace ManyTasks
namespace Lib

variable {C O R A S : Type}

open Function (update)

/-- What is seen of a step. -/
inductive Label (C O R : Type) where
  | call (c : C) (op : O)
  | ret (c : C) (res : R)
  | tau
deriving DecidableEq

/-- How far a call has come. -/
inductive Progress (O R : Type) where
  | idle
  | called (op : O)
  /-- It has taken effect. -/
  | done (op : O) (res : R)
  | returned (op : O) (res : R)
deriving DecidableEq

/-- The call and its result, once it has taken effect. -/
def Progress.result : Progress O R → Option (O × R)
  | .done op res | .returned op res => some (op, res)
  | _ => none

/-- An object and the calls. -/
structure Atomic (C O R A : Type) where
  state : A
  calls : C → Progress O R

/-- No call has begun. -/
def Atomic.init (a : A) : Atomic C O R A := ⟨a, fun _ ↦ .idle⟩

/-- The results of the calls that have taken effect. -/
def Atomic.results (o : Atomic C O R A) (c : C) : Option (O × R) := (o.calls c).result

variable [DecidableEq C] (apply : A → O → R × A)

/-- Calls begin, take effect at one moment, and return. -/
inductive Atomic.Step : Atomic C O R A → Label C O R → Atomic C O R A → Prop where
  | call {o} (c op) (h : o.calls c = .idle) :
      Step o (.call c op) { o with calls := update o.calls c (.called op) }
  | effect {o} (c op) (h : o.calls c = .called op) :
      Step o .tau ⟨(apply o.state op).2, update o.calls c (.done op (apply o.state op).1)⟩
  | stutter {o} : Step o .tau o
  | ret {o} (c op res) (h : o.calls c = .done op res) :
      Step o (.ret c res) { o with calls := update o.calls c (.returned op res) }

/-- Whatever is seen of the system can be seen of the object. -/
def Linearizable (step : S → Label C O R → S → Prop) (s₀ : S) (a : A) : Prop :=
  ∀ h s, Trace step s₀ h s →
    ∃ h' o, Trace (Atomic.Step apply) (.init a) h' o ∧ h'.map Prod.snd = h.map Prod.snd

variable {apply}

/-- A call has a result from the moment on at which it takes effect. -/
theorem Atomic.Step.results {o o' : Atomic C O R A} {l : Label C O R}
    (h : Atomic.Step apply o l o') :
    (o'.state = o.state ∧ o'.results = o.results) ∨
      ∃ c op, o.results c = none ∧ o'.state = (apply o.state op).2 ∧
        o'.results = update o.results c (some (op, (apply o.state op).1)) := by
  have hupdate (c : C) (p : Progress O R) :
      (fun c' ↦ (update o.calls c p c').result) = update o.results c p.result :=
    Function.comp_update Progress.result o.calls c p
  have hsame (c : C) (p : Progress O R) (hp : p.result = o.results c) :
      (fun c' ↦ (update o.calls c p c').result) = o.results := by
    rw [hupdate, hp, Function.update_eq_self]
  cases h with
  | call c op h => exact .inl ⟨rfl, hsame c _ (congrArg Progress.result h).symm⟩
  | effect c op h => exact .inr ⟨c, op, congrArg Progress.result h, rfl, hupdate c _⟩
  | stutter => exact .inl ⟨rfl, rfl⟩
  | ret c op res h => exact .inl ⟨rfl, hsame c _ (congrArg Progress.result h).symm⟩

end Lib
end ManyTasks
