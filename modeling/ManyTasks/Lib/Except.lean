import Mathlib.Init

/-!
# Taking an `Except` computation apart

A program in the `Except` monad that returned, returned at every one of its steps.  `bind_eq_ok`
is that fact for one step: rewriting with it turns "this `do` block is `.ok r`" into the
intermediate results the block went through, one existential for each bind.
-/

set_option autoImplicit false

universe u v

namespace ManyTasks
namespace Lib

variable {ε : Type u} {α β : Type v}

theorem bind_eq_ok {x : Except ε α} {f : α → Except ε β} {b : β} :
    x >>= f = .ok b ↔ ∃ a, x = .ok a ∧ f a = .ok b := by
  cases x with
  | error e =>
    constructor
    · intro h; cases h
    · rintro ⟨a, ha, -⟩; cases ha
  | ok a =>
    constructor
    · exact fun h ↦ ⟨a, rfl, h⟩
    · rintro ⟨a, ha, h⟩; cases ha; exact h

@[simp] theorem ok_bind (a : α) (f : α → Except ε β) : (Except.ok a : Except ε α) >>= f = f a := rfl

@[simp] theorem error_bind (e : ε) (f : α → Except ε β) :
    (Except.error e : Except ε α) >>= f = .error e := rfl

@[simp] theorem throw_eq_error (e : ε) : (throw e : Except ε α) = .error e := rfl

@[simp] theorem pure_eq_ok (a : α) : (pure a : Except ε α) = .ok a := rfl

/-- Two results are the same if both are errors, or both are none and they agree. -/
theorem toOption_eq_iff {x y : Except ε α} (h : ∀ a b, x = .ok a → y = .ok b → a = b) :
    x.toOption = y.toOption ↔ ((∃ a, x = .ok a) ↔ ∃ b, y = .ok b) := by
  cases x with
  | error e =>
    cases y with
    | error e' => exact iff_of_true rfl (iff_of_false nofun nofun)
    | ok b => exact iff_of_false nofun fun hiff ↦ nomatch hiff.2 ⟨b, rfl⟩
  | ok a =>
    cases y with
    | error e' => exact iff_of_false nofun fun hiff ↦ nomatch hiff.1 ⟨a, rfl⟩
    | ok b => exact iff_of_true (congrArg some (h a b rfl rfl)) (iff_of_true ⟨a, rfl⟩ ⟨b, rfl⟩)

end Lib
end ManyTasks
