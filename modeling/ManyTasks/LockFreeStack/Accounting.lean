import ManyTasks.LockFreeStack.Refinement

/-!
# Where the values are

Every value that has been pushed has been returned by `Pop`, or its node retired by `Clear`, or it
is in the hands of a call, or on the stack; and it is at one of these places only.  In the abstract
this follows from the steps (`Accounts.step`), and the code does the steps of the abstract stack.
-/

set_option autoImplicit false

namespace ManyTasks
namespace LockFreeStack

open Function (update)
open Lib (Balance Chain Trace)

variable {C A V : Type}

def Label.pushed : Label C A V → Option V
  | .push _ value => some value
  | _ => none

def Label.returned : Label C A V → Option V
  | .popped _ value => some value
  | _ => none

def Label.dropped : Label C A V → Option V
  | .cleared _ value => some value
  | _ => none

/-- The values of the steps of one kind. -/
def values (f : Label C A V → Option V) (h : List (State C A V × Label C A V)) : Multiset V :=
  h.filterMap fun x ↦ f x.2

/-- The values that `Push` has put on the stack. -/
def pushed (h : List (State C A V × Label C A V)) : Multiset V := values Label.pushed h

/-- The values that `Pop` has returned. -/
def returned (h : List (State C A V × Label C A V)) : Multiset V := values Label.returned h

/-- The values in the nodes that `Clear` has retired. -/
def dropped (h : List (State C A V × Label C A V)) : Multiset V := values Label.dropped h

theorem values_append (f : Label C A V → Option V) (h : List (State C A V × Label C A V))
    (s : State C A V) (l : Label C A V) :
    values f (h ++ [(s, l)]) = values f h + ((f l).toList : Multiset V) := by
  rw [values, Lib.filterMap_snoc, ← Multiset.coe_add, values]

/-- Everything is at one place. -/
def Accounts (h : List (State C A V × Label C A V)) (o : Abstract C V) : Prop :=
  Balance o.hands o.stack (pushed h) (returned h + dropped h)

/-- A value goes from one place to another. -/
theorem Accounts.step [DecidableEq C] {h : List (State C A V × Label C A V)} {s : State C A V}
    {o o' : Abstract C V} {l : Label C A V} (hacc : Accounts h o) (hstep : Abstract.Step o l o') :
    Accounts (h ++ [(s, l)]) o' := by
  simp only [Accounts, pushed, returned, dropped, values_append] at hacc ⊢
  cases hstep with
  | push c value =>
    rw [← Function.update_eq_self c o.hands]
    refine hacc.move ?_
    simp only [Label.pushed, Label.returned, Label.dropped, Option.toList, ← Multiset.cons_coe,
      ← Multiset.singleton_add, Multiset.coe_nil, add_zero]
    abel
  | pop c value rest hstack hc =>
    refine hacc.move ?_
    simp only [Label.pushed, Label.returned, Label.dropped, Option.toList, hstack, hc,
      ← Multiset.cons_coe, ← Multiset.singleton_add, Multiset.coe_nil, add_zero]
    abel
  | clear c hc =>
    refine hacc.move ?_
    simp only [Label.pushed, Label.returned, Label.dropped, Option.toList, hc, Multiset.coe_nil,
      add_zero]
  | popped c value hc =>
    refine hacc.move ?_
    simp only [Label.pushed, Label.returned, Label.dropped, Option.toList, hc, ← Multiset.cons_coe,
      ← Multiset.singleton_add, Multiset.coe_nil, add_zero]
    abel
  | cleared c value rest hc =>
    refine hacc.move ?_
    simp only [Label.pushed, Label.returned, Label.dropped, Option.toList, hc, ← Multiset.cons_coe,
      ← Multiset.singleton_add, Multiset.coe_nil, add_zero]
    abel
  | empty | tau | free => simpa [Label.pushed, Label.returned, Label.dropped] using hacc

/-! ## The main result -/

/-- The values that a call has taken from the stack, and not yet returned or retired. -/
def Place.Holds (next : A → Option A) (value : A → V) : Place A V → List V → Prop
  | .moving a, vs => vs = [value a]
  | .releasing _ value, vs | .retiring _ value, vs => vs = [value]
  | .walking old_head, vs => ∃ as, Chain next old_head as ∧ vs = as.map value
  | .dropping a old_head, vs => ∃ as, Chain next old_head as ∧ vs = value a :: as.map value
  | _, vs => vs = []

/-- The list from `head_` has the nodes `as` and ends, and the values in it are the stack. -/
structure Represents (s : State C A V) (as : List A) (o : Abstract C V) : Prop where
  chain : Chain s.next s.head_ as
  nodup : as.Nodup
  stack : o.stack = as.map s.value
  hands : ∀ c, (s.places c).Holds s.next s.value (o.hands c)

theorem Place.Owns.holds {next : A → Option A} {value : A → V} {p : Place A V} {as : List A}
    (h : p.Owns next as) : p.Holds next value (p.values value as) := by
  cases p with
  | moving a =>
    rw [show as = [a] from h]
    rfl
  | walking old_head => exact ⟨as, h, rfl⟩
  | dropping a old_head =>
    obtain ⟨bs, rfl, hchain⟩ := h
    exact ⟨bs, hchain, rfl⟩
  | _ => rfl

variable [DecidableEq C] [DecidableEq A]

omit [DecidableEq C] [DecidableEq A] in
theorem Inv.represents {owned : Option C → List A} {s : State C A V} (hinv : Inv owned s) :
    Represents s (owned none) (abs owned s) where
  chain := hinv.chain
  nodup := hinv.exclusive.nodup none
  stack := rfl
  hands c := (hinv.owns c).holds

/-- **The stack is a stack.**  Whatever the calls do and in whatever order, the list from `head_`
ends and comes to no node twice; what has been pushed is what has been returned by `Pop`, retired by
`Clear`, is in the hands of a call or on the list, each value at one place, so that none is returned
more often than it has been pushed; and the next step is one of the abstract stack, where the
exchanges of `head_` are push, pop and take-all. -/
theorem stack_refinement {nodes : A → Node A V} {h : List (State C A V × Label C A V)}
    {s : State C A V} (hrun : Trace Step (init nodes) h s) :
    ∃ as o, Represents s as o ∧ Accounts h o ∧ returned h ≤ pushed h ∧
      ∀ l s', Step s l s' → ∃ as' o', Represents s' as' o' ∧ Abstract.Step o l o' := by
  have hinv : ∃ owned, Inv owned s ∧ Accounts h (abs owned s) := by
    refine hrun.invariant (I := fun h s ↦ ∃ owned, Inv owned s ∧ Accounts h (abs owned s))
      ⟨_, inv_init nodes, Lib.balance_zero⟩ fun h s l s' hI hstep ↦ ?_
    obtain ⟨owned, hinv, hacc⟩ := hI
    obtain ⟨owned', hinv', habs⟩ := hinv.step hstep
    exact ⟨owned', hinv', hacc.step habs⟩
  obtain ⟨owned, hinv, hacc⟩ := hinv
  refine ⟨owned none, abs owned s, hinv.represents, hacc,
    (Multiset.le_add_right _ _).trans hacc.gone_le, fun l s' hstep ↦ ?_⟩
  obtain ⟨owned', hinv', habs⟩ := hinv.step hstep
  exact ⟨_, _, hinv'.represents, habs⟩

/-- One call pushes a value, another pops it, and the node is freed. -/
theorem stack_refinement_two : ∃ h s,
    Trace Step (init fun _ ↦ ⟨0, none⟩ : State Bool ℕ ℕ) h s ∧ returned h = {7} ∧
      ∃ as o, Represents s as o ∧ Accounts h o ∧ returned h ≤ pushed h ∧
        ∀ l s', Step s l s' → ∃ as' o', Represents s' as' o' ∧ Abstract.Step o l o' := by
  have hrun := (.nil : Trace Step (init fun _ ↦ ⟨0, none⟩ : State Bool ℕ ℕ) [] _)
    |>.snoc (.callPush true 7 rfl)
    |>.snoc (.pushLoad true 7 rfl)
    |>.snoc (.allocate true 7 none 0 rfl rfl)
    |>.snoc (.push true 7 0 none rfl rfl)
    |>.snoc (.callPop false rfl)
    |>.snoc (.acquireLoad false rfl)
    |>.snoc (.acquired false 0 rfl rfl)
    |>.snoc (.read false 0 rfl)
    |>.snoc (.pop false 0 none rfl rfl)
    |>.snoc (.move false 0 0 rfl)
    |>.snoc (.release false 0 7 rfl)
    |>.snoc (.retire false 0 7 rfl)
    |>.snoc (.free 0 ⟨1, some 1⟩ rfl (by rintro (_ | _) <;> nofun))
  exact ⟨_, _, hrun, rfl, stack_refinement hrun⟩

end LockFreeStack
end ManyTasks
