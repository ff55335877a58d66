import ManyTasks.MpscQueue.Refinement

/-!
# Where the values are

Every value that has been pushed has been delivered, or is in the hand of the consumer, or is on the
list, and it is at one of these places only.  In the abstract this follows from the steps
(`Accounts.step`), and the code does the steps of the abstract stack.  No thread ever follows a null
pointer or one to a node that has been deleted (`Safe`).
-/

set_option autoImplicit false

namespace ManyTasks
namespace MpscQueue

open Lib (Chain Trace)

variable {Θ A V : Type}

def Label.pushed : Label Θ V → Option V
  | .push _ value => some value
  | _ => none

def Label.delivered : Label Θ V → Option V
  | .deliver value => some value
  | _ => none

/-- The values that `Push` has put on the stack. -/
def pushed (h : List (State Θ A V × Label Θ V)) : Multiset V := h.filterMap fun x ↦ x.2.pushed

/-- The values that `Pop` has returned or `DequeueAll` has given to its callback. -/
def delivered (h : List (State Θ A V × Label Θ V)) : Multiset V := h.filterMap fun x ↦ x.2.delivered

/-- Everything is at one place. -/
def Accounts (h : List (State Θ A V × Label Θ V)) (o : Abstract V) : Prop :=
  pushed h = delivered h + (o.hand : Multiset V) + (o.stack : Multiset V)

theorem pushed_append (h : List (State Θ A V × Label Θ V)) (s : State Θ A V) (lab : Label Θ V) :
    pushed (h ++ [(s, lab)]) = pushed h + (lab.pushed.toList : Multiset V) := by
  rw [pushed, Lib.filterMap_snoc, ← Multiset.coe_add, pushed]

theorem delivered_append (h : List (State Θ A V × Label Θ V)) (s : State Θ A V) (lab : Label Θ V) :
    delivered (h ++ [(s, lab)]) = delivered h + (lab.delivered.toList : Multiset V) := by
  rw [delivered, Lib.filterMap_snoc, ← Multiset.coe_add, delivered]

/-- A value goes from one place to another. -/
theorem Accounts.step {h : List (State Θ A V × Label Θ V)} {s : State Θ A V} {o o' : Abstract V}
    {lab : Label Θ V} (hacc : Accounts h o) (hstep : Abstract.Step o lab o') :
    Accounts (h ++ [(s, lab)]) o' := by
  rw [Accounts] at hacc
  rw [Accounts, pushed_append, delivered_append, hacc]
  cases hstep with
  | push θ value =>
    simp only [Label.pushed, Label.delivered, Option.toList, ← Multiset.cons_coe,
      ← Multiset.singleton_add, Multiset.coe_nil, add_zero]
    abel
  | pop value rest hstack hhand =>
    simp only [Label.pushed, Label.delivered, Option.toList, hstack, hhand, ← Multiset.cons_coe,
      ← Multiset.singleton_add, Multiset.coe_nil, add_zero]
    abel
  | takeAll hhand => simp [Label.pushed, Label.delivered, hhand]
  | deliver value rest hhand =>
    simp only [Label.pushed, Label.delivered, Option.toList, hhand, ← Multiset.cons_coe,
      ← Multiset.singleton_add, Multiset.coe_nil, add_zero]
    abel
  | empty | tau => simp [Label.pushed, Label.delivered]

/-! ## The main result -/

/-- The list from `head_` has the nodes `as` and ends, the values in it are the stack, and the
consumer has the values in its hand in its own nodes, which are others. -/
structure Represents (consumer : Θ) (s : State Θ A V) (as : List A) (o : Abstract V) : Prop where
  chain : Chain s.next s.head_ as
  stack : o.stack = as.map s.value
  hand : ∃ bs, (s.places consumer).Owns s.next bs ∧
    o.hand = (s.places consumer).values s.value bs ∧ (as ++ bs).Nodup

/-- Every pointer that a thread is about to follow is one to a node that is there. -/
def Safe (s : State Θ A V) : Prop :=
  ∀ θ p, (s.places θ).follows = some p → ∃ a, p = some a ∧ s.allocated a = true

section

variable {consumer : Θ} {owned : Option Θ → List A} {s : State Θ A V}

theorem inv_init (nodes : A → Node A V) :
    Inv consumer (fun _ ↦ []) (init nodes : State Θ A V) where
  chain := Lib.chain_nil
  owns _ := rfl
  exclusive := Lib.exclusive_nil
  allocated h := absurd h List.not_mem_nil
  knows _ := trivial
  consumer _ h := by cases h

theorem Inv.represents (hinv : Inv consumer owned s) :
    Represents consumer s (owned none) (abs consumer owned s) where
  chain := hinv.chain
  stack := rfl
  hand := by
    refine ⟨owned (some consumer), hinv.owns consumer, rfl, List.nodup_append.mpr ?_⟩
    refine ⟨hinv.exclusive.nodup none, hinv.exclusive.nodup _, fun a ha b hb ↦ ?_⟩
    rintro rfl
    exact hinv.notMem_list hb ha

/-- What a thread follows is its own, or was seen on the list by the consumer and is still there. -/
theorem Inv.safe (hinv : Inv consumer owned s) : Safe s := by
  intro θ p hp
  have hθ := hinv.owns θ
  have hknows := hinv.knows θ
  rcases hplace : s.places θ with _ | _ | _ | _ | _ | ⟨_, a, _⟩ | _ | _ | old_head | _ | a |
    ⟨a, _⟩ | _ | _ | (_ | a) | ⟨a, next⟩ | ⟨a, next⟩
  all_goals
    rw [hplace] at hp hθ hknows
    simp only [Place.follows, reduceCtorEq, Option.some.injEq] at hp
  case linking | moving | deleting =>
    have hnodes : owned (some θ) = [a] := hθ
    exact ⟨a, hp.symm, hinv.allocated (k := some θ) (by simp [hnodes])⟩
  case reading =>
    obtain ⟨a, ha, heq⟩ := hknows
    exact ⟨a, hp ▸ heq, hinv.allocated ha⟩
  case walking.some =>
    obtain ⟨rest, hnodes, -⟩ := Chain.exists_cons hθ
    exact ⟨a, hp.symm, hinv.allocated (k := some θ) (by simp [hnodes])⟩
  case calling | dropping =>
    obtain ⟨rest, hnodes, -⟩ := hθ
    exact ⟨a, hp.symm, hinv.allocated (k := some θ) (by simp [hnodes])⟩

end

variable [DecidableEq Θ] [DecidableEq A]

/-- **The queue is a stack with one consumer.**  Whatever the threads do and in whatever order, the
list from `head_` ends; what has been pushed is what has been delivered, is in the hand of the
consumer or on the list, each value at one place, so that none is delivered more often than it has
been pushed; no node is followed that has been deleted; and the next step is one of the abstract
stack, where the exchanges of `head_` are push, pop and take-all, values are delivered from the top,
and `Pop` gives up only if there is nothing on it. -/
theorem queue_refinement {consumer : Θ} {nodes : A → Node A V} {h : List (State Θ A V × Label Θ V)}
    {s : State Θ A V} (hrun : Trace (Step consumer) (init nodes) h s) :
    ∃ as o, Represents consumer s as o ∧ Accounts h o ∧ delivered h ≤ pushed h ∧ Safe s ∧
      ∀ lab s', Step consumer s lab s' →
        ∃ as' o', Represents consumer s' as' o' ∧ Abstract.Step o lab o' := by
  have hinv : ∃ owned, Inv consumer owned s ∧ Accounts h (abs consumer owned s) := by
    refine hrun.invariant
      (I := fun h s ↦ ∃ owned, Inv consumer owned s ∧ Accounts h (abs consumer owned s))
      ⟨_, inv_init nodes, rfl⟩ fun h s lab s' hI hstep ↦ ?_
    obtain ⟨owned, hinv, hacc⟩ := hI
    obtain ⟨owned', hinv', habs⟩ := hinv.step hstep
    exact ⟨owned', hinv', hacc.step habs⟩
  obtain ⟨owned, hinv, hacc⟩ := hinv
  refine ⟨owned none, abs consumer owned s, hinv.represents, hacc, ?_, hinv.safe, ?_⟩
  · have heq : pushed h = delivered h + _ + _ := hacc
    rw [heq, add_assoc]
    exact Multiset.le_add_right _ _
  · intro lab s' hstep
    obtain ⟨owned', hinv', habs⟩ := hinv.step hstep
    exact ⟨_, _, hinv'.represents, habs⟩

/-- While the consumer is about to take the node `0`, another thread gets its next node: the
consumer has deleted `0` before, so it may be `0` again. -/
theorem queue_refinement_reuse : ∃ h s,
    Trace (Step false) (init fun _ ↦ ⟨0, none⟩ : State Bool ℕ ℕ) h s ∧ delivered h = {7} ∧
      pushed h = {7, 8} ∧ ∃ as o, Represents false s as o ∧ Accounts h o ∧ delivered h ≤ pushed h ∧
        Safe s ∧ ∀ lab s', Step false s lab s' →
          ∃ as' o', Represents false s' as' o' ∧ Abstract.Step o lab o' := by
  have hrun := (.nil : Trace (Step false) (init fun _ ↦ ⟨0, none⟩ : State Bool ℕ ℕ) [] _)
    |>.snoc (.callPush true 7 rfl)
    |>.snoc (.pushLoad true 7 rfl)
    |>.snoc (.allocate true 7 none 0 rfl rfl)
    |>.snoc (.push true 7 0 none rfl rfl)
    |>.snoc (.callPush true 8 rfl)
    |>.snoc (.pushLoad true 8 rfl)
    |>.snoc (.callPop rfl)
    |>.snoc (.popLoad 0 rfl rfl)
    |>.snoc (.read 0 rfl)
    |>.snoc (.popFail 0 none rfl)
    |>.snoc (.popReload rfl)
    |>.snoc (.read 0 rfl)
    |>.snoc (.pop 0 none rfl rfl)
    |>.snoc (.move 0 0 rfl)
    |>.snoc (.delete 0 7 rfl)
    |>.snoc (.reuse 0 ⟨1, some 1⟩ rfl)
    |>.snoc (.allocate true 8 (some 0) 0 rfl rfl)
    |>.snoc (.pushFail true 8 0 (some 0) rfl)
    |>.snoc (.reload true 8 0 rfl)
    |>.snoc (.link true 8 0 none rfl)
    |>.snoc (.push true 8 0 none rfl rfl)
  exact ⟨_, _, hrun, rfl, rfl, queue_refinement hrun⟩

end MpscQueue
end ManyTasks
