import Mathlib.Algebra.BigOperators.Group.Multiset.Basic
import Mathlib.Algebra.Order.Group.Multiset
import Mathlib.Data.List.Induction
import Mathlib.Data.Multiset.Fold

/-!
# Combining in any order and grouping

`Combines f m y` says that `y` is what the elements of `m` come to if they are combined by the
operation `f` in some order and grouping, each exactly once.  What is combined may itself come from
parts (`Combines.sum`).

If the operation is associative and commutative there is only one outcome, that of a left fold
(`Combines.eq_foldl`).

An operation that tells whether all it is given is the same is `flat`: two different values come to
`top`, from which nothing leads away.
-/

set_option autoImplicit false

namespace ManyTasks
namespace Lib

variable {T : Type}

/-- The elements of `m` can be combined to `y`. -/
inductive Combines (f : T → T → T) : Multiset T → T → Prop where
  | one (x : T) : Combines f {x} x
  | two {m n : Multiset T} {a b : T} (ha : Combines f m a) (hb : Combines f n b) :
      Combines f (m + n) (f a b)

variable {f : T → T → T}

/-- From the left to the right, for example. -/
theorem combines_foldl (f : T → T → T) (x : T) (l : List T) :
    Combines f (x ::ₘ (l : Multiset T)) (l.foldl f x) := by
  induction l using List.reverseRecOn with
  | nil => exact .one x
  | append_singleton l a ih =>
    have heq : x ::ₘ ((l ++ [a] : List T) : Multiset T) = (x ::ₘ (l : Multiset T)) + {a} := by
      rw [← Multiset.coe_add, Multiset.cons_add, Multiset.coe_singleton]
    rw [heq, List.foldl_append]
    exact .two ih (.one a)

/-- **Parts.**  If each element comes from a part, all comes from all the parts. -/
theorem Combines.sum {parts : Multiset (Multiset T)} {m : Multiset T} {y : T} (h : Combines f m y)
    (hparts : Multiset.Rel (Combines f) parts m) : Combines f parts.sum y := by
  induction h generalizing parts with
  | one x =>
    obtain ⟨p, ps, hp, hps, rfl⟩ := Multiset.rel_cons_right.mp hparts
    obtain rfl := Multiset.rel_zero_right.mp hps
    rw [Multiset.sum_cons, Multiset.sum_zero, add_zero]
    exact hp
  | two _ _ iha ihb =>
    obtain ⟨ps, qs, hps, hqs, rfl⟩ := Multiset.rel_add_right.mp hparts
    rw [Multiset.sum_add]
    exact .two (iha hps) (ihb hqs)

/-- Values may be mapped before they are combined, or after. -/
theorem Combines.map {E : Type} {g : E → E → E} {φ : E → T} {m : Multiset E} {y : E}
    (h : Combines g m y) (hφ : ∀ a b, φ (g a b) = f (φ a) (φ b)) :
    Combines f (m.map φ) (φ y) := by
  induction h with
  | one x =>
    rw [Multiset.map_singleton]
    exact .one (φ x)
  | two _ _ iha ihb =>
    rw [Multiset.map_add, hφ]
    exact .two iha ihb

section Fold

variable [hassoc : Std.Associative f] [hcomm : Std.Commutative f]

/-- It does not matter what is folded together first. -/
theorem Combines.fold {m : Multiset T} {y : T} (h : Combines f m y) (z : T) :
    m.fold f z = f z y := by
  induction h generalizing z with
  | one x =>
    rw [Multiset.fold_singleton]
    exact hcomm.comm x z
  | @two m n a b _ _ iha ihb =>
    calc (m + n).fold f z = (n + m).fold f z := by rw [add_comm]
      _ = n.fold f (m.fold f z) := by
        rw [Multiset.fold, Multiset.foldr_add]
      _ = f (f z a) b := by rw [iha, ihb]
      _ = f z (f a b) := hassoc.assoc z a b

theorem Combines.eq_fold {m : Multiset T} {y : T} (h : Combines f m y) {x : T} {n : Multiset T}
    (hm : m = x ::ₘ n) : y = n.fold f x := by
  induction h generalizing x n with
  | one a =>
    obtain ⟨rfl, rfl⟩ := (Multiset.singleton_eq_cons_iff n).mp hm
    rfl
  | @two m₁ m₂ a b ha hb iha ihb =>
    have hx : x ∈ m₁ ∨ x ∈ m₂ := by
      rw [← Multiset.mem_add, hm]
      exact Multiset.mem_cons_self x n
    rcases hx with hx | hx
    · obtain ⟨n₁, rfl⟩ := Multiset.exists_cons_of_mem hx
      rw [Multiset.cons_add, Multiset.cons_inj_right] at hm
      rw [iha rfl, ← hm, ← hb.fold, add_comm, Multiset.fold, Multiset.foldr_add]
    · obtain ⟨n₂, rfl⟩ := Multiset.exists_cons_of_mem hx
      rw [Multiset.add_cons, Multiset.cons_inj_right] at hm
      rw [ihb rfl, hcomm.comm, ← hm, ← ha.fold, Multiset.fold, Multiset.foldr_add]

/-- **Only one outcome.** -/
theorem Combines.eq_foldl {x y : T} {l : List T} (h : Combines f (x ::ₘ (l : Multiset T)) y) :
    y = l.foldl f x := by
  rw [h.eq_fold rfl, Multiset.coe_fold_l]

end Fold

/-! ## Being the same -/

section Flat

variable {top x y : T} {l : List T}

open Classical in
/-- Two values that are the same come to this value, and two others to `top`. -/
noncomputable def flat (top x y : T) : T := if x = y then x else top

@[simp] theorem flat_self : flat top x x = x := if_pos rfl

theorem flat_of_ne (h : x ≠ y) : flat top x y = top := if_neg h

@[simp] theorem flat_top : flat top top y = top := by
  unfold flat
  split <;> rfl

theorem foldl_flat_self (h : ∀ y ∈ l, y = x) : l.foldl (flat top) x = x :=
  List.foldlRecOn l (flat top) (motive := (· = x)) rfl fun z hz y hy ↦ by rw [hz, h y hy, flat_self]

/-- One value that is not the same is enough. -/
theorem foldl_flat_of_mem (hy : y ∈ l) (hne : y ≠ x) : l.foldl (flat top) x = top := by
  induction l generalizing x with
  | nil => cases hy
  | cons z l ih =>
    have htop : l.foldl (flat top) top = top :=
      List.foldlRecOn l (flat top) (motive := (· = top)) rfl fun z hz y _ ↦ by rw [hz, flat_top]
    rw [List.foldl_cons]
    by_cases hxz : x = z
    · subst hxz
      rw [flat_self]
      exact ih ((List.mem_cons.mp hy).resolve_left hne) hne
    · rw [flat_of_ne hxz, htop]

end Flat

end Lib
end ManyTasks
