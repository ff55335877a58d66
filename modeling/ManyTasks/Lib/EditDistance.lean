import Mathlib.Algebra.Order.Group.Nat
import Mathlib.Order.Bounds.Basic
import Mathlib.Order.MinMax
import Mathlib.Tactic.Basic

/-!
# How many edits make one word of another

An edit inserts a letter, deletes one, or replaces one by another.  `editDistance` is defined by the
usual recursion on the two words; it is the least number of edits that lead from the one to the
other (`isLeast_editDistance`).

That no shorter way exists is because one edit changes the distance to any third word by one at most
(`Edit.editDistance_le`).  That edits can be read from right to left, or be undone, makes the
distance the same for reversed and for exchanged words.
-/

set_option autoImplicit false

namespace ManyTasks
namespace Lib

variable {α : Type}

/-- One letter is inserted, deleted or replaced. -/
inductive Edit : List α → List α → Prop where
  | insert (l r : List α) (c : α) : Edit (l ++ r) (l ++ c :: r)
  | delete (l r : List α) (c : α) : Edit (l ++ c :: r) (l ++ r)
  | replace (l r : List α) (c d : α) : Edit (l ++ c :: r) (l ++ d :: r)

/-- So many edits, one after the other. -/
inductive Edits : ℕ → List α → List α → Prop where
  | refl (xs : List α) : Edits 0 xs xs
  | step {n : ℕ} {xs ys zs : List α} (h : Edit xs ys) (hs : Edits n ys zs) : Edits (n + 1) xs zs

section Edits

variable {xs ys zs : List α} {m n : ℕ}

theorem Edit.symm (h : Edit xs ys) : Edit ys xs := by
  cases h with
  | insert l r c => exact .delete l r c
  | delete l r c => exact .insert l r c
  | replace l r c d => exact .replace l r d c

theorem Edit.cons (x : α) (h : Edit xs ys) : Edit (x :: xs) (x :: ys) := by
  cases h with
  | insert l r c => exact .insert (x :: l) r c
  | delete l r c => exact .delete (x :: l) r c
  | replace l r c d => exact .replace (x :: l) r c d

theorem Edit.reverse (h : Edit xs ys) : Edit xs.reverse ys.reverse := by
  have hsnoc (l r : List α) (c : α) : (l ++ c :: r).reverse = r.reverse ++ c :: l.reverse := by simp
  cases h with
  | insert l r c =>
    rw [hsnoc, List.reverse_append]
    exact .insert _ _ c
  | delete l r c =>
    rw [hsnoc, List.reverse_append]
    exact .delete _ _ c
  | replace l r c d =>
    rw [hsnoc, hsnoc]
    exact .replace _ _ c d

theorem Edits.one (h : Edit xs ys) : Edits 1 xs ys := .step h (.refl ys)

theorem Edits.trans (h : Edits m xs ys) (h' : Edits n ys zs) : Edits (m + n) xs zs := by
  induction h with
  | refl => rwa [Nat.zero_add]
  | @step m _ _ _ he _ ih =>
    rw [Nat.add_right_comm]
    exact .step he (ih h')

theorem Edits.symm (h : Edits n xs ys) : Edits n ys xs := by
  induction h with
  | refl xs => exact .refl xs
  | step he _ ih => exact ih.trans (.one he.symm)

theorem Edits.cons (x : α) (h : Edits n xs ys) : Edits n (x :: xs) (x :: ys) := by
  induction h with
  | refl xs => exact .refl _
  | step he _ ih => exact .step (he.cons x) ih

theorem Edits.reverse (h : Edits n xs ys) : Edits n xs.reverse ys.reverse := by
  induction h with
  | refl xs => exact .refl _
  | step he _ ih => exact .step he.reverse ih

/-- A word can be deleted letter by letter. -/
theorem edits_nil (xs : List α) : Edits xs.length xs [] := by
  induction xs with
  | nil => exact .refl []
  | cons x xs ih => exact .step (.delete [] xs x) ih

end Edits

/-! ## The distance -/

variable [DecidableEq α]

/-- The distance, from the first letters on: they are the same or one replaces the other, or one of
them is superfluous. -/
def editDistance : List α → List α → ℕ
  | [], ys => ys.length
  | x :: xs, [] => (x :: xs).length
  | x :: xs, y :: ys =>
    min (min (editDistance xs ys + if x = y then 0 else 1) (editDistance xs (y :: ys) + 1))
      (editDistance (x :: xs) ys + 1)

variable {xs ys zs : List α} {x y : α}

@[simp] theorem editDistance_nil_left (ys : List α) : editDistance [] ys = ys.length := by
  rw [editDistance]

@[simp] theorem editDistance_nil_right (xs : List α) : editDistance xs [] = xs.length := by
  cases xs <;> rw [editDistance]

theorem editDistance_cons (x : α) (xs : List α) (y : α) (ys : List α) :
    editDistance (x :: xs) (y :: ys) =
      min (min (editDistance xs ys + if x = y then 0 else 1) (editDistance xs (y :: ys) + 1))
        (editDistance (x :: xs) ys + 1) := by
  rw [editDistance]

/-- **So many edits are enough.** -/
theorem edits_editDistance (xs ys : List α) : Edits (editDistance xs ys) xs ys := by
  induction xs generalizing ys with
  | nil =>
    rw [editDistance_nil_left]
    exact (edits_nil ys).symm
  | cons x xs ihx =>
    induction ys with
    | nil =>
      rw [editDistance_nil_right]
      exact edits_nil (x :: xs)
    | cons y ys ihy =>
      rw [editDistance_cons]
      have hsame : Edits (editDistance xs ys + if x = y then 0 else 1) (x :: xs) (y :: ys) := by
        split
        · rename_i heq
          subst heq
          exact (ihx ys).cons x
        · exact ((ihx ys).cons x).trans (.one (.replace [] ys x y))
      have hdelete : Edits (editDistance xs (y :: ys) + 1) (x :: xs) (y :: ys) :=
        .step (.delete [] xs x) (ihx (y :: ys))
      have hinsert : Edits (editDistance (x :: xs) ys + 1) (x :: xs) (y :: ys) :=
        ihy.trans (.one (.insert [] ys y))
      have hmin := min_rec' (fun n ↦ Edits n (x :: xs) (y :: ys)) hsame hdelete
      exact min_rec' (fun n ↦ Edits n (x :: xs) (y :: ys)) hmin hinsert

/-! ## No shorter way -/

/-- One letter more or less in the first word. -/
theorem editDistance_cons_left_le (x : α) (xs ys : List α) :
    editDistance (x :: xs) ys ≤ editDistance xs ys + 1 := by
  cases ys with
  | nil => simp
  | cons y ys =>
    rw [editDistance_cons]
    omega

theorem editDistance_cons_right_le (xs : List α) (y : α) (ys : List α) :
    editDistance xs (y :: ys) ≤ editDistance xs ys + 1 := by
  cases xs with
  | nil => simp
  | cons x xs =>
    rw [editDistance_cons]
    omega

theorem le_editDistance_cons_left (x : α) (xs ys : List α) :
    editDistance xs ys ≤ editDistance (x :: xs) ys + 1 := by
  induction ys with
  | nil =>
    simp
    omega
  | cons y ys ih =>
    have hle := editDistance_cons_right_le xs y ys
    rw [editDistance_cons]
    split <;> omega

theorem editDistance_replace_le (x x' : α) (xs ys : List α) :
    editDistance (x :: xs) ys ≤ editDistance (x' :: xs) ys + 1 := by
  induction ys with
  | nil => simp
  | cons y ys ih =>
    rw [editDistance_cons, editDistance_cons]
    split <;> split <;> omega

/-- A common first letter does not matter. -/
theorem editDistance_cons_le (x : α) (h : ∀ zs, editDistance xs zs ≤ editDistance ys zs + 1)
    (zs : List α) :
    editDistance (x :: xs) zs ≤ editDistance (x :: ys) zs + 1 := by
  induction zs with
  | nil => simpa using h []
  | cons z zs ih =>
    have hboth := h zs
    have hleft := h (z :: zs)
    rw [editDistance_cons, editDistance_cons]
    omega

/-- **One edit changes the distances by one at most.** -/
theorem Edit.editDistance_le (h : Edit xs ys) (zs : List α) :
    editDistance xs zs ≤ editDistance ys zs + 1 := by
  have hprefix (l : List α) {xs ys : List α}
      (h : ∀ zs, editDistance xs zs ≤ editDistance ys zs + 1) :
      ∀ zs, editDistance (l ++ xs) zs ≤ editDistance (l ++ ys) zs + 1 := by
    induction l with
    | nil => exact h
    | cons x l ih => exact editDistance_cons_le x ih
  cases h with
  | insert l r c => exact hprefix l (le_editDistance_cons_left c r) zs
  | delete l r c => exact hprefix l (editDistance_cons_left_le c r) zs
  | replace l r c d => exact hprefix l (editDistance_replace_le c d r) zs

@[simp] theorem editDistance_self (xs : List α) : editDistance xs xs = 0 := by
  induction xs with
  | nil => rw [editDistance_nil_left, List.length_nil]
  | cons x xs ih => simp [editDistance_cons, ih]

theorem Edits.editDistance_le {n : ℕ} (h : Edits n xs ys) : editDistance xs ys ≤ n := by
  induction h with
  | refl xs => rw [editDistance_self]
  | step he _ ih => exact (he.editDistance_le _).trans (Nat.succ_le_succ ih)

/-- **The distance is the least number of edits.** -/
theorem isLeast_editDistance (xs ys : List α) : IsLeast {n | Edits n xs ys} (editDistance xs ys) :=
  ⟨edits_editDistance xs ys, fun _ h ↦ h.editDistance_le⟩

theorem editDistance_comm (xs ys : List α) : editDistance xs ys = editDistance ys xs :=
  Nat.le_antisymm (edits_editDistance ys xs).symm.editDistance_le
    (edits_editDistance xs ys).symm.editDistance_le

theorem editDistance_reverse (xs ys : List α) :
    editDistance xs.reverse ys.reverse = editDistance xs ys := by
  have hle (xs ys : List α) : editDistance xs.reverse ys.reverse ≤ editDistance xs ys :=
    (edits_editDistance xs ys).reverse.editDistance_le
  refine Nat.le_antisymm (hle xs ys) ?_
  have h := hle xs.reverse ys.reverse
  rwa [List.reverse_reverse, List.reverse_reverse] at h

/-- **The distance, from the last letters on.** -/
theorem editDistance_append (xs : List α) (x : α) (ys : List α) (y : α) :
    editDistance (xs ++ [x]) (ys ++ [y]) =
      min (min (editDistance xs ys + if x = y then 0 else 1) (editDistance xs (ys ++ [y]) + 1))
        (editDistance (xs ++ [x]) ys + 1) := by
  have h := editDistance_cons x xs.reverse y ys.reverse
  have hsnoc (zs : List α) (z : α) : z :: zs.reverse = (zs ++ [z]).reverse := by simp
  rw [hsnoc, hsnoc] at h
  simpa only [editDistance_reverse] using h

/-- The longer word can be written over the shorter one. -/
theorem editDistance_le_max (xs ys : List α) : editDistance xs ys ≤ max xs.length ys.length := by
  induction xs generalizing ys with
  | nil => simp
  | cons x xs ih =>
    cases ys with
    | nil => simp
    | cons y ys =>
      have hle := ih ys
      rw [editDistance_cons, List.length_cons, List.length_cons]
      split <;> omega

end Lib
end ManyTasks
