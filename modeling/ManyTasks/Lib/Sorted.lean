import Mathlib.Data.List.Perm.Basic
import Mathlib.Order.Lattice

/-!
# Lists sorted by key

A list of entries, each a key and a value, that is strictly sorted by the keys.  The place of a key
in it is the first position whose key is not below (`lowerBound`), and everything is done there: the
key is in the list exactly if it is at this position, and inserting or erasing there keeps the list
sorted.

Where several such lists make up a table, their entries taken together are the `flatten` of the
table; `flatten_set_perm` says what becomes of them when one list is replaced.
-/

set_option autoImplicit false

namespace ManyTasks
namespace Lib

section

variable {K V : Type} [LinearOrder K] {l : List (K × V)} {key : K}

/-- The entries are strictly sorted by their keys. -/
def SortedKeys (l : List (K × V)) : Prop := l.Pairwise fun a b ↦ a.1 < b.1

theorem SortedKeys.cons {a : K × V} (h : SortedKeys l) (ha : ∀ b ∈ l, a.1 < b.1) :
    SortedKeys (a :: l) :=
  List.pairwise_cons.mpr ⟨ha, h⟩

theorem SortedKeys.of_cons {a : K × V} (h : SortedKeys (a :: l)) :
    (∀ b ∈ l, a.1 < b.1) ∧ SortedKeys l :=
  List.pairwise_cons.mp h

/-- The first position whose key is not below `key`. -/
def lowerBound (key : K) (l : List (K × V)) : ℕ := l.findIdx fun e ↦ key ≤ e.1

theorem lowerBound_cons_of_le {a : K × V} (h : key ≤ a.1) : lowerBound key (a :: l) = 0 := by
  simp [lowerBound, List.findIdx_cons, h]

theorem lowerBound_cons_of_lt {a : K × V} (h : a.1 < key) :
    lowerBound key (a :: l) = lowerBound key l + 1 := by
  simp [lowerBound, List.findIdx_cons, not_le.mpr h]

theorem lowerBound_le_length : lowerBound key l ≤ l.length := List.findIdx_le_length

/-- An entry with the key is in the list exactly if it is at this position. -/
theorem SortedKeys.getElem?_lowerBound (h : SortedKeys l) {v : V} :
    l[lowerBound key l]? = some (key, v) ↔ (key, v) ∈ l := by
  refine ⟨List.mem_of_getElem?, fun hmem ↦ ?_⟩
  induction l with
  | nil => exact absurd hmem List.not_mem_nil
  | cons a l ih =>
    obtain ⟨ha, hl⟩ := h.of_cons
    rcases List.mem_cons.mp hmem with rfl | hmem
    · have hzero : lowerBound key ((key, v) :: l) = 0 := lowerBound_cons_of_le le_rfl
      rw [hzero]
      rfl
    · rw [lowerBound_cons_of_lt (ha _ hmem), List.getElem?_cons_succ]
      exact ih hl hmem

/-- What is inserted there, if the key is new, leaves the list sorted. -/
theorem SortedKeys.insertIdx (h : SortedKeys l) {v : V} (hkey : ∀ v', (key, v') ∉ l) :
    SortedKeys (l.insertIdx (lowerBound key l) (key, v)) := by
  induction l with
  | nil => exact List.pairwise_singleton _ _
  | cons a l ih =>
    obtain ⟨ha, hl⟩ := h.of_cons
    have hne : key ≠ a.1 := by
      rintro rfl
      exact hkey a.2 List.mem_cons_self
    rcases lt_or_gt_of_ne hne with hlt | hgt
    · rw [lowerBound_cons_of_le hlt.le, List.insertIdx_zero]
      refine h.cons fun b hb ↦ ?_
      rcases List.mem_cons.mp hb with rfl | hb
      · exact hlt
      · exact hlt.trans (ha b hb)
    · rw [lowerBound_cons_of_lt hgt, List.insertIdx_succ_cons]
      refine (ih hl fun v' hv' ↦ hkey v' (List.mem_cons_of_mem a hv')).cons fun b hb ↦ ?_
      rcases (List.mem_insertIdx lowerBound_le_length).mp hb with rfl | hb
      · exact hgt
      · exact ha b hb

theorem SortedKeys.eraseIdx (h : SortedKeys l) (i : ℕ) : SortedKeys (l.eraseIdx i) :=
  List.Pairwise.sublist (List.eraseIdx_sublist l i) h

end

/-! ## Tables of lists -/

section

variable {α : Type} {t : List (List α)} {i : ℕ} {l : List α}

/-- The list at the index, or none. -/
def bucket (t : List (List α)) (i : ℕ) : List α := t.getD i []

theorem bucket_eq_getElem (h : i < t.length) : bucket t i = t[i] := by
  simp [bucket, h]

theorem bucket_set_self (h : i < t.length) : bucket (t.set i l) i = l := by
  simp [bucket, h]

theorem bucket_set_of_ne {j : ℕ} (h : j ≠ i) : bucket (t.set i l) j = bucket t j := by
  simp [bucket, h.symm]

theorem mem_flatten_iff {a : α} : a ∈ t.flatten ↔ ∃ i < t.length, a ∈ bucket t i := by
  rw [List.mem_flatten]
  constructor
  · rintro ⟨l, hl, ha⟩
    obtain ⟨i, hi, rfl⟩ := List.mem_iff_getElem.mp hl
    exact ⟨i, hi, bucket_eq_getElem hi ▸ ha⟩
  · rintro ⟨i, hi, ha⟩
    exact ⟨t[i], List.getElem_mem hi, bucket_eq_getElem hi ▸ ha⟩

/-- A list is replaced by one with another entry. -/
theorem flatten_set_perm (h : i < t.length) {a : α} (hl : l.Perm (a :: bucket t i)) :
    (t.set i l).flatten.Perm (a :: t.flatten) := by
  have ht : t = t.take i ++ bucket t i :: t.drop (i + 1) := by
    rw [bucket_eq_getElem h, List.getElem_cons_drop, List.take_append_drop]
  rw [List.set_eq_take_append_cons_drop, if_pos h]
  nth_rewrite 3 [ht]
  simp only [List.flatten_append, List.flatten_cons]
  exact ((hl.append_right _).append_left _).trans List.perm_middle

/-- A list is replaced by one that lacks an entry. -/
theorem flatten_perm_set (h : i < t.length) {a : α} (hl : (bucket t i).Perm (a :: l)) :
    t.flatten.Perm (a :: (t.set i l).flatten) := by
  have hset : (t.set i l).set i (bucket t i) = t := by
    rw [List.set_set, bucket_eq_getElem h, List.set_getElem_self]
  rw [← bucket_set_self (l := l) h] at hl
  have hperm := flatten_set_perm (t := t.set i l) (by rwa [List.length_set]) hl
  rwa [hset] at hperm

end

end Lib
end ManyTasks
