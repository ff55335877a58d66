import ManyTasks.HashTable.Map
import Mathlib.Data.List.GetD
import Mathlib.Data.List.Nodup

/-!
# The lists of the table

What is true of the table between two operations (`Buckets`): every list is strictly sorted by key,
an entry is in the list its hash says, and no key is stored twice.

Within `Rehash` the second is not true.  There it holds of the lists the loop has been through, and
of the part of the current list before the iterator (`Walked`); all entries are still there, in one
list or another.  An entry that is moved never meets its own key, since no key is stored twice.
-/

set_option autoImplicit false

namespace ManyTasks
namespace HashTable

open Lib (bucket SortedKeys)

variable {K V : Type} [LinearOrder K] {t : List (List (K × V))} {hasher_ : K → ℕ} {i : ℕ} {key : K}

/-- All lists are sorted, and no key is stored twice. -/
structure Lists (t : List (List (K × V))) : Prop where
  sorted (i : ℕ) : SortedKeys (bucket t i)
  nodup : (t.flatten.map Prod.fst).Nodup

/-- And every entry is in the list its hash says. -/
structure Buckets (hasher_ : K → ℕ) (t : List (List (K × V))) : Prop extends Lists t where
  placed {i : ℕ} {e : K × V} : e ∈ bucket t i → hasher_ e.1 % t.length = i

/-! ## One list -/

theorem Lists.findInList_eq_some (h : Lists t) {e : K × V} :
    findInList t i key = some e ↔ e ∈ bucket t i ∧ e.1 = key := by
  rw [findInList, Option.filter_eq_some_iff, decide_eq_true_iff]
  refine and_congr_left fun hkey ↦ ?_
  subst hkey
  exact (h.sorted i).getElem?_lowerBound

theorem Lists.findInList_eq_none (h : Lists t) :
    findInList t i key = none ↔ ∀ v, (key, v) ∉ bucket t i := by
  rw [Option.eq_none_iff_forall_ne_some]
  refine ⟨fun hnone v hv ↦ hnone (key, v) (h.findInList_eq_some.mpr ⟨hv, rfl⟩), ?_⟩
  rintro hnone ⟨key', v⟩ hsome
  obtain ⟨hmem, rfl⟩ := h.findInList_eq_some.mp hsome
  exact hnone v hmem

/-- What `InsertIntoList` does with a key that is not in the list. -/
theorem Lists.insertIntoList_new (h : Lists t) {e : K × V} (hnew : ∀ v, (e.1, v) ∉ bucket t i) :
    ∃ l, insertIntoList i e t = (true, t.set i l) ∧ l.Perm (e :: bucket t i) ∧ SortedKeys l := by
  rw [insertIntoList, h.findInList_eq_none.mpr hnew]
  refine ⟨_, rfl, List.perm_insertIdx _ _ Lib.lowerBound_le_length, ?_⟩
  exact (h.sorted i).insertIdx hnew

theorem Lists.insertIntoList_old (h : Lists t) {e : K × V} {v : V} (hold : (e.1, v) ∈ bucket t i) :
    insertIntoList i e t = (false, t) := by
  rw [insertIntoList, h.findInList_eq_some.mpr ⟨hold, rfl⟩]

/-- What `EraseFromList` does with a key that is in the list. -/
theorem Lists.eraseFromList_old (h : Lists t) {v : V} (hold : (key, v) ∈ bucket t i) :
    ∃ l, eraseFromList i key t = (true, t.set i l) ∧ (bucket t i).Perm ((key, v) :: l) ∧
      SortedKeys l := by
  rw [eraseFromList, h.findInList_eq_some.mpr ⟨hold, rfl⟩]
  refine ⟨_, rfl, ?_, (h.sorted i).eraseIdx _⟩
  obtain ⟨hlt, hget⟩ := List.getElem?_eq_some_iff.mp ((h.sorted i).getElem?_lowerBound.mpr hold)
  rw [← hget]
  exact (List.getElem_cons_eraseIdx_perm hlt).symm

theorem Lists.eraseFromList_new (h : Lists t) (hnew : ∀ v, (key, v) ∉ bucket t i) :
    eraseFromList i key t = (false, t) := by
  rw [eraseFromList, h.findInList_eq_none.mpr hnew]

/-! ## The whole table -/

section

variable {l : List (K × V)} {e : K × V}

theorem Lists.set_sorted (h : Lists t) (hi : i < t.length) (hl : SortedKeys l) (j : ℕ) :
    SortedKeys (bucket (t.set i l) j) := by
  by_cases hj : j = i
  · rw [hj, Lib.bucket_set_self hi]
    exact hl
  · rw [Lib.bucket_set_of_ne hj]
    exact h.sorted j

/-- An entry with a new key is put into a list. -/
theorem Lists.set_insert (h : Lists t) (hi : i < t.length) (hl : l.Perm (e :: bucket t i))
    (hsorted : SortedKeys l) (hnew : ∀ v, (e.1, v) ∉ t.flatten) : Lists (t.set i l) := by
  refine ⟨h.set_sorted hi hsorted, ?_⟩
  rw [((Lib.flatten_set_perm hi hl).map Prod.fst).nodup_iff, List.map_cons, List.nodup_cons]
  refine ⟨fun hmem ↦ ?_, h.nodup⟩
  obtain ⟨⟨key, v⟩, he, rfl⟩ := List.mem_map.mp hmem
  exact hnew v he

/-- An entry is taken out of a list. -/
theorem Lists.set_erase (h : Lists t) (hi : i < t.length) (hl : (bucket t i).Perm (e :: l))
    (hsorted : SortedKeys l) : Lists (t.set i l) := by
  refine ⟨h.set_sorted hi hsorted, ?_⟩
  have hnodup := h.nodup
  rw [((Lib.flatten_perm_set hi hl).map Prod.fst).nodup_iff, List.map_cons, List.nodup_cons]
    at hnodup
  exact hnodup.2

/-- An entry that is stored is in the list its hash says. -/
theorem Buckets.mem_flatten (h : Buckets hasher_ t) :
    e ∈ t.flatten ↔ e ∈ bucket t (hasher_ e.1 % t.length) := by
  rw [Lib.mem_flatten_iff]
  constructor
  · rintro ⟨i, -, he⟩
    rwa [h.placed he]
  · intro he
    refine ⟨_, Nat.mod_lt _ (Nat.pos_of_ne_zero fun hzero ↦ ?_), he⟩
    rw [List.length_eq_zero_iff.mp hzero] at he
    exact absurd he List.not_mem_nil

/-- A new key is put where its hash says. -/
theorem Buckets.set_insert (h : Buckets hasher_ t) (hi : hasher_ e.1 % t.length = i)
    (hpos : 0 < t.length) (hl : l.Perm (e :: bucket t i)) (hsorted : SortedKeys l)
    (hnew : ∀ v, (e.1, v) ∉ bucket t i) : Buckets hasher_ (t.set i l) := by
  have hlt : i < t.length := hi ▸ Nat.mod_lt _ hpos
  refine ⟨h.toLists.set_insert hlt hl hsorted fun v hv ↦ ?_, fun {j e'} he' ↦ ?_⟩
  · rw [h.mem_flatten, hi] at hv
    exact hnew v hv
  · rw [List.length_set]
    by_cases hj : j = i
    · rw [hj, Lib.bucket_set_self hlt] at he'
      rcases List.mem_cons.mp (hl.mem_iff.mp he') with rfl | hold
      · exact hi.trans hj.symm
      · exact (h.placed hold).trans hj.symm
    · rw [Lib.bucket_set_of_ne hj] at he'
      exact h.placed he'

theorem Buckets.set_erase (h : Buckets hasher_ t) (hi : i < t.length)
    (hl : (bucket t i).Perm (e :: l)) (hsorted : SortedKeys l) :
    Buckets hasher_ (t.set i l) := by
  refine ⟨h.toLists.set_erase hi hl hsorted, fun {j e'} he' ↦ ?_⟩
  rw [List.length_set]
  by_cases hj : j = i
  · rw [hj, Lib.bucket_set_self hi] at he'
    exact (h.placed (hl.mem_iff.mpr (List.mem_cons_of_mem e he'))).trans hj.symm
  · rw [Lib.bucket_set_of_ne hj] at he'
    exact h.placed he'

end

/-! ## Rehash -/

/-- `Rehash` has been through the lists before `j`, and in this one through the elements before
`p`. -/
structure Walked (hasher_ : K → ℕ) (t₀ t : List (List (K × V))) (j p : ℕ) : Prop where
  lists : Lists t
  length_eq : t.length = t₀.length
  perm : t.flatten.Perm t₀.flatten
  placed {i : ℕ} {e : K × V} : i < j → e ∈ bucket t i → hasher_ e.1 % t.length = i
  front {e : K × V} : e ∈ (bucket t j).take p → hasher_ e.1 % t.length = j

section

variable {t₀ : List (List (K × V))} {j p : ℕ} {e : K × V}

/-- The element stays. -/
theorem Walked.keep (h : Walked hasher_ t₀ t j p) (he : (bucket t j)[p]? = some e)
    (hj : hasher_ e.1 % t.length = j) : Walked hasher_ t₀ t j (p + 1) := by
  refine ⟨h.lists, h.length_eq, h.perm, h.placed, fun {e'} he' ↦ ?_⟩
  rw [List.take_add_one, he, List.mem_append] at he'
  rcases he' with hold | hnew
  · exact h.front hold
  · rw [List.mem_singleton.mp hnew]
    exact hj

/-- The element is moved to another list. -/
theorem Walked.move (h : Walked hasher_ t₀ t j p) (hlt : j < t.length)
    (he : (bucket t j)[p]? = some e) (hj : hasher_ e.1 % t.length ≠ j) :
    Walked hasher_ t₀ (erase j p (insertIntoList (hasher_ e.1 % t.length) e t).2) j p ∧
      bucket (erase j p (insertIntoList (hasher_ e.1 % t.length) e t).2) j =
        (bucket t j).eraseIdx p := by
  generalize hk : hasher_ e.1 % t.length = k at hj ⊢
  have hklt : k < t.length := hk ▸ Nat.mod_lt _ (Nat.zero_lt_of_lt hlt)
  have herase : (bucket t j).Perm (e :: (bucket t j).eraseIdx p) := by
    obtain ⟨hp, rfl⟩ := List.getElem?_eq_some_iff.mp he
    exact (List.getElem_cons_eraseIdx_perm hp).symm
  -- without the element, its key is nowhere
  have hrest : t.flatten.Perm (e :: (t.set j ((bucket t j).eraseIdx p)).flatten) :=
    Lib.flatten_perm_set hlt herase
  have hgone (v : V) : (e.1, v) ∉ (t.set j ((bucket t j).eraseIdx p)).flatten := fun hv ↦ by
    have hnodup := (hrest.map Prod.fst).nodup_iff.mp h.lists.nodup
    exact (List.nodup_cons.mp hnodup).1 (List.mem_map.mpr ⟨_, hv, rfl⟩)
  have hother : bucket (t.set j ((bucket t j).eraseIdx p)) k = bucket t k :=
    Lib.bucket_set_of_ne hj
  have hnew (v : V) : (e.1, v) ∉ bucket t k := fun hv ↦ by
    refine hgone v (Lib.mem_flatten_iff.mpr ⟨k, ?_, hother.symm ▸ hv⟩)
    rwa [List.length_set]
  obtain ⟨l, hins, hl, hsorted⟩ := h.lists.insertIntoList_new hnew
  have heq : erase j p (insertIntoList k e t).2 =
      (t.set j ((bucket t j).eraseIdx p)).set k l := by
    rw [hins, erase, Lib.bucket_set_of_ne hj.symm, List.set_comm _ _ hj]
  have hlists := h.lists.set_erase hlt herase ((h.lists.sorted j).eraseIdx p)
  rw [← hother] at hl
  have hbucket : bucket ((t.set j ((bucket t j).eraseIdx p)).set k l) j =
      (bucket t j).eraseIdx p := by
    rw [Lib.bucket_set_of_ne hj.symm, Lib.bucket_set_self hlt]
  rw [heq]
  refine ⟨⟨hlists.set_insert (by rwa [List.length_set]) hl hsorted hgone, ?_, ?_, ?_, ?_⟩, hbucket⟩
  · rw [List.length_set, List.length_set, h.length_eq]
  · have hperm := Lib.flatten_set_perm (by rwa [List.length_set]) hl
    exact (hperm.trans hrest.symm).trans h.perm
  · intro i e' hi he'
    rw [List.length_set, List.length_set]
    by_cases hik : i = k
    · rw [hik, Lib.bucket_set_self (by rwa [List.length_set])] at he'
      rcases List.mem_cons.mp (hl.mem_iff.mp he') with rfl | hold
      · exact hk.trans hik.symm
      · rw [hother, ← hik] at hold
        exact h.placed hi hold
    · rw [Lib.bucket_set_of_ne hik, Lib.bucket_set_of_ne (Nat.ne_of_lt hi)] at he'
      exact h.placed hi he'
  · intro e' he'
    rw [hbucket, List.take_eraseIdx_eq_take_of_le _ _ _ le_rfl] at he'
    rw [List.length_set, List.length_set]
    exact h.front he'

/-- The end of the list is reached. -/
theorem Walked.next (h : Walked hasher_ t₀ t j p) (hend : (bucket t j).length ≤ p) :
    Walked hasher_ t₀ t (j + 1) 0 := by
  refine ⟨h.lists, h.length_eq, h.perm, fun {i e} hi he ↦ ?_, nofun⟩
  rcases Nat.lt_succ_iff_lt_or_eq.mp hi with hi | rfl
  · exact h.placed hi he
  · exact h.front (by rwa [List.take_of_length_le hend])

/-- **The inner loop** goes through the whole list. -/
theorem Walked.rehashList (h : Walked hasher_ t₀ t j p) (hlt : j < t₀.length) (turns : ℕ)
    (hturns : (bucket t j).length ≤ p + turns) :
    Walked hasher_ t₀ (rehashList hasher_ j turns p t) (j + 1) 0 := by
  induction turns generalizing p t with
  | zero => exact h.next hturns
  | succ turns ih =>
    rw [HashTable.rehashList]
    cases he : (bucket t j)[p]? with
    | none => exact h.next (List.getElem?_eq_none_iff.mp he)
    | some e =>
      dsimp only
      by_cases hj : hasher_ e.1 % t.length = j
      · rw [if_neg (not_not.mpr hj)]
        exact ih (h.keep he hj) (by omega)
      · rw [if_pos hj]
        obtain ⟨hmove, hbucket⟩ := h.move (h.length_eq ▸ hlt) he hj
        have hp : p < (bucket t j).length := (List.getElem?_eq_some_iff.mp he).1
        have hshorter : ((bucket t j).eraseIdx p).length ≤ p + turns := by
          rw [List.length_eraseIdx_of_lt hp]
          omega
        split
        · rename_i hzero
          subst hzero
          exact ih hmove (hbucket ▸ hshorter)
        · rename_i hzero
          rw [Nat.sub_add_cancel (Nat.pos_of_ne_zero hzero)]
          exact ih hmove (hbucket ▸ hshorter)

end

omit [LinearOrder K] in
theorem length_resize : (resize t).length = 2 * t.length := by
  rw [resize, List.length_append, List.length_replicate]
  omega

omit [LinearOrder K] in
theorem flatten_resize : (resize t).flatten = t.flatten := by
  simp [resize]

/-- The new lists are empty. -/
theorem Lists.resize (h : Lists t) : Lists (resize t) := by
  refine ⟨fun i ↦ ?_, by rw [flatten_resize]; exact h.nodup⟩
  by_cases hi : i < t.length
  · have hold : bucket (HashTable.resize t) i = bucket t i := by
      rw [bucket, HashTable.resize, List.getD_append _ _ _ _ hi]
      rfl
    exact hold ▸ h.sorted i
  · have hnil : bucket (HashTable.resize t) i = [] := by
      rw [bucket, HashTable.resize, List.getD_append_right _ _ _ _ (not_lt.mp hi)]
      simp
    exact hnil ▸ List.Pairwise.nil

/-- **`Rehash`** doubles the table, and puts every entry where its hash now says. -/
theorem Lists.rehash (h : Lists t) (hasher_ : K → ℕ) :
    Buckets hasher_ (rehash hasher_ t) ∧ (rehash hasher_ t).length = 2 * t.length ∧
      (rehash hasher_ t).flatten.Perm t.flatten := by
  have hloop (n : ℕ) (hn : n ≤ (HashTable.resize t).length) :
      Walked hasher_ (HashTable.resize t)
        ((List.range n).foldl (fun table_ list_idx ↦
          rehashList hasher_ list_idx (bucket table_ list_idx).length 0 table_)
          (HashTable.resize t)) n 0 := by
    induction n with
    | zero => exact ⟨h.resize, rfl, .refl _, nofun, nofun⟩
    | succ n ih =>
      rw [List.range_succ, List.foldl_append, List.foldl_cons, List.foldl_nil]
      exact (ih (Nat.le_of_succ_le hn)).rehashList hn _ (Nat.zero_add _).ge
  have hdone := hloop _ le_rfl
  change Walked hasher_ (HashTable.resize t) (HashTable.rehash hasher_ t) _ 0 at hdone
  refine ⟨⟨hdone.lists, fun {i e} he ↦ ?_⟩, hdone.length_eq.trans length_resize,
    by simpa only [flatten_resize] using hdone.perm⟩
  refine hdone.placed (lt_of_not_ge fun hi ↦ ?_) he
  rw [bucket, List.getD_eq_default _ _ (hdone.length_eq ▸ hi)] at he
  exact absurd he List.not_mem_nil

end HashTable
end ManyTasks
