import ManyTasks.Lib.OrderedMap
import Mathlib.Algebra.Order.Group.Nat
import Mathlib.Tactic.Basic

/-!
# A map of bounded size

The pairs of `ConstexprMap` are the first `size_` elements of the array `map_` (`entries`).
`operator[]` looks for the key among them, and appends a pair if it is not there; `Erase` shifts
what comes after the key.

A pair that is appended gets the key, but not a value: it has the one that is in the array already.
After `Erase` this is still what has been there before (`entries_push`).
-/

set_option autoImplicit false

namespace ManyTasks

structure ConstexprMap (K V : Type) (MaxSize : ℕ) where
  map_ : Vector (K × V) MaxSize
  size_ : ℕ
  size_le : size_ ≤ MaxSize

namespace ConstexprMap

variable {K V : Type} {MaxSize : ℕ}

/-- The text of the `std::runtime_error` that is thrown. -/
abbrev Thrown := String

/-- `map_ = {}` and `size_ = 0` -/
def empty (K V : Type) (MaxSize : ℕ) [Inhabited K] [Inhabited V] : ConstexprMap K V MaxSize :=
  ⟨Vector.replicate MaxSize (default, default), 0, Nat.zero_le _⟩

section Model

variable [DecidableEq K] (m : ConstexprMap K V MaxSize)

/-- `map_[i]` for an index below `size_`. -/
def pairAt (i : Fin m.size_) : K × V := m.map_.get (i.castLE m.size_le)

/-- The loop that all functions begin with: the first index below `size_` with this key. -/
def search (key : K) : Option (Fin m.size_) :=
  (List.finRange m.size_).find? fun i ↦ (m.pairAt i).1 = key

/-- The map with one more key; the value is what is in the array. -/
def push (key : K) (h : m.size_ < MaxSize) : ConstexprMap K V MaxSize :=
  ⟨m.map_.set m.size_ (key, m.map_[m.size_].2), m.size_ + 1, h⟩

/-- `operator[]`; the reference it returns is to the value at an index. -/
def subscript (key : K) : Except Thrown (ConstexprMap K V MaxSize × Fin MaxSize) :=
  match m.search key with
  | some i => .ok (m, i.castLE m.size_le)
  | none => if h : m.size_ < MaxSize then .ok (m.push key h, ⟨m.size_, h⟩) else .error "Map is full"

/-- What is read through a reference. -/
def valueAt (i : Fin MaxSize) : V := (m.map_.get i).2

/-- What an assignment through a reference makes of the map. -/
def assignAt (i : Fin MaxSize) (value : V) : ConstexprMap K V MaxSize :=
  { m with map_ := m.map_.set i ((m.map_.get i).1, value) i.isLt }

/-- `operator[]` of a map that is `const`. -/
def constSubscript (key : K) : Except Thrown V :=
  match m.search key with
  | some i => .ok (m.pairAt i).2
  | none => .error "Key is missing"

def find (key : K) : Bool := (m.search key).isSome

def getByIndex (pos : ℕ) : Except Thrown (K × V) :=
  if h : pos < m.size_ then .ok (m.pairAt ⟨pos, h⟩) else .error "Wrong index"

/-- The loop of `shiftValues`, with so many turns left. -/
def shiftLoop : (turns i : ℕ) → i + turns ≤ MaxSize → Vector (K × V) MaxSize →
    Vector (K × V) MaxSize
  | 0, _, _, map_ => map_
  | turns + 1, i, h, map_ => shiftLoop turns (i + 1) (by omega) (map_.set (i - 1) map_[i])

def shiftValues (deleted_index : Fin m.size_) : Vector (K × V) MaxSize :=
  shiftLoop (m.size_ - (deleted_index + 1)) (deleted_index + 1)
    (by have hlt := deleted_index.isLt; have hle := m.size_le; omega) m.map_

def erase (key : K) : ConstexprMap K V MaxSize × Bool :=
  match m.search key with
  | some i => (⟨m.shiftValues i, m.size_ - 1, (Nat.sub_le _ _).trans m.size_le⟩, true)
  | none => (m, false)

end Model

/-! ## The pairs -/

/-- The pairs of the map, in their order. -/
def entries (m : ConstexprMap K V MaxSize) : List (K × V) := m.map_.toList.take m.size_

variable {m : ConstexprMap K V MaxSize} {key : K} {value : V} {i k : ℕ}

@[simp] theorem entries_empty [Inhabited K] [Inhabited V] : (empty K V MaxSize).entries = [] := rfl

@[simp] theorem length_entries (m : ConstexprMap K V MaxSize) : m.entries.length = m.size_ := by
  rw [entries, List.length_take, Vector.length_toList, Nat.min_eq_left m.size_le]

theorem getElem?_entries (m : ConstexprMap K V MaxSize) (k : ℕ) :
    m.entries[k]? = if k < m.size_ then m.map_[k]? else none := by
  rw [entries, List.getElem?_take, Vector.getElem?_toList]

theorem getElem?_entries_eq (i : Fin m.size_) : m.entries[i.val]? = some (m.pairAt i) := by
  rw [getElem?_entries, if_pos i.isLt, Vector.getElem?_eq_getElem (i.isLt.trans_le m.size_le)]
  rfl

/-- **A pair is appended.** -/
theorem entries_push (h : m.size_ < MaxSize) :
    (m.push key h).entries = m.entries ++ [(key, m.map_[m.size_].2)] := by
  have hlength : m.size_ < m.map_.toList.length := by rwa [Vector.length_toList]
  rw [entries, push]
  dsimp only
  rw [Vector.toList_set, List.take_add_one, List.take_set, List.getElem?_set_self hlength,
    List.set_eq_of_length_le (by rw [List.length_take]; omega)]
  rfl

theorem get_push (key : K) (h : m.size_ < MaxSize) :
    (m.push key h).map_.get ⟨m.size_, h⟩ = (key, m.map_[m.size_].2) :=
  Vector.getElem_set_self h

theorem entries_assignAt {i : Fin MaxSize} :
    (m.assignAt i value).entries = m.entries.set i ((m.map_.get i).1, value) := by
  rw [entries, assignAt]
  dsimp only
  rw [Vector.toList_set, List.take_set]
  rfl

/-- Every element from `i` on goes one down. -/
theorem getElem?_shiftLoop {turns : ℕ} (hi : 0 < i) (h : i + turns ≤ MaxSize)
    (map_ : Vector (K × V) MaxSize) :
    (shiftLoop turns i h map_)[k]? = if i ≤ k + 1 ∧
      k + 1 < i + turns then map_[k + 1]? else map_[k]? := by
  induction turns generalizing i map_ with
  | zero =>
    rw [shiftLoop, if_neg (by omega)]
  | succ turns ih =>
    rw [shiftLoop, ih (Nat.succ_pos i), Vector.getElem?_set, Vector.getElem?_set]
    rcases Nat.lt_trichotomy (k + 1) i with hk | rfl | hk
    · rw [if_neg (by omega), if_neg (by omega), if_neg (by omega)]
    · rw [if_neg (by omega), if_pos (by omega), if_pos (by omega)]
      exact (Vector.getElem?_eq_getElem (by omega)).symm
    · rw [if_neg (show ¬i - 1 = k + 1 by omega), if_neg (show ¬i - 1 = k by omega)]
      exact if_congr (by omega) rfl rfl

variable [DecidableEq K]

/-- **A pair is erased.** -/
theorem entries_erase {i : Fin m.size_} (h : m.search key = some i) :
    (m.erase key).1.entries = m.entries.eraseIdx i ∧ (m.erase key).2 = true := by
  have hlt := i.isLt
  rw [erase, h]
  refine ⟨List.ext_getElem? fun k ↦ ?_, rfl⟩
  rw [getElem?_entries, List.getElem?_eraseIdx, getElem?_entries, getElem?_entries]
  dsimp only
  rw [shiftValues, getElem?_shiftLoop (Nat.succ_pos _)]
  rcases Nat.lt_or_ge k (m.size_ - 1) with hk | hk
  · rw [if_pos hk, if_pos (show k < m.size_ by omega), if_pos (show k + 1 < m.size_ by omega)]
    rcases Nat.lt_or_ge k i with hki | hki
    · rw [if_neg (by omega), if_pos hki]
    · rw [if_pos (by omega), if_neg (by omega)]
  · rw [if_neg (by omega), if_neg (show ¬k < i.val by omega),
      if_neg (show ¬k + 1 < m.size_ by omega)]

theorem search_eq_none_iff : m.search key = none ↔ ∀ p ∈ m.entries, p.1 ≠ key := by
  rw [search, List.find?_eq_none]
  constructor
  · intro h p hp
    obtain ⟨k, hk, rfl⟩ := List.mem_iff_getElem.mp hp
    rw [length_entries] at hk
    have hpair := getElem?_entries_eq (⟨k, hk⟩ : Fin m.size_)
    rw [List.getElem?_eq_getElem (by rwa [length_entries])] at hpair
    rw [Option.some.inj hpair]
    simpa using h ⟨k, hk⟩ (List.mem_finRange _)
  · intro h i _
    simpa using h _ (List.mem_of_getElem? (getElem?_entries_eq i))

theorem key_of_search {i : Fin m.size_} (h : m.search key = some i) : (m.pairAt i).1 = key := by
  simpa using List.find?_some h

/-- The pairs before and after the one that is found. -/
theorem entries_of_search {i : Fin m.size_} (h : m.search key = some i) :
    m.entries = m.entries.take i ++ (key, (m.pairAt i).2) :: m.entries.drop (i + 1) := by
  have hlt : i.val < m.entries.length := by rw [length_entries]; exact i.isLt
  have hpair : m.entries[i.val] = (key, (m.pairAt i).2) := by
    rw [← key_of_search h]
    exact Option.some.inj ((List.getElem?_eq_getElem hlt).symm.trans (getElem?_entries_eq i))
  rw [← hpair, ← List.drop_eq_getElem_cons hlt, List.take_append_drop]

end ConstexprMap
end ManyTasks
