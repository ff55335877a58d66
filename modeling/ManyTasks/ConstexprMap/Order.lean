import ManyTasks.ConstexprMap.Map

/-!
# A finite map in the order of insertion

What `ConstexprMap` is for is an `OrderedMap` with a bound on its size (`specCall`).  The two are
run side by side.  They are in the same state as long as the pairs are the same, and they stay so
with every call but one: where `operator[]` appends a pair whose value is then read, the value must
be `V{}` already (`Fresh`).  Without it the result is another one, so the condition is also
necessary (`run_correct_iff`).  The values that are not `V{}` are those of pairs that were the last
when something was erased (`freshRun_iff`).
-/

set_option autoImplicit false

namespace ManyTasks
namespace ConstexprMap

open Lib

variable {K V : Type} {MaxSize : ℕ} [DecidableEq K]

/-- A call of the map, with what is done to the reference that `operator[]` returns. -/
inductive Call (K V : Type) where
  /-- `map[key]` is read. -/
  | subscript (key : K)
  /-- `map[key] = value` -/
  | assign (key : K) (value : V)
  | constSubscript (key : K)
  | erase (key : K)
  | find (key : K)
  | getByIndex (pos : ℕ)
  | size
deriving DecidableEq, Repr

/-- What comes of a call. -/
inductive Result (K V : Type) where
  | value (value : V)
  | assigned
  | bool (b : Bool)
  | pair (p : K × V)
  | size (n : ℕ)
  | thrown (what : Thrown)
deriving DecidableEq, Repr

/-! ## The code -/

def call (m : ConstexprMap K V MaxSize) : Call K V → ConstexprMap K V MaxSize × Result K V
  | .subscript key =>
    match m.subscript key with
    | .ok (m', i) => (m', .value (m'.valueAt i))
    | .error what => (m, .thrown what)
  | .assign key value =>
    match m.subscript key with
    | .ok (m', i) => (m'.assignAt i value, .assigned)
    | .error what => (m, .thrown what)
  | .constSubscript key =>
    match m.constSubscript key with
    | .ok value => (m, .value value)
    | .error what => (m, .thrown what)
  | .erase key => ((m.erase key).1, .bool (m.erase key).2)
  | .find key => (m, .bool (m.find key))
  | .getByIndex pos =>
    match m.getByIndex pos with
    | .ok p => (m, .pair p)
    | .error what => (m, .thrown what)
  | .size => (m, .size m.size_)

/-- The state after the calls, and what has come of them. -/
def run (m : ConstexprMap K V MaxSize) : List (Call K V) →
    ConstexprMap K V MaxSize × List (Result K V)
  | [] => (m, [])
  | c :: calls => ((run (m.call c).1 calls).1, (m.call c).2 :: (run (m.call c).1 calls).2)

/-! ## The same pairs -/

variable {m : ConstexprMap K V MaxSize} {s : OrderedMap K V} {key : K} {value : V}

theorem find_of_search {i : Fin m.size_} (h : m.entries = s.entries) (hi : m.search key = some i) :
    s.find key = some (m.pairAt i).2 ∧ key ∈ s.keys := by
  have hs : s.entries = _ := h.symm.trans (entries_of_search hi)
  have hfind := OrderedMap.find_of_eq hs
  exact ⟨hfind, OrderedMap.mem_keys.mpr ⟨_, OrderedMap.find_eq_some_iff.mp hfind⟩⟩

theorem find_of_search_none (h : m.entries = s.entries) (hnone : m.search key = none) :
    s.find key = none ∧ key ∉ s.keys := by
  have hkeys : key ∉ s.keys := by
    rw [search_eq_none_iff, h] at hnone
    intro hmem
    obtain ⟨value, hvalue⟩ := OrderedMap.mem_keys.mp hmem
    exact hnone _ hvalue rfl
  exact ⟨OrderedMap.find_eq_none_iff.mpr hkeys, hkeys⟩

theorem constSubscript_eq (h : m.entries = s.entries) (key : K) : m.constSubscript key =
    match s.find key with
    | some value => .ok value
    | none => .error "Key is missing" := by
  rw [constSubscript]
  cases hi : m.search key with
  | some i => rw [(find_of_search h hi).1]
  | none => rw [(find_of_search_none h hi).1]

theorem find_eq (h : m.entries = s.entries) (key : K) : m.find key = decide (key ∈ s.keys) := by
  rw [find]
  cases hi : m.search key with
  | some i => exact (decide_eq_true (find_of_search h hi).2).symm
  | none => exact (decide_eq_false (find_of_search_none h hi).2).symm

/-- An assignment to a key that is there. -/
theorem entries_assign_there {i : Fin m.size_} (h : m.entries = s.entries)
    (hi : m.search key = some i) :
    (m.assignAt (i.castLE m.size_le) value).entries = (s.insert key value).entries := by
  have hlt : i.val < m.entries.length := by rw [length_entries]; exact i.isLt
  have hlength : (m.entries.take i).length = i.val := by
    rw [List.length_take, Nat.min_eq_left hlt.le]
  rw [OrderedMap.insert_of_eq (h.symm.trans (entries_of_search hi)), entries_assignAt]
  conv_lhs => rw [entries_of_search hi]
  rw [show (m.map_.get (i.castLE m.size_le)).1 = key from key_of_search hi]
  rw [Fin.val_castLE, List.set_append_right _ _ hlength.le, hlength, Nat.sub_self,
    List.set_cons_zero]

/-- An assignment to a key that has just been appended. -/
theorem entries_assign_new (h : m.entries = s.entries) (hnone : m.search key = none)
    (hlt : m.size_ < MaxSize) :
    ((m.push key hlt).assignAt ⟨m.size_, hlt⟩ value).entries = (s.insert key value).entries := by
  have hkey := congrArg Prod.fst (get_push key hlt)
  rw [OrderedMap.insert_of_not_mem (find_of_search_none h hnone).2, entries_assignAt, hkey,
    entries_push, ← h, List.set_append_right _ _ (length_entries m).le, length_entries,
      Nat.sub_self]
  rfl

theorem erase_spec (h : m.entries = s.entries) :
    (m.erase key).2 = decide (key ∈ s.keys) ∧ (m.erase key).1.entries = (s.erase key).entries := by
  cases hi : m.search key with
  | some i =>
    obtain ⟨herase, hbool⟩ := entries_erase hi
    have hlt : i.val < m.entries.length := by rw [length_entries]; exact i.isLt
    rw [hbool, herase, OrderedMap.erase_of_eq (h.symm.trans (entries_of_search hi)),
      decide_eq_true (find_of_search h hi).2, List.eraseIdx_eq_take_drop_succ]
    exact ⟨rfl, rfl⟩
  | none =>
    have hkeys := (find_of_search_none h hi).2
    rw [erase, hi, OrderedMap.erase_of_not_mem hkeys, decide_eq_false hkeys]
    exact ⟨rfl, h⟩

/-! ## What it is for -/

variable [Inhabited V]

/-- A call of a map that has room for `MaxSize` keys. -/
def specCall (MaxSize : ℕ) (s : OrderedMap K V) : Call K V → OrderedMap K V × Result K V
  | .subscript key =>
    match s.find key with
    | some value => (s, .value value)
    | none =>
      if s.entries.length < MaxSize then (s.insert key default, .value default)
      else (s, .thrown "Map is full")
  | .assign key value =>
    if key ∈ s.keys ∨ s.entries.length < MaxSize then (s.insert key value, .assigned)
    else (s, .thrown "Map is full")
  | .constSubscript key =>
    match s.find key with
    | some value => (s, .value value)
    | none => (s, .thrown "Key is missing")
  | .erase key => (s.erase key, .bool (decide (key ∈ s.keys)))
  | .find key => (s, .bool (decide (key ∈ s.keys)))
  | .getByIndex pos =>
    match s.entries[pos]? with
    | some p => (s, .pair p)
    | none => (s, .thrown "Wrong index")
  | .size => (s, .size s.entries.length)

def specRun (MaxSize : ℕ) (s : OrderedMap K V) : List (Call K V) →
    OrderedMap K V × List (Result K V)
  | [] => (s, [])
  | c :: calls =>
    ((specRun MaxSize (specCall MaxSize s c).1 calls).1,
      (specCall MaxSize s c).2 :: (specRun MaxSize (specCall MaxSize s c).1 calls).2)

/-- If the call is to append a pair and to read its value, then the array has `V{}` there. -/
def Fresh (m : ConstexprMap K V MaxSize) (c : Call K V) : Prop :=
  ∀ key, c = .subscript key → m.search key = none → ∀ h :
    m.size_ < MaxSize, m.map_[m.size_].2 = default

/-! ## One call -/

variable {c : Call K V} {calls : List (Call K V)}

theorem subscript_spec (h : m.entries = s.entries) (hfresh : Fresh m (.subscript key)) :
    (m.call (.subscript key)).2 = (specCall MaxSize s (.subscript key)).2 ∧
      (m.call (.subscript key)).1.entries = (specCall MaxSize s (.subscript key)).1.entries := by
  rw [call, subscript, specCall]
  cases hi : m.search key with
  | some i =>
    rw [(find_of_search h hi).1]
    exact ⟨rfl, h⟩
  | none =>
    obtain ⟨hfind, hkeys⟩ := find_of_search_none h hi
    rw [hfind]
    dsimp only
    rw [← h, length_entries]
    by_cases hlt : m.size_ < MaxSize
    · rw [dif_pos hlt, if_pos hlt]
      have hvalue := hfresh key rfl hi hlt
      refine ⟨congrArg Result.value ((congrArg Prod.snd (get_push key hlt)).trans hvalue), ?_⟩
      rw [OrderedMap.insert_of_not_mem hkeys, entries_push, h, hvalue]
    · rw [dif_neg hlt, if_neg hlt]
      exact ⟨rfl, h⟩

theorem assign_spec (h : m.entries = s.entries) :
    (m.call (.assign key value)).2 = (specCall MaxSize s (.assign key value)).2 ∧
      (m.call (.assign key value)).1.entries =
        (specCall MaxSize s (.assign key value)).1.entries := by
  rw [call, subscript, specCall, ← h, length_entries]
  cases hi : m.search key with
  | some i =>
    rw [if_pos (.inl (find_of_search h hi).2)]
    exact ⟨rfl, entries_assign_there h hi⟩
  | none =>
    have hkeys := (find_of_search_none h hi).2
    by_cases hlt : m.size_ < MaxSize
    · rw [if_pos (.inr hlt)]
      dsimp only
      rw [dif_pos hlt]
      exact ⟨rfl, entries_assign_new h hi hlt⟩
    · rw [if_neg (not_or.mpr ⟨hkeys, hlt⟩)]
      dsimp only
      rw [dif_neg hlt]
      exact ⟨rfl, h⟩

/-- **One call.** -/
theorem call_spec (h : m.entries = s.entries) (hfresh : Fresh m c) :
    (m.call c).2 = (specCall MaxSize s c).2 ∧ (m.call c).1.entries =
    (specCall MaxSize s c).1.entries := by
  cases c with
  | subscript key => exact subscript_spec h hfresh
  | assign key value => exact assign_spec h
  | constSubscript key =>
    rw [call, constSubscript_eq h, specCall]
    cases s.find key with
    | some value => exact ⟨rfl, h⟩
    | none => exact ⟨rfl, h⟩
  | erase key =>
    obtain ⟨hbool, herase⟩ := erase_spec h
    exact ⟨congrArg Result.bool hbool, herase⟩
  | find key => exact ⟨congrArg Result.bool (find_eq h key), h⟩
  | getByIndex pos =>
    rw [call, getByIndex, specCall, ← h]
    by_cases hpos : pos < m.size_
    · rw [dif_pos hpos, getElem?_entries_eq ⟨pos, hpos⟩]
      exact ⟨rfl, h⟩
    · rw [dif_neg hpos, getElem?_entries, if_neg hpos]
      exact ⟨rfl, h⟩
  | size => exact ⟨congrArg Result.size (by rw [← h, length_entries]), h⟩

/-- A value that has been left in the array is read. -/
theorem fresh_of_result (h : m.entries = s.entries)
    (hresult : (m.call c).2 = (specCall MaxSize s c).2) :
    Fresh m c := by
  rintro key rfl hi hlt
  rw [call, subscript, specCall, hi, (find_of_search_none h hi).1] at hresult
  dsimp only at hresult
  rw [← h, length_entries, dif_pos hlt, if_pos hlt] at hresult
  have hvalue : (m.push key hlt).valueAt ⟨m.size_, hlt⟩ = default := Result.value.inj hresult
  exact (congrArg Prod.snd (get_push key hlt)).symm.trans hvalue

/-! ## Runs -/

/-- Every call of the run is fresh where it is made. -/
def FreshRun (m : ConstexprMap K V MaxSize) (calls : List (Call K V)) : Prop :=
  ∀ before c after, calls = before ++ c :: after → Fresh (m.run before).1 c

theorem FreshRun.cons_iff : FreshRun m (c :: calls) ↔ Fresh m c ∧ FreshRun (m.call c).1 calls := by
  constructor
  · intro h
    refine ⟨h [] c calls rfl, fun before d after heq ↦ h (c :: before) d after ?_⟩
    rw [heq]
    rfl
  · rintro ⟨hc, hcalls⟩ before d after heq
    cases before with
    | nil =>
      obtain ⟨rfl, -⟩ := List.cons.inj heq
      exact hc
    | cons b before =>
      obtain ⟨rfl, hrest⟩ := List.cons.inj heq
      exact hcalls before d after hrest

theorem FreshRun.of_prefix {before : List (Call K V)} (h : FreshRun m calls)
    (hbefore : before <+: calls) :
    FreshRun m before := by
  obtain ⟨rest, rfl⟩ := hbefore
  intro b c after heq
  exact h b c (after ++ rest) (by rw [heq, List.append_assoc]; rfl)

/-- **A run.** -/
theorem run_spec (h : m.entries = s.entries) (hfresh : FreshRun m calls) :
    (m.run calls).2 = (specRun MaxSize s calls).2 ∧
      (m.run calls).1.entries = (specRun MaxSize s calls).1.entries := by
  induction calls generalizing m s with
  | nil => exact ⟨rfl, h⟩
  | cons c calls ih =>
    obtain ⟨hc, hcalls⟩ := FreshRun.cons_iff.mp hfresh
    obtain ⟨hresult, hentries⟩ := call_spec h hc
    obtain ⟨hresults, hentries'⟩ := ih hentries hcalls
    exact ⟨congrArg₂ _ hresult hresults, hentries'⟩

theorem freshRun_of_results (h : m.entries = s.entries)
    (hresults : (m.run calls).2 = (specRun MaxSize s calls).2) : FreshRun m calls := by
  induction calls generalizing m s with
  | nil =>
    intro before c after heq
    exact absurd heq.symm (List.append_ne_nil_of_right_ne_nil _ (List.cons_ne_nil _ _))
  | cons c calls ih =>
    obtain ⟨hresult, hresults⟩ := List.cons.inj hresults
    have hc := fresh_of_result h hresult
    exact FreshRun.cons_iff.mpr ⟨hc, ih (call_spec h hc).2 hresults⟩

/-- The keys stay distinct, whatever the values are. -/
theorem nodup_call (h : (m.entries.map Prod.fst).Nodup) (c : Call K V) :
    ((m.call c).1.entries.map Prod.fst).Nodup := by
  have hm : m.entries = (⟨m.entries, h⟩ : OrderedMap K V).entries := rfl
  cases c with
  | subscript key =>
    rw [call, subscript]
    cases hi : m.search key with
    | some i => exact h
    | none =>
      by_cases hlt : m.size_ < MaxSize
      · dsimp only
        rw [dif_pos hlt]
        have hkeys := (find_of_search_none hm hi).2
        have happend := (OrderedMap.append _ key m.map_[m.size_].2 hkeys).nodup
        rwa [show (OrderedMap.append _ key m.map_[m.size_].2 hkeys).entries =
          _ from (entries_push hlt).symm] at happend
      · dsimp only
        rw [dif_neg hlt]
        exact h
  | assign key value =>
    rw [(assign_spec hm).2]
    exact (specCall MaxSize _ (.assign key value)).1.nodup
  | constSubscript key =>
    rw [call]
    cases m.constSubscript key <;> exact h
  | erase key =>
    rw [call, (erase_spec hm).2]
    exact (OrderedMap.erase _ key).nodup
  | find key => exact h
  | getByIndex pos =>
    rw [call]
    cases m.getByIndex pos <;> exact h
  | size => exact h

/-- **The keys are distinct after every run.** -/
theorem nodup_run (h : (m.entries.map Prod.fst).Nodup) (calls : List (Call K V)) :
    ((m.run calls).1.entries.map Prod.fst).Nodup := by
  induction calls generalizing m with
  | nil => exact h
  | cons c calls ih => exact ih (nodup_call h c)

/-! ## What is left in the array -/

/-- The values behind the pairs, the first of them first: `Erase` leaves that of the last pair
there, and a pair that is appended comes to where the first one is. -/
def leftCall (MaxSize : ℕ) (s : OrderedMap K V) (left : List V) : Call K V → List V
  | .subscript key | .assign key _ =>
    if key ∉ s.keys ∧ s.entries.length < MaxSize then left.tail else left
  | .erase key => if key ∈ s.keys then (s.entries.getLast?.map Prod.snd).toList ++ left else left
  | _ => left

/-- Whenever a pair is appended and its value is read, what is left there is `V{}`. -/
def NothingLeft (MaxSize : ℕ) : OrderedMap K V → List V → List (Call K V) → Prop
  | _, _, [] => True
  | s, left, c :: calls =>
    (∀ key, c = .subscript key → key ∉ s.keys → s.entries.length < MaxSize →
      left.getD 0 default = default) ∧
      NothingLeft MaxSize (specCall MaxSize s c).1 (leftCall MaxSize s left c) calls

/-- These values are behind the pairs, and then `V{}`. -/
def Behind (m : ConstexprMap K V MaxSize) (left : List V) : Prop :=
  ∀ n p, m.map_[m.size_ + n]? = some p → p.2 = left.getD n default

variable {left : List V}

omit [DecidableEq K] in
theorem behind_empty [Inhabited K] : Behind (empty K V MaxSize) [] := by
  intro n p hp
  obtain ⟨hlt, rfl⟩ := Vector.getElem?_eq_some_iff.mp hp
  exact congrArg Prod.snd (Vector.getElem_replicate hlt)

omit [DecidableEq K] in
theorem Behind.push (h : Behind m left) (hlt : m.size_ < MaxSize) :
    Behind (m.push key hlt) left.tail := by
  intro n p hp
  rw [ConstexprMap.push, Vector.getElem?_set, if_neg (by dsimp only; omega)] at hp
  have hnext := h (n + 1) p (by rw [← hp]; congr 1; dsimp only; omega)
  rw [hnext, List.getD_eq_getElem?_getD, List.getD_eq_getElem?_getD, List.getElem?_tail]

omit [DecidableEq K] in
theorem Behind.assignAt (h : Behind m left) {i : Fin MaxSize} (hi : i.val < m.size_) :
    Behind (m.assignAt i value) left := by
  intro n p hp
  rw [ConstexprMap.assignAt, Vector.getElem?_set, if_neg (by dsimp only; omega)] at hp
  exact h n p hp

/-- The value of the last pair stays where it has been. -/
theorem Behind.erase (h : Behind m left) {i : Fin m.size_} (hi : m.search key = some i) :
    Behind (m.erase key).1 ((m.entries.getLast?.map Prod.snd).toList ++ left) := by
  have hlt := i.isLt
  have hle := m.size_le
  intro n p hp
  rw [ConstexprMap.erase, hi] at hp
  dsimp only at hp
  rw [shiftValues, getElem?_shiftLoop (Nat.succ_pos _), if_neg (by omega)] at hp
  have hlast : m.entries.getLast? = m.map_[m.size_ - 1]? := by
    rw [List.getLast?_eq_getElem?, length_entries, getElem?_entries, if_pos (by omega)]
  cases n with
  | zero =>
    rw [Nat.add_zero] at hp
    rw [hlast, hp]
    rfl
  | succ n =>
    have hthere : m.map_[m.size_ - 1]? = some m.map_[m.size_ - 1] :=
      Vector.getElem?_eq_getElem (by omega)
    rw [hlast, hthere]
    refine h n p ?_
    rw [← hp]
    congr 1
    omega

/-- **One call.** -/
theorem Behind.call (hb : Behind m left) (h : m.entries = s.entries) (c : Call K V) :
    Behind (m.call c).1 (leftCall MaxSize s left c) := by
  have hlength : s.entries.length = m.size_ := by rw [← h, length_entries]
  cases c with
  | subscript key =>
    rw [ConstexprMap.call, subscript, leftCall, hlength]
    cases hi : m.search key with
    | some i => rwa [if_neg fun hnot ↦ hnot.1 (find_of_search h hi).2]
    | none =>
      have hkeys := (find_of_search_none h hi).2
      by_cases hlt : m.size_ < MaxSize
      · rw [if_pos ⟨hkeys, hlt⟩]
        dsimp only
        rw [dif_pos hlt]
        exact hb.push hlt
      · rw [if_neg fun hnot ↦ hlt hnot.2]
        dsimp only
        rwa [dif_neg hlt]
  | assign key value =>
    rw [ConstexprMap.call, subscript, leftCall, hlength]
    cases hi : m.search key with
    | some i =>
      rw [if_neg fun hnot ↦ hnot.1 (find_of_search h hi).2]
      exact hb.assignAt i.isLt
    | none =>
      have hkeys := (find_of_search_none h hi).2
      by_cases hlt : m.size_ < MaxSize
      · rw [if_pos ⟨hkeys, hlt⟩]
        dsimp only
        rw [dif_pos hlt]
        exact (hb.push hlt).assignAt (Nat.lt_succ_self _)
      · rw [if_neg fun hnot ↦ hlt hnot.2]
        dsimp only
        rwa [dif_neg hlt]
  | constSubscript key =>
    rw [ConstexprMap.call]
    cases m.constSubscript key <;> exact hb
  | erase key =>
    rw [ConstexprMap.call, leftCall, ← h]
    cases hi : m.search key with
    | some i =>
      rw [if_pos (find_of_search h hi).2]
      exact hb.erase hi
    | none =>
      rw [if_neg (find_of_search_none h hi).2, ConstexprMap.erase, hi]
      exact hb
  | find key => exact hb
  | getByIndex pos =>
    rw [ConstexprMap.call]
    cases m.getByIndex pos <;> exact hb
  | size => exact hb

theorem fresh_iff (hb : Behind m left) (h : m.entries = s.entries) : Fresh m c ↔
    ∀ key, c = .subscript key → key ∉ s.keys → s.entries.length < MaxSize →
      left.getD 0 default = default := by
  have hslot (hlt : m.size_ < MaxSize) : m.map_[m.size_].2 = left.getD 0 default :=
    hb 0 _ (Vector.getElem?_eq_getElem hlt)
  rw [← h, length_entries]
  refine forall₂_congr fun key _ ↦ ?_
  constructor
  · intro hfresh hkeys hlt
    have hnone : m.search key = none := by
      cases hi : m.search key with
      | none => rfl
      | some i => exact absurd (find_of_search h hi).2 hkeys
    rw [← hslot hlt, hfresh hnone hlt]
  · intro hleft hi hlt
    rw [hslot hlt, hleft (find_of_search_none h hi).2 hlt]

/-- **Which values are left, by the calls that have been made.** -/
theorem freshRun_iff (hb : Behind m left) (h : m.entries = s.entries) :
    FreshRun m calls ↔ NothingLeft MaxSize s left calls := by
  induction calls generalizing m s left with
  | nil =>
    refine iff_of_true (fun before c after heq ↦ ?_) trivial
    exact absurd heq.symm (List.append_ne_nil_of_right_ne_nil _ (List.cons_ne_nil _ _))
  | cons c calls ih =>
    rw [FreshRun.cons_iff, NothingLeft, ← fresh_iff hb h]
    exact and_congr_right fun hfresh ↦ ih (hb.call h c) (call_spec h hfresh).2

/-! ## The main result -/

variable [Inhabited K]

/-- **When the map is a map in the order of insertion.**  No value that is read must be left from
before. -/
theorem run_correct_iff (MaxSize : ℕ) (calls : List (Call K V)) :
    (((empty K V MaxSize).run calls).2 = (specRun MaxSize (.empty K V) calls).2 ∧
        ∀ before, before <+: calls →
          ((empty K V MaxSize).run before).1.entries =
            (specRun MaxSize (.empty K V) before).1.entries ∧
          (((empty K V MaxSize).run before).1.entries.map Prod.fst).Nodup) ↔
      ∀ before c after, calls = before ++ c :: after →
        Fresh ((empty K V MaxSize).run before).1 c := by
  have hempty : (empty K V MaxSize).entries = (OrderedMap.empty K V).entries := rfl
  constructor
  · exact fun h ↦ freshRun_of_results hempty h.1
  · intro hfresh
    refine ⟨(run_spec hempty hfresh).1, fun before hbefore ↦ ?_⟩
    have hentries := (run_spec hempty (FreshRun.of_prefix hfresh hbefore)).2
    refine ⟨hentries, ?_⟩
    rw [hentries]
    exact (specRun MaxSize (.empty K V) before).1.nodup

/-- **The results are right exactly if no value that is left is read.** -/
theorem results_eq_iff (MaxSize : ℕ) (calls : List (Call K V)) :
    ((empty K V MaxSize).run calls).2 = (specRun MaxSize (.empty K V) calls).2 ↔
      NothingLeft MaxSize (.empty K V) [] calls := by
  have hempty : (empty K V MaxSize).entries = (OrderedMap.empty K V).entries := rfl
  rw [← freshRun_iff behind_empty hempty]
  exact ⟨freshRun_of_results hempty, fun hfresh ↦ (run_spec hempty hfresh).1⟩

/-- A key is erased, and another one has its value. -/
theorem not_default_after_erase :
    ((empty ℕ ℕ 8).run [.assign 1 5, .erase 1, .subscript 2]).2 ≠
      (specRun 8 (.empty ℕ ℕ) [.assign 1 5, .erase 1, .subscript 2]).2 := by
  decide

end ConstexprMap
end ManyTasks
