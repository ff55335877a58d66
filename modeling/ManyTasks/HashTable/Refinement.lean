import ManyTasks.HashTable.Buckets
import Mathlib.Data.Finmap

/-!
# The hash map is a finite map

What `ConcurrentHashMap` is for is a finite map, and `Spec.act` says what its operations do to one.
A state of the map stands for a finite map if the same keys have the same values (`Holds`); every
step of the map is then a step of the finite map that returns the same.  The second half of
`Insert`, whenever it is run, is none.

* `IsMap`: every run returns what a finite map returns, and in every state that is reached the lists
  are sorted, every key is in its list, the number of lists is a positive multiple of the number of
  locks and `size_` is the number of keys.
* `refines_iff`: the constructor makes a map of which this is true if and only if it asks for a
  list.
* `map_refines_iff`: it does so for all hints but one kind, where no size is expected and four times
  the number of threads is too large for an `int`.
-/

set_option autoImplicit false

namespace ManyTasks
namespace HashTable

open Lib (bucket SortedKeys)

variable {K V : Type} [LinearOrder K] {hasher_ : K → ℕ}

/-! ## Finite maps -/

/-- What the operations do to a finite map, and what they return. -/
def Spec.act [Inhabited V] (m : Finmap fun _ : K ↦ V) : Op K V → Res V × Finmap fun _ : K ↦ V
  | .insert key value =>
    if (m.lookup key).isSome then (.bool false, m) else (.bool true, m.insert key value)
  | .erase key => (.bool (m.lookup key).isSome, m.erase key)
  | .find key => ((m.lookup key).elim (.pair false default) (.pair true), m)
  | .value key => ((m.lookup key).elim (.outOfRange "WTF") .value, m)
  | .clear => (.void, ∅)
  | .size => (.size m.keys.card, m)
  | .testAndSet | .rehash | .release => (.void, m)

/-- One step of the finite map, with what it returns. -/
def Spec.Step [Inhabited V] (m : Finmap fun _ : K ↦ V) (l : Op K V × Res V)
    (m' : Finmap fun _ : K ↦ V) : Prop :=
  Spec.act m l.1 = (l.2, m')

/-- The state stands for the finite map. -/
structure Holds (hasher_ : K → ℕ) (s : Map K V) (m : Finmap fun _ : K ↦ V) : Prop where
  buckets : Buckets hasher_ s.table_
  lookup {key : K} {v : V} : m.lookup key = some v ↔ (key, v) ∈ s.table_.flatten
  size : s.size_ = s.table_.flatten.length
  pos : 0 < s.table_.length
  locks : s.mutexes_ ∣ s.table_.length

/-! ## The constructor -/

/-- The hints are values of `int`, and four times the number of threads is one where no size is
expected. -/
structure Hinted (expected_size expected_threads_count : ℤ) : Prop where
  size : expected_size = kUndefinedSize ∧ 4 * expected_threads_count < 2 ^ 31 ∨
    0 ≤ expected_size ∧ expected_size < 2 ^ 31
  pos : 0 < expected_threads_count
  lt : expected_threads_count < 2 ^ 31

theorem int_eq {overflow : ℤ → ℤ} {x : ℤ} (hlow : -2 ^ 31 ≤ x) (hhigh : x < 2 ^ 31) :
    int overflow x = x :=
  Lib.checked_of_inRange ⟨hlow, hhigh⟩

/-- Where a size is expected nothing overflows: the threads share half of it, and there is a list
for each of them. -/
theorem listsCnt_eq (overflow : ℤ → ℤ) {expected_size expected_threads_count : ℤ}
    (hsize : 0 ≤ expected_size) (hmax : expected_size < 2 ^ 31) (hpos : 0 < expected_threads_count)
    (hlt : expected_threads_count < 2 ^ 31) :
    ∃ share, 0 ≤ share ∧ (share + 1) * expected_threads_count < 2 ^ 31 ∧
      listsCnt overflow expected_size expected_threads_count = (share + 1) *
        expected_threads_count := by
  obtain ⟨a, ha, hhalf, heq⟩ : ∃ a, 0 ≤ a ∧ 2 * a ≤ expected_size ∧
      (expected_size - 1).tdiv kLoadFactor = a := by
    rcases eq_or_lt_of_le hsize with rfl | hone
    · exact ⟨0, by decide, by decide, by decide⟩
    · refine ⟨(expected_size - 1) / 2, by omega, by omega, ?_⟩
      exact Int.tdiv_eq_ediv_of_nonneg (by omega)
  have hshare : 0 ≤ a / expected_threads_count := Int.ediv_nonneg ha hpos.le
  have hdiv : a / expected_threads_count * expected_threads_count ≤ a := Int.ediv_mul_le a hpos.ne'
  have hsmall : a / expected_threads_count ≤ a := Int.ediv_le_self _ ha
  have hfits : (a / expected_threads_count + 1) * expected_threads_count < 2 ^ 31 := by
    rw [Int.add_mul, Int.one_mul]
    rcases lt_or_ge a expected_threads_count with hfew | hmany
    · rwa [Int.ediv_eq_zero_of_lt ha hfew, Int.zero_mul, Int.zero_add]
    · omega
  refine ⟨_, hshare, hfits, ?_⟩
  have hproduct : 0 ≤ (a / expected_threads_count + 1) * expected_threads_count :=
    Int.mul_nonneg (by omega) hpos.le
  rw [listsCnt, int_eq (x := expected_size - 1) (by omega) (by omega), heq,
    int_eq (x := a + 1) (by omega) (by omega), Int.add_sub_cancel,
    int_eq (x := a) (by omega) (by omega), Int.tdiv_eq_ediv_of_nonneg ha,
    int_eq (x := a / expected_threads_count + 1) (by omega) (by omega)]
  exact int_eq (by omega) hfits

/-- With such hints there is a list, and there are not more than an `int` can count. -/
theorem Hinted.initialSize {expected_size expected_threads_count : ℤ}
    (h : Hinted expected_size expected_threads_count) (overflow : ℤ → ℤ) :
    0 < initialSize overflow expected_size expected_threads_count ∧
      initialSize overflow expected_size expected_threads_count < 2 ^ 31 := by
  have hpos := h.pos
  unfold HashTable.initialSize
  rcases h.size with ⟨rfl, hfour⟩ | ⟨hnonneg, hmax⟩
  · rw [if_neg (not_not.mpr rfl), int_eq (by omega) hfour]
    exact ⟨by omega, hfour⟩
  · have hdefined : expected_size ≠ kUndefinedSize := by
      rw [kUndefinedSize]
      omega
    obtain ⟨share, hshare, hfits, heq⟩ := listsCnt_eq overflow hnonneg hmax hpos h.lt
    rw [if_pos hdefined, heq]
    exact ⟨Int.mul_pos (by omega) hpos, hfits⟩

theorem holds_init {lists_cnt : ℕ} (hpos : 0 < lists_cnt) :
    Holds hasher_ (init lists_cnt : Map K V) ∅ := by
  have hnil (i : ℕ) : bucket (List.replicate lists_cnt ([] : List (K × V))) i = [] := by
    rw [bucket, List.getD_eq_getElem?_getD, List.getElem?_replicate]
    split <;> rfl
  refine ⟨⟨⟨fun i ↦ ?_, ?_⟩, fun {i e} he ↦ ?_⟩, fun {key v} ↦ ?_, ?_, ?_, ?_⟩
  · exact (hnil i).symm ▸ List.Pairwise.nil
  · simp [init]
  · exact absurd (hnil i ▸ he) List.not_mem_nil
  · simp [init]
  · simp [init]
  · simpa [init] using hpos
  · simp [init]

/-! ## Operations -/

section

variable {s : Map K V} {m : Finmap fun _ : K ↦ V} (h : Holds hasher_ s m) (key : K)
include h

theorem Holds.lookup_none {key : K} : m.lookup key = none ↔ ∀ v, (key, v) ∉ s.table_.flatten := by
  rw [Option.eq_none_iff_forall_ne_some]
  exact forall_congr' fun v ↦ not_congr h.lookup

theorem Holds.findInList :
    findInList s.table_ (hasher_ key % s.table_.length) key = (m.lookup key).map (key, ·) := by
  refine Option.ext fun ⟨key', v⟩ ↦ ?_
  rw [h.buckets.findInList_eq_some, Option.map_eq_some_iff]
  constructor
  · rintro ⟨hmem, rfl⟩
    exact ⟨v, h.lookup.mpr (h.buckets.mem_flatten.mpr hmem), rfl⟩
  · rintro ⟨v', hv', heq⟩
    obtain ⟨rfl, rfl⟩ := Prod.mk.inj heq
    exact ⟨h.buckets.mem_flatten.mp (h.lookup.mp hv'), rfl⟩

/-- The number of stored keys. -/
theorem Holds.card_keys : m.keys.card = s.table_.flatten.length := by
  have hkeys : m.keys = (s.table_.flatten.map Prod.fst).toFinset := by
    ext key
    rw [Finmap.mem_keys, Finmap.mem_iff, List.mem_toFinset, List.mem_map]
    constructor
    · rintro ⟨v, hv⟩
      exact ⟨(key, v), h.lookup.mp hv, rfl⟩
    · rintro ⟨⟨key', v⟩, hmem, rfl⟩
      exact ⟨v, h.lookup.mpr hmem⟩
  rw [hkeys, List.toFinset_card_of_nodup h.buckets.nodup, List.length_map]

theorem Holds.insert_old {v : V} (hold : m.lookup key = some v) (value : V) :
    (insert hasher_ key value s).1 = false ∧ Holds hasher_ (insert hasher_ key value s).2 m := by
  have hmem : (key, v) ∈ bucket s.table_ (hasher_ key % s.table_.length) :=
    h.buckets.mem_flatten.mp (h.lookup.mp hold)
  have heq := h.buckets.insertIntoList_old (e := (key, value)) hmem
  unfold HashTable.insert
  simp only [heq]
  exact ⟨trivial, h.buckets, h.lookup, h.size, h.pos, h.locks⟩

theorem Holds.insert_new (hnew : m.lookup key = none) (value : V) :
    (insert hasher_ key value s).1 = true ∧
      Holds hasher_ (insert hasher_ key value s).2 (m.insert key value) := by
  have hfresh := h.lookup_none.mp hnew
  have hnot (v : V) : (key, v) ∉ bucket s.table_ (hasher_ key % s.table_.length) :=
    fun hv ↦ hfresh v (h.buckets.mem_flatten.mpr hv)
  obtain ⟨l, heq, hl, hsorted⟩ := h.buckets.insertIntoList_new (e := (key, value)) hnot
  have hperm := Lib.flatten_set_perm (Nat.mod_lt _ h.pos) hl
  unfold HashTable.insert
  simp only [heq]
  refine ⟨trivial, h.buckets.set_insert rfl h.pos hl hsorted hnot, fun {key' v} ↦ ?_, ?_, ?_, ?_⟩
  · show _ ↔ _ ∈ (s.table_.set _ l).flatten
    rw [hperm.mem_iff, List.mem_cons, Prod.mk.injEq]
    by_cases hkey : key' = key
    · subst hkey
      rw [Finmap.lookup_insert, Option.some_inj]
      exact ⟨fun hv ↦ .inl ⟨rfl, hv.symm⟩, fun hv ↦
        (hv.resolve_right (hfresh v)).2.symm⟩
    · rw [Finmap.lookup_insert_of_ne m hkey, h.lookup]
      exact ⟨.inr, fun hv ↦ hv.resolve_left fun heq ↦ hkey heq.1⟩
  · show s.size_ + 1 = _
    rw [hperm.length_eq, List.length_cons, h.size]
  · show 0 < (s.table_.set _ l).length
    rw [List.length_set]
    exact h.pos
  · show _ ∣ (s.table_.set _ l).length
    rw [List.length_set]
    exact h.locks

theorem Holds.erase_new (hnew : m.lookup key = none) :
    (eraseKey hasher_ key s).1 = false ∧ Holds hasher_ (eraseKey hasher_ key s).2
    (m.erase key) := by
  have hfresh := h.lookup_none.mp hnew
  have hnot (v : V) : (key, v) ∉ bucket s.table_ (hasher_ key % s.table_.length) :=
    fun hv ↦ hfresh v (h.buckets.mem_flatten.mpr hv)
  have heq := h.buckets.eraseFromList_new hnot
  have herase : m.erase key = m := by
    refine Finmap.ext_lookup fun key' ↦ ?_
    by_cases hkey : key' = key
    · rw [hkey, Finmap.lookup_erase, hnew]
    · exact Finmap.lookup_erase_ne hkey
  unfold eraseKey
  simp only [heq, herase]
  exact ⟨trivial, h.buckets, h.lookup, h.size, h.pos, h.locks⟩

theorem Holds.erase_old {v : V} (hold : m.lookup key = some v) :
    (eraseKey hasher_ key s).1 = true ∧ Holds hasher_ (eraseKey hasher_ key s).2 (m.erase key) := by
  have hmem : (key, v) ∈ bucket s.table_ (hasher_ key % s.table_.length) :=
    h.buckets.mem_flatten.mp (h.lookup.mp hold)
  obtain ⟨l, heq, hl, hsorted⟩ := h.buckets.eraseFromList_old hmem
  have hperm := Lib.flatten_perm_set (Nat.mod_lt _ h.pos) hl
  have hgone (v' : V) : (key, v') ∉ (s.table_.set _ l).flatten := fun hv ↦ by
    have hnodup := (hperm.map Prod.fst).nodup_iff.mp h.buckets.nodup
    exact (List.nodup_cons.mp hnodup).1 (List.mem_map.mpr ⟨_, hv, rfl⟩)
  unfold eraseKey
  simp only [heq]
  refine ⟨trivial, h.buckets.set_erase (Nat.mod_lt _ h.pos) hl hsorted, fun {key' v'} ↦ ?_, ?_, ?_,
    ?_⟩
  · show _ ↔ _ ∈ (s.table_.set _ l).flatten
    by_cases hkey : key' = key
    · subst hkey
      rw [Finmap.lookup_erase]
      exact ⟨nofun, fun hv ↦ absurd hv (hgone v')⟩
    · rw [Finmap.lookup_erase_ne hkey, h.lookup, hperm.mem_iff, List.mem_cons, Prod.mk.injEq]
      exact or_iff_right fun heq ↦ hkey heq.1
  · show s.size_ - 1 = _
    rw [h.size, hperm.length_eq, List.length_cons, Nat.add_sub_cancel]
  · show 0 < (s.table_.set _ l).length
    rw [List.length_set]
    exact h.pos
  · show _ ∣ (s.table_.set _ l).length
    rw [List.length_set]
    exact h.locks

theorem Holds.clear : Holds hasher_ (clear s) ∅ := by
  have hnil (i : ℕ) : bucket (s.table_.map fun _ ↦ ([] : List (K × V))) i = [] := by
    simp [bucket, List.getD_eq_getElem?_getD]
  have hflatten : (s.table_.map fun _ ↦ ([] : List (K × V))).flatten = [] := by simp
  refine ⟨⟨⟨fun i ↦ ?_, ?_⟩, fun {i e} he ↦ ?_⟩, fun {key v} ↦ ?_, ?_, ?_, ?_⟩
  · exact (hnil i).symm ▸ List.Pairwise.nil
  · show ((s.table_.map fun _ ↦ ([] : List (K × V))).flatten.map Prod.fst).Nodup
    rw [hflatten]
    exact List.nodup_nil
  · exact absurd ((hnil i) ▸ he) List.not_mem_nil
  · show _ ↔ _ ∈ (s.table_.map fun _ ↦ ([] : List (K × V))).flatten
    rw [hflatten, Finmap.lookup_empty]
    exact ⟨(by simp), fun hmem ↦ absurd hmem List.not_mem_nil⟩
  · show 0 = (s.table_.map fun _ ↦ ([] : List (K × V))).flatten.length
    rw [hflatten]
    rfl
  · show 0 < (s.table_.map _).length
    rw [List.length_map]
    exact h.pos
  · show _ ∣ (s.table_.map _).length
    rw [List.length_map]
    exact h.locks

/-- `Rehash` may come at any time. -/
theorem Holds.rehash (a b : ℕ) :
    Holds hasher_
      { s with table_ := rehash hasher_ s.table_, rehashing := a, rehashed := b } m := by
  obtain ⟨hbuckets, hlength, hperm⟩ := h.buckets.toLists.rehash hasher_
  refine ⟨hbuckets, h.lookup.trans hperm.mem_iff.symm, h.size.trans hperm.length_eq.symm, ?_, ?_⟩
  · show 0 < (HashTable.rehash hasher_ s.table_).length
    rw [hlength]
    exact Nat.mul_pos Nat.zero_lt_two h.pos
  · show _ ∣ (HashTable.rehash hasher_ s.table_).length
    rw [hlength]
    exact Dvd.dvd.mul_left h.locks 2

end

/-- A step that does not touch the table. -/
theorem Holds.of_eq {s s' : Map K V} {m : Finmap fun _ : K ↦ V} (h : Holds hasher_ s m)
    (htable : s'.table_ = s.table_) (hsize : s'.size_ = s.size_)
    (hlocks : s'.mutexes_ = s.mutexes_) :
    Holds hasher_ s' m := by
  refine ⟨htable ▸ h.buckets, ?_, ?_, htable ▸ h.pos, ?_⟩
  · rw [htable]
    exact h.lookup
  · rw [htable, hsize, h.size]
  · rw [htable, hlocks]
    exact h.locks

/-! ## Runs -/

section

variable [Inhabited V]

/-- **One step** of the map is one of the finite map, and returns the same. -/
theorem Holds.step {s s' : Map K V} {m : Finmap fun _ : K ↦ V} {l : Op K V × Res V}
    (h : Holds hasher_ s m) (hstep : Step hasher_ s l s') :
    ∃ m', Spec.Step m l m' ∧ Holds hasher_ s' m' := by
  obtain ⟨op, r⟩ := l
  unfold Step at hstep
  unfold Spec.Step
  have hdone {res : Res V} {s₁ : Map K V} {m' : Finmap fun _ : K ↦ V}
      (hact : act hasher_ s op = some (res, s₁)) (hspec : Spec.act m op = (res, m'))
      (hholds : Holds hasher_ s₁ m') : ∃ m', Spec.act m op = (r, m') ∧ Holds hasher_ s' m' := by
    obtain ⟨rfl, rfl⟩ := Prod.mk.inj (Option.some.inj (hact.symm.trans hstep))
    exact ⟨m', hspec, hholds⟩
  cases op with
  | insert key v =>
    have hact : act hasher_ s (.insert key v) =
        some (.bool (insert hasher_ key v s).1, (insert hasher_ key v s).2) := rfl
    cases hlookup : m.lookup key with
    | none =>
      obtain ⟨hres, hholds⟩ := h.insert_new key hlookup v
      exact hdone (hres ▸ hact) (by simp [Spec.act, hlookup]) hholds
    | some v' =>
      obtain ⟨hres, hholds⟩ := h.insert_old key hlookup v
      exact hdone (hres ▸ hact) (by simp [Spec.act, hlookup]) hholds
  | erase key =>
    have hact : act hasher_ s (.erase key) =
        some (.bool (eraseKey hasher_ key s).1, (eraseKey hasher_ key s).2) := rfl
    cases hlookup : m.lookup key with
    | none =>
      obtain ⟨hres, hholds⟩ := h.erase_new key hlookup
      exact hdone (hres ▸ hact) (by simp [Spec.act, hlookup]) hholds
    | some v' =>
      obtain ⟨hres, hholds⟩ := h.erase_old key hlookup
      exact hdone (hres ▸ hact) (by simp [Spec.act, hlookup]) hholds
  | find key =>
    refine hdone rfl ?_ h
    rw [Spec.act, find, h.findInList key]
    cases m.lookup key <;> rfl
  | value key =>
    refine hdone rfl ?_ h
    rw [Spec.act, value, find, h.findInList key]
    cases m.lookup key <;> rfl
  | clear => exact hdone rfl rfl h.clear
  | size => exact hdone rfl (by rw [Spec.act, h.card_keys, h.size]) h
  | testAndSet =>
    dsimp only [act] at hstep
    split at hstep
    · split at hstep
      all_goals
        obtain ⟨rfl, rfl⟩ := Prod.mk.inj (Option.some.inj hstep)
        exact ⟨m, rfl, h.of_eq rfl rfl rfl⟩
    · cases hstep
  | rehash =>
    dsimp only [act] at hstep
    split at hstep
    · obtain ⟨rfl, rfl⟩ := Prod.mk.inj (Option.some.inj hstep)
      exact ⟨m, rfl, h.rehash _ _⟩
    · cases hstep
  | release =>
    dsimp only [act] at hstep
    split at hstep
    · obtain ⟨rfl, rfl⟩ := Prod.mk.inj (Option.some.inj hstep)
      exact ⟨m, rfl, h.of_eq rfl rfl rfl⟩
    · cases hstep

/-- **What a map is to be** in a state that a run has reached.  All operations have returned what
those of a finite map return that holds the same entries, and it has `size_` keys.  The lists are
strictly sorted by key, every key is in the list its hash says, the number of lists is a positive
multiple of the number of locks, so that the lock of a key is that of its list, and `size_` is the
number of keys in the lists. -/
structure IsMap (hasher_ : K → ℕ) (h : List (Map K V × (Op K V × Res V))) (s : Map K V) : Prop where
  returns : ∃ h' m, Lib.Trace Spec.Step (∅ : Finmap fun _ : K ↦ V) h' m ∧
    h'.map Prod.snd = h.map Prod.snd ∧ s.size_ = m.keys.card ∧
    ∀ key v, m.lookup key = some v ↔ (key, v) ∈ s.table_.flatten
  sorted : ∀ i, SortedKeys (bucket s.table_ i)
  placed : ∀ i e, e ∈ bucket s.table_ i → hasher_ e.1 % s.table_.length = i
  locks : 0 < s.table_.length ∧ s.mutexes_ ∣ s.table_.length ∧
    ∀ key, hasher_ key % s.table_.length % s.mutexes_ = hasher_ key % s.mutexes_
  size : s.size_ = (s.table_.flatten.map Prod.fst).toFinset.card

/-- The constructor makes a map, and every run of it is that of a finite map. -/
def Refines (V : Type) [Inhabited V] (overflow : ℤ → ℤ) (hasher_ : K → ℕ)
    (expected_size expected_threads_count : ℤ) : Prop :=
  ∃ s₀, construct overflow K V expected_size expected_threads_count = some s₀ ∧
    ∀ (h : List (Map K V × (Op K V × Res V))) (s : Map K V), Lib.Trace (Step hasher_) s₀ h s →
      IsMap hasher_ h s

/-- Every run of a map that has a list. -/
theorem isMap_of_trace {lists_cnt : ℕ} (hpos : 0 < lists_cnt)
    {h : List (Map K V × (Op K V × Res V))} {s : Map K V}
    (hrun : Lib.Trace (Step hasher_) (init lists_cnt) h s) : IsMap hasher_ h s := by
  obtain ⟨h', m, hrun', hlabels, hholds⟩ :=
    hrun.simulation (holds_init hpos) fun _ _ _ _ hholds hstep ↦ hholds.step hstep
  refine ⟨⟨h', m, hrun', hlabels, hholds.size.trans hholds.card_keys.symm, fun _ _ ↦ hholds.lookup⟩,
    hholds.buckets.sorted, fun _ _ ↦ hholds.buckets.placed,
    ⟨hholds.pos, hholds.locks, fun key ↦ Nat.mod_mod_of_dvd _ hholds.locks⟩, ?_⟩
  rw [List.toFinset_card_of_nodup hholds.buckets.nodup, List.length_map]
  exact hholds.size

/-- A map without a list would have to look for a key in list `hash % 0`. -/
theorem refines_iff (overflow : ℤ → ℤ) (hasher_ : K → ℕ)
    (expected_size expected_threads_count : ℤ) :
    Refines V overflow hasher_ expected_size expected_threads_count ↔
      0 < initialSize overflow expected_size expected_threads_count := by
  unfold Refines construct
  constructor
  · rintro ⟨s₀, hs₀, hall⟩
    split at hs₀
    · cases hs₀
    · obtain rfl := Option.some.inj hs₀
      have hpos := (hall [] _ .nil).locks.1
      simpa [init] using hpos
  · intro hpos
    rw [if_neg (by omega)]
    exact ⟨_, rfl, fun h s hrun ↦ isMap_of_trace (by omega) hrun⟩

/-- **When the hash map is a finite map.**  Whatever the hash, the map that the constructor makes of
its hints is a finite map, on every machine, if and only if a size is expected or four times the
number of threads is an `int`. -/
theorem map_refines_iff (hasher_ : K → ℕ) {expected_size expected_threads_count : ℤ}
    (hsize : expected_size = kUndefinedSize ∨ 0 ≤ expected_size ∧ expected_size < 2 ^ 31)
    (hpos : 0 < expected_threads_count) (hlt : expected_threads_count < 2 ^ 31) :
    (∀ overflow, Refines V overflow hasher_ expected_size expected_threads_count) ↔
      (expected_size = kUndefinedSize → 4 * expected_threads_count < 2 ^ 31) := by
  constructor
  · rintro h rfl
    by_contra hlarge
    have hnone := (refines_iff (fun _ ↦ 0) hasher_ _ _).mp (h fun _ ↦ 0)
    rw [initialSize, if_neg (not_not.mpr rfl), int,
      Lib.checked_of_not_inRange fun hfits ↦ hlarge hfits.2] at hnone
    exact lt_irrefl 0 hnone
  · intro h overflow
    have hhints : Hinted expected_size expected_threads_count :=
      ⟨hsize.imp_left fun hundefined ↦ ⟨hundefined, h hundefined⟩, hpos, hlt⟩
    exact (refines_iff overflow hasher_ _ _).mpr (hhints.initialSize overflow).1

/-- With one list to begin with, the third key makes the table double; before it is doubled, a key
is erased. -/
theorem map_refines_iff_rehash :
    ∃ (s₀ : Map ℕ ℕ) (h : List (Map ℕ ℕ × (Op ℕ ℕ × Res ℕ))) (s : Map ℕ ℕ),
      construct (Lib.wrap 32) ℕ ℕ 0 1 = some s₀ ∧ Lib.Trace (Step id) s₀ h s ∧
      h.map Prod.snd =
        [(.insert 5 50, .bool true), (.insert 3 30, .bool true), (.insert 3 31, .bool false),
          (.insert 4 40, .bool true), (.erase 5, .bool true), (.testAndSet, .void),
          (.rehash, .void), (.release, .void), (.find 3, .pair true 30),
          (.value 5, .outOfRange "WTF")] ∧
      s.table_ = [[(4, 40)], [(3, 30)]] ∧ IsMap id h s := by
  obtain ⟨h, s, hrun, hp⟩ := Lib.exists_trace_of_play (act id)
    [.insert 5 50, .insert 3 30, .insert 3 31, .insert 4 40, .erase 5, .testAndSet, .rehash,
      .release, .find 3, .value 5] (init 1 : Map ℕ ℕ)
    (fun x ↦ x.1.map Prod.snd =
        [(.insert 5 50, .bool true), (.insert 3 30, .bool true), (.insert 3 31, .bool false),
          (.insert 4 40, .bool true), (.erase 5, .bool true), (.testAndSet, .void),
          (.rehash, .void), (.release, .void), (.find 3, .pair true 30),
          (.value 5, .outOfRange "WTF")] ∧
      x.2.table_ = [[(4, 40)], [(3, 30)]])
    (by decide +kernel)
  obtain ⟨hlabels, htable⟩ := of_decide_eq_true hp
  have hone : initialSize (Lib.wrap 32) 0 1 = 1 := by decide +kernel
  have hconstruct : construct (Lib.wrap 32) ℕ ℕ 0 1 = some (init 1) := by
    rw [construct, hone]
    rfl
  obtain ⟨s₀, hs₀, hall⟩ :=
    (map_refines_iff (V := ℕ) id (.inr ⟨le_rfl, by decide⟩) Int.one_pos (by decide)).mpr nofun
      (Lib.wrap 32)
  obtain rfl := Option.some.inj (hconstruct.symm.trans hs₀)
  exact ⟨init 1, h, s, hconstruct, hrun, hlabels, htable, hall h s hrun⟩

/-- Where no size is expected and `int` wraps, 2 ^ 30 threads get no list and no lock. -/
theorem not_map_refines : construct (Lib.wrap 32) ℕ ℕ kUndefinedSize (2 ^ 30) = some (init 0) ∧
    ¬Refines ℕ (Lib.wrap 32) (id : ℕ → ℕ) kUndefinedSize (2 ^ 30) := by
  have hnone : initialSize (Lib.wrap 32) kUndefinedSize (2 ^ 30) = 0 := by decide +kernel
  refine ⟨?_, fun h ↦ ?_⟩
  · rw [construct, hnone]
    rfl
  · have hpos := (refines_iff _ _ _ _).mp h
    rw [hnone] at hpos
    exact lt_irrefl 0 hpos

end

end HashTable
end ManyTasks
