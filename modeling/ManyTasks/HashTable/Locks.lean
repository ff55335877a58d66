import ManyTasks.HashTable.Refinement
import ManyTasks.Lib.Atomic
import ManyTasks.Lib.Shares
import ManyTasks.Lib.Waiting

/-!
# The hash map and its locks

Here every call goes its own way, one access at a time: it waits for a lock of `mutexes_`, accesses
the list of its key, changes `size_`, reads `size_`, unlocks.  `Clear` and `Rehash` lock all
mutexes, one after the other, beginning with the first, do their work, and unlock them, beginning
with the last.  What is guarded by no lock, `size_` and `is_rehashing_`, may be accessed by others
at any time, and so may the locks that are not taken yet.

* `calls_return`: there is no deadlock, and every call that has begun returns.

What the calls do to the map is shown in `ManyTasks.HashTable.Linearizability`.
-/

set_option autoImplicit false

namespace ManyTasks
namespace HashTable

open Function (update update_self update_of_ne)
open Lib (Label Trace)

variable {C K V : Type}

/-! ## Calls -/

/-- The functions that lock the mutex of a key. -/
inductive Keyed (K V : Type) where
  | insert (key : K) (value : V)
  | erase (key : K)
  | find (key : K)
  /-- `At`. -/
  | value (key : K)
deriving DecidableEq, Repr

def Keyed.key : Keyed K V → K
  | .insert key _ | .erase key | .find key | .value key => key

/-- The functions of the map. -/
inductive Request (K V : Type) where
  | keyed (q : Keyed K V)
  | clear
  | size
deriving DecidableEq, Repr

/-- What all mutexes are locked for: `Clear`, or `Rehash` in a call of `Insert` that has its result
already. -/
inductive Task (K V : Type) where
  | clear
  | rehash (q : Keyed K V) (res : Res V)
deriving DecidableEq, Repr

/-- Where a call is. -/
inductive Place (K V : Type) where
  | idle
  /-- `Size` before it reads `size_`. -/
  | sizing
  /-- Before the mutex of the key is locked. -/
  | waiting (q : Keyed K V)
  /-- It has the mutex, and will access the list. -/
  | holding (q : Keyed K V)
  /-- It has changed the list, and will change `size_`. -/
  | counting (q : Keyed K V)
  /-- `Insert` before `size_ / table_.size() > kLoadFactor`. -/
  | measuring (q : Keyed K V) (res : Res V)
  /-- Before the mutex of the key is unlocked. -/
  | unlocking (q : Keyed K V) (res : Res V) (need_rehash : Bool)
  /-- Before `is_rehashing_.test_and_set()`. -/
  | deciding (q : Keyed K V) (res : Res V)
  /-- `i` mutexes are locked; once there is no other, the work is done. -/
  | lockingAll (task : Task K V) (i : ℕ)
  /-- `Clear` before `size_ = 0`. -/
  | zeroing
  /-- `i` mutexes are still locked. -/
  | unlockingAll (task : Task K V) (i : ℕ)
  /-- Before `is_rehashing_.clear()`. -/
  | releasing (q : Keyed K V) (res : Res V)
  | returning (r : Request K V) (res : Res V)
  | returned (r : Request K V) (res : Res V)
deriving DecidableEq, Repr

/-- The fields of the map, who has which mutex, and where the calls are. -/
structure State (C K V : Type) where
  table_ : List (List (K × V))
  /-- `mutexes_.size()`. -/
  mutexes_ : ℕ
  owner : ℕ → Option C
  size_ : ℕ
  is_rehashing_ : Bool
  places : C → Place K V

/-- After the constructor has asked for so many lists. -/
def State.init (C K V : Type) (lists_cnt : ℤ) : State C K V where
  table_ := List.replicate lists_cnt.toNat []
  mutexes_ := lists_cnt.toNat
  owner _ := none
  size_ := 0
  is_rehashing_ := false
  places _ := .idle

/-! ## Steps -/

/-- How a call begins. -/
def Request.start : Request K V → Place K V
  | .keyed q => .waiting q
  | .clear => .lockingAll .clear 0
  | .size => .sizing

section Functions

variable [LinearOrder K] [Inhabited V] (hasher_ : K → ℕ)

/-- What is done to the list of the key, and where the call is then. -/
def Keyed.access (q : Keyed K V) (table_ : List (List (K × V))) : List (List (K × V)) × Place K V :=
  let list_idx := hasher_ q.key % table_.length
  match q with
  | .insert key v =>
    match insertIntoList list_idx (key, v) table_ with
    | (true, table_) => (table_, .counting q)
    | (false, table_) => (table_, .measuring q (.bool false))
  | .erase key =>
    match eraseFromList list_idx key table_ with
    | (true, table_) => (table_, .counting q)
    | (false, table_) => (table_, .unlocking q (.bool false) false)
  | .find key =>
    match findInList table_ list_idx key with
    | some elem => (table_, .unlocking q (.pair true elem.2) false)
    | none => (table_, .unlocking q (.pair false default) false)
  | .value key =>
    match findInList table_ list_idx key with
    | some elem => (table_, .unlocking q (.value elem.2) false)
    | none => (table_, .unlocking q (.outOfRange "WTF") false)

/-- `++size_` of `Insert` and `--size_` of `Erase`. -/
def Keyed.count (q : Keyed K V) (size_ : ℕ) : ℕ × Place K V :=
  match q with
  | .insert _ _ => (size_ + 1, .measuring q (.bool true))
  | _ => (size_ - 1, .unlocking q (.bool true) false)

/-- What is done under all mutexes. -/
def Task.work (task : Task K V) (table_ : List (List (K × V))) (mutexes_ : ℕ) :
    List (List (K × V)) × Place K V :=
  match task with
  | .clear => (table_.map fun _ ↦ [], .zeroing)
  | .rehash _ _ => (HashTable.rehash hasher_ table_, .unlockingAll task mutexes_)

end Functions

/-- After all mutexes are unlocked. -/
def Task.leave : Task K V → Place K V
  | .clear => .returning .clear .void
  | .rehash q res => .releasing q res

/-- The lock is given back; if `need_rehash`, the call is not over. -/
def Keyed.unlocked (q : Keyed K V) (res : Res V) (need_rehash : Bool) : Place K V :=
  if need_rehash then .deciding q res else .returning (.keyed q) res

/-- `is_rehashing_.test_and_set()`; who finds it set returns. -/
def Keyed.testAndSet (q : Keyed K V) (res : Res V) (is_rehashing_ : Bool) : Place K V :=
  if is_rehashing_ then .returning (.keyed q) res else .lockingAll (.rehash q res) 0

variable [LinearOrder K] [Inhabited V] [DecidableEq C] {hasher_ : K → ℕ}

def State.go (s : State C K V) (c : C) (p : Place K V) : State C K V :=
  { s with places := update s.places c p }

/-- `mutexes_[i].lock()`. -/
def State.lock (s : State C K V) (c : C) (i : ℕ) : State C K V :=
  { s with owner := update s.owner i (some c) }

/-- `mutexes_[i].unlock()`. -/
def State.unlock (s : State C K V) (i : ℕ) : State C K V :=
  { s with owner := update s.owner i none }

variable (hasher_) in
/-- One step of one call, and what is seen of it. -/
inductive State.Step : State C K V → Label C (Request K V) (Res V) → State C K V → Prop where
  | call {s} (c r) (h : s.places c = .idle) : Step s (.call c r) (s.go c r.start)
  | size {s} (c) (h : s.places c = .sizing) : Step s .tau
      (s.go c (.returning .size (.size s.size_)))
  | lock {s} (c q) (h : s.places c = .waiting q)
      (hfree : s.owner (hasher_ q.key % s.mutexes_) = none) :
      Step s .tau ((s.lock c (hasher_ q.key % s.mutexes_)).go c (.holding q))
  | access {s} (c q) (h : s.places c = .holding q) :
      Step s .tau ({ s with table_ := (q.access hasher_ s.table_).1 }.go c
        (q.access hasher_ s.table_).2)
  | count {s} (c q) (h : s.places c = .counting q) :
      Step s .tau ({ s with size_ := (q.count s.size_).1 }.go c (q.count s.size_).2)
  | measure {s} (c q res) (h : s.places c = .measuring q res) :
      Step s .tau (s.go c (.unlocking q res (kLoadFactor < s.size_ / s.table_.length)))
  | unlock {s} (c q res need_rehash) (h : s.places c = .unlocking q res need_rehash) :
      Step s .tau ((s.unlock (hasher_ q.key % s.mutexes_)).go c (q.unlocked res need_rehash))
  | testAndSet {s} (c q res) (h : s.places c = .deciding q res) :
      Step s .tau ({ s with is_rehashing_ := true }.go c (q.testAndSet res s.is_rehashing_))
  | lockNext {s} (c task i) (h : s.places c = .lockingAll task i) (hi : i < s.mutexes_)
      (hfree : s.owner i = none) : Step s .tau ((s.lock c i).go c (.lockingAll task (i + 1)))
  | work {s} (c task) (h : s.places c = .lockingAll task s.mutexes_) :
      Step s .tau ({ s with table_ := (task.work hasher_ s.table_ s.mutexes_).1 }.go c
        (task.work hasher_ s.table_ s.mutexes_).2)
  | zero {s} (c) (h : s.places c = .zeroing) :
      Step s .tau ({ s with size_ := 0 }.go c (.unlockingAll .clear s.mutexes_))
  | unlockLast {s} (c task i) (h : s.places c = .unlockingAll task (i + 1)) :
      Step s .tau ((s.unlock i).go c (.unlockingAll task i))
  | leave {s} (c task) (h : s.places c = .unlockingAll task 0) : Step s .tau (s.go c task.leave)
  | release {s} (c q res) (h : s.places c = .releasing q res) :
      Step s .tau ({ s with is_rehashing_ := false }.go c (.returning (.keyed q) res))
  | ret {s} (c r res) (h : s.places c = .returning r res) :
      Step s (.ret c res) (s.go c (.returned r res))

/-! ## Who has which mutex -/

/-- The call has this mutex. -/
def Place.Owns (hasher_ : K → ℕ) (mutexes_ : ℕ) : Place K V → ℕ → Prop
  | .holding q, i | .counting q, i | .measuring q _, i | .unlocking q _ _, i =>
    i = hasher_ q.key % mutexes_
  | .lockingAll _ k, i | .unlockingAll _ k, i => i < k
  | .zeroing, i => i < mutexes_
  | _, _ => False

/-- There are mutexes, and each is had by the call that is where it has it. -/
structure Inv (hasher_ : K → ℕ) (s : State C K V) : Prop where
  pos : 0 < s.mutexes_
  bound {c : C} {i : ℕ} : (s.places c).Owns hasher_ s.mutexes_ i → i < s.mutexes_
  owner {c : C} {i : ℕ} : s.owner i = some c ↔ (s.places c).Owns hasher_ s.mutexes_ i

section

variable {s s' : State C K V} {c : C} {p : Place K V}

omit [Inhabited V] [DecidableEq C] [LinearOrder K] in
theorem inv_init {lists_cnt : ℤ} (hpos : 0 < lists_cnt) : Inv hasher_ (.init C K V lists_cnt) where
  pos := by simpa [State.init] using hpos
  bound h := by simp [State.init, Place.Owns] at h
  owner := by simp [State.init, Place.Owns]

omit [Inhabited V] [LinearOrder K] in
/-- A call goes on, and has the same mutexes. -/
theorem Inv.keep (h : Inv hasher_ s) (hmutexes : s'.mutexes_ = s.mutexes_)
    (howner : s'.owner = s.owner) (hplaces : s'.places = update s.places c p)
    (hsame : ∀ i, p.Owns hasher_ s.mutexes_ i ↔ (s.places c).Owns hasher_ s.mutexes_ i) :
    Inv hasher_ s' := by
  have howns (d : C) (i : ℕ) :
      (s'.places d).Owns hasher_ s'.mutexes_ i ↔ (s.places d).Owns hasher_ s.mutexes_ i := by
    rw [hplaces, hmutexes]
    by_cases hd : d = c
    · rw [hd, update_self]
      exact hsame i
    · rw [update_of_ne hd]
  refine ⟨hmutexes ▸ h.pos, fun {d i} hi ↦ ?_, fun {d i} ↦ ?_⟩
  · rw [hmutexes]
    exact h.bound ((howns d i).mp hi)
  · rw [howner, howns]
    exact h.owner

omit [Inhabited V] [LinearOrder K] in
/-- A call gets a mutex that nobody has. -/
theorem Inv.acquire (h : Inv hasher_ s) {j : ℕ} (hj : j < s.mutexes_) (hfree : s.owner j = none)
    (hsame : ∀ i, p.Owns hasher_ s.mutexes_ i ↔ i = j ∨ (s.places c).Owns hasher_ s.mutexes_ i) :
    Inv hasher_ ((s.lock c j).go c p) := by
  have howns (d : C) (i : ℕ) : (update s.places c p d).Owns hasher_ s.mutexes_ i ↔
      (i = j ∧ d = c) ∨ (s.places d).Owns hasher_ s.mutexes_ i := by
    by_cases hd : d = c
    · subst hd
      rw [update_self, hsame]
      simp
    · rw [update_of_ne hd]
      simp [hd]
  refine ⟨h.pos, fun {d i} hi ↦ ?_, fun {d i} ↦ ?_⟩
  · rcases (howns d i).mp hi with ⟨rfl, -⟩ | hi
    · exact hj
    · exact h.bound hi
  · show update s.owner j (some c) i = some d ↔ (update s.places c p d).Owns hasher_ s.mutexes_ i
    rw [howns, ← h.owner]
    by_cases hi : i = j
    · subst hi
      rw [update_self, hfree]
      simp [eq_comm]
    · rw [update_of_ne hi]
      simp [hi]

omit [Inhabited V] [LinearOrder K] in
/-- A call gives a mutex back. -/
theorem Inv.release (h : Inv hasher_ s) {j : ℕ}
    (hj : (s.places c).Owns hasher_ s.mutexes_ j)
    (hsame : ∀ i, p.Owns hasher_ s.mutexes_ i ↔ i ≠ j ∧ (s.places c).Owns hasher_ s.mutexes_ i) :
    Inv hasher_ ((s.unlock j).go c p) := by
  have howns (d : C) (i : ℕ) : (update s.places c p d).Owns hasher_ s.mutexes_ i ↔
      i ≠ j ∧ (s.places d).Owns hasher_ s.mutexes_ i := by
    by_cases hd : d = c
    · subst hd
      rw [update_self, hsame]
    · rw [update_of_ne hd]
      refine ⟨fun hi ↦ ⟨?_, hi⟩, And.right⟩
      rintro rfl
      exact hd (Option.some.inj ((h.owner.mpr hi).symm.trans (h.owner.mpr hj)))
  refine ⟨h.pos, fun {d i} hi ↦ h.bound ((howns d i).mp hi).2, fun {d i} ↦ ?_⟩
  show update s.owner j none i = some d ↔ (update s.places c p d).Owns hasher_ s.mutexes_ i
  rw [howns, ← h.owner]
  by_cases hi : i = j
  · subst hi
    rw [update_self]
    simp
  · rw [update_of_ne hi]
    simp [hi]

omit [DecidableEq C] in
theorem Keyed.owns_access (q : Keyed K V) (t : List (List (K × V))) (n i : ℕ) :
    (q.access hasher_ t).2.Owns hasher_ n i ↔ i = hasher_ q.key % n := by
  cases q with
  | insert | erase | find | value =>
    simp only [Keyed.access]
    split <;> simp [Place.Owns]

theorem Inv.step (h : Inv hasher_ s) {l : Label C (Request K V) (Res V)}
    (hstep : State.Step hasher_ s l s') : Inv hasher_ s' := by
  cases hstep with
  | call c r hc =>
    refine h.keep (c := c) rfl rfl rfl fun i ↦ ?_
    cases r with
    | keyed | clear | size => simp [hc, Request.start, Place.Owns]
  | lock c q hc hfree =>
    refine h.acquire (Nat.mod_lt _ h.pos) hfree fun i ↦ ?_
    simp [hc, Place.Owns]
  | access c q hc =>
    refine h.keep (c := c) rfl rfl rfl fun i ↦ ?_
    rw [hc]
    exact q.owns_access _ _ i
  | count c q hc =>
    refine h.keep (c := c) rfl rfl rfl fun i ↦ ?_
    cases q with
    | insert | erase | find | value => simp [hc, Keyed.count, Place.Owns]
  | unlock c q res need_rehash hc =>
    refine h.release (c := c) ?_ fun i ↦ ?_
    · simp [hc, Place.Owns]
    · simp only [hc, Keyed.unlocked]
      split <;> simp [Place.Owns]
  | testAndSet c q res hc =>
    refine h.keep (c := c) rfl rfl rfl fun i ↦ ?_
    simp only [hc, Keyed.testAndSet]
    split <;> simp [Place.Owns]
  | lockNext c task i hc hi hfree =>
    refine h.acquire hi hfree fun j ↦ ?_
    simp only [hc, Place.Owns]
    omega
  | work c task hc =>
    refine h.keep (c := c) rfl rfl rfl fun i ↦ ?_
    cases task with
    | clear | rehash => simp [hc, Task.work, Place.Owns]
  | unlockLast c task i hc =>
    refine h.release (c := c) ?_ fun j ↦ ?_
    · simp [hc, Place.Owns]
    · simp only [hc, Place.Owns]
      omega
  | leave c task hc =>
    refine h.keep (c := c) rfl rfl rfl fun i ↦ ?_
    cases task with
    | clear | rehash => simp [hc, Task.leave, Place.Owns]
  | size c hc | measure c q res hc | zero c hc | release c q res hc | ret c r res hc =>
    refine h.keep (c := c) rfl rfl rfl fun i ↦ ?_
    simp [hc, Place.Owns]

theorem inv_of_trace {s₀ : State C K V} (hinit : Inv hasher_ s₀)
    {h : List (State C K V × Label C (Request K V) (Res V))}
    (hrun : Trace (State.Step hasher_) s₀ h s) : Inv hasher_ s :=
  hrun.invariant (I := fun _ s ↦ Inv hasher_ s) hinit fun _ _ _ _ h hstep ↦ h.step hstep

/-! ## Races -/

omit [LinearOrder K] [Inhabited V] [DecidableEq C] in
/-- A mutex has one owner. -/
theorem Inv.unique (h : Inv hasher_ s) {d : C} {i : ℕ} (hc : (s.places c).Owns hasher_ s.mutexes_ i)
    (hd : (s.places d).Owns hasher_ s.mutexes_ i) : c = d :=
  Option.some.inj ((h.owner.mpr hc).symm.trans (h.owner.mpr hd))

omit [LinearOrder K] [Inhabited V] [DecidableEq C] in
/-- Before `Clear` and `Rehash` do their work, no other call has a mutex. -/
theorem Inv.alone (h : Inv hasher_ s) {d : C} {i : ℕ} {task : Task K V}
    (hc : s.places c = .lockingAll task s.mutexes_) (hd : (s.places d).Owns hasher_ s.mutexes_ i) :
    c = d := by
  refine h.unique (i := i) ?_ hd
  rw [hc]
  exact h.bound hd

/-! ## Deadlocks -/

/-- The mutex that the call has to lock next. -/
def Place.wants (hasher_ : K → ℕ) (mutexes_ : ℕ) : Place K V → Option ℕ
  | .waiting q => some (hasher_ q.key % mutexes_)
  | .lockingAll _ i => if i < mutexes_ then some i else none
  | _ => none

/-- The call is not between its beginning and its end. -/
def Place.Outside (p : Place K V) : Prop := p = .idle ∨ ∃ r res, p = .returned r res

/-- A call whose mutex is free goes on. -/
theorem Inv.exists_step (h : Inv hasher_ s) (hc : ¬(s.places c).Outside)
    (hfree : ∀ k, (s.places c).wants hasher_ s.mutexes_ = some k → s.owner k = none) :
    ∃ l s', State.Step hasher_ s l s' := by
  cases hp : s.places c with
  | idle => exact absurd (.inl hp) hc
  | returned r res => exact absurd (.inr ⟨r, res, hp⟩) hc
  | sizing => exact ⟨_, _, .size c hp⟩
  | waiting q => exact ⟨_, _, .lock c q hp (hfree _ (by rw [hp, Place.wants]))⟩
  | holding q => exact ⟨_, _, .access c q hp⟩
  | counting q => exact ⟨_, _, .count c q hp⟩
  | measuring q res => exact ⟨_, _, .measure c q res hp⟩
  | unlocking q res need_rehash => exact ⟨_, _, .unlock c q res need_rehash hp⟩
  | deciding q res => exact ⟨_, _, .testAndSet c q res hp⟩
  | lockingAll task i =>
    by_cases hi : i < s.mutexes_
    · exact ⟨_, _, .lockNext c task i hp hi (hfree i (by rw [hp, Place.wants, if_pos hi]))⟩
    · have hle : i ≤ s.mutexes_ := by
        by_contra hlt
        have howns : (s.places c).Owns hasher_ s.mutexes_ s.mutexes_ := by
          rw [hp, Place.Owns]
          omega
        exact absurd (h.bound howns) (lt_irrefl _)
      obtain rfl : i = s.mutexes_ := by omega
      exact ⟨_, _, .work c task hp⟩
  | zeroing => exact ⟨_, _, .zero c hp⟩
  | unlockingAll task i =>
    cases i with
    | zero => exact ⟨_, _, .leave c task hp⟩
    | succ i => exact ⟨_, _, .unlockLast c task i hp⟩
  | releasing q res => exact ⟨_, _, .release c q res hp⟩
  | returning r res => exact ⟨_, _, .ret c r res hp⟩

/-- **There is no deadlock**: as long as a call has not returned, something can be done. -/
theorem Inv.progress (h : Inv hasher_ s) (hc : ¬(s.places c).Outside) :
    ∃ l s', State.Step hasher_ s l s' := by
  have horder (i : ℕ) (d : C) (k : ℕ) (hi : s.owner i = some d)
      (hk : (s.places d).wants hasher_ s.mutexes_ = some k) : i < k := by
    have howns := h.owner.mp hi
    cases hp : s.places d with
    | waiting q => simp [hp, Place.Owns] at howns
    | lockingAll task j =>
      simp only [hp, Place.Owns, Place.wants, Option.ite_none_right_eq_some, Option.some_inj]
        at howns hk
      omega
    | _ => simp [hp, Place.wants] at hk
  have hbound (d : C) (k : ℕ) (hk : (s.places d).wants hasher_ s.mutexes_ = some k) :
      k < s.mutexes_ := by
    cases hp : s.places d with
    | waiting q =>
      simp only [hp, Place.wants, Option.some_inj] at hk
      rw [← hk]
      exact Nat.mod_lt _ h.pos
    | lockingAll task j =>
      simp only [hp, Place.wants, Option.ite_none_right_eq_some, Option.some_inj] at hk
      omega
    | _ => simp [hp, Place.wants] at hk
  obtain ⟨d, hd, hfree⟩ := Lib.exists_unblocked horder hbound c
  refine h.exists_step (c := d) ?_ hfree
  rcases hd with rfl | ⟨i, hi⟩
  · exact hc
  · have howns := h.owner.mp hi
    rintro (hidle | ⟨r, res, hret⟩)
    · simp [hidle, Place.Owns] at howns
    · simp [hret, Place.Owns] at howns

/-- A call takes at most so many steps more. -/
def Place.left (mutexes_ : ℕ) : Place K V → ℕ
  | .idle => 2 * mutexes_ + 12
  | .waiting _ => 2 * mutexes_ + 11
  | .holding _ => 2 * mutexes_ + 10
  | .counting _ => 2 * mutexes_ + 9
  | .measuring _ _ => 2 * mutexes_ + 8
  | .unlocking _ _ _ => 2 * mutexes_ + 7
  | .deciding _ _ => 2 * mutexes_ + 6
  | .lockingAll _ i => mutexes_ - i + mutexes_ + 5
  | .zeroing => mutexes_ + 4
  | .unlockingAll _ i => i + 3
  | .releasing _ _ | .sizing => 2
  | .returning _ _ => 1
  | .returned _ _ => 0

/-- Every step brings a call nearer to its end. -/
theorem State.Step.left_lt {l : Label C (Request K V) (Res V)} (hstep : State.Step hasher_ s l s') :
    ∃ c p, s'.mutexes_ = s.mutexes_ ∧ s'.places = update s.places c p ∧
      p.left s.mutexes_ < (s.places c).left s.mutexes_ := by
  cases hstep with
  | call c r hc =>
    refine ⟨c, _, rfl, rfl, ?_⟩
    cases r with
    | keyed | clear | size =>
      simp only [hc, Request.start, Place.left]
      omega
  | access c q hc =>
    refine ⟨c, _, rfl, rfl, ?_⟩
    cases q with
    | insert | erase | find | value =>
      simp only [hc, Keyed.access]
      split <;> simp only [Place.left] <;> omega
  | count c q hc =>
    refine ⟨c, _, rfl, rfl, ?_⟩
    cases q with
    | insert | erase | find | value =>
      simp only [hc, Keyed.count, Place.left]
      omega
  | unlock c q res need_rehash hc =>
    refine ⟨c, _, rfl, rfl, ?_⟩
    simp only [hc, Keyed.unlocked]
    split <;> simp only [Place.left] <;> omega
  | testAndSet c q res hc =>
    refine ⟨c, _, rfl, rfl, ?_⟩
    simp only [hc, Keyed.testAndSet]
    split <;> simp only [Place.left] <;> omega
  | work c task hc =>
    refine ⟨c, _, rfl, rfl, ?_⟩
    cases task with
    | clear | rehash =>
      simp only [hc, Task.work, Place.left]
      omega
  | leave c task hc =>
    refine ⟨c, _, rfl, rfl, ?_⟩
    cases task with
    | clear | rehash =>
      simp only [hc, Task.leave, Place.left]
      omega
  | size c hc | lock c q hc | measure c q res hc | lockNext c task i hc | zero c hc
  | unlockLast c task i hc | release c q res hc | ret c r res hc =>
    refine ⟨c, _, rfl, rfl, ?_⟩
    simp only [hc, Place.left]
    omega

end

/-- **Every call returns.**  Whatever the hash, and whatever hints that do not overflow the
constructor has been given, if there are finitely many calls then from every state that can be
reached, whoever is scheduled, all that have begun come to their end: the mutexes are locked in one
order, so there is no deadlock, also between several calls of `Clear` and the one that rehashes. -/
theorem calls_return [Fintype C] {expected_size expected_threads_count : ℤ}
    (hhints : Hinted expected_size expected_threads_count) (overflow : ℤ → ℤ)
    {h : List (State C K V × Label C (Request K V) (Res V))} {s : State C K V}
    (hrun : Trace (State.Step hasher_)
      (.init C K V (initialSize overflow expected_size expected_threads_count)) h s) :
    Lib.Inevitable (fun s s' ↦ ∃ l, State.Step hasher_ s l s')
      (fun s ↦ ∀ c, (s.places c).Outside) s := by
  have hinv := inv_of_trace (inv_init (hhints.initialSize overflow).1) hrun
  have hfinish : Lib.Inevitable (fun s s' ↦ ∃ l, State.Step hasher_ s l s')
      (fun s : State C K V ↦ (∀ c, (s.places c).Outside) ∧ Inv hasher_ s) s := by
    refine .of_workers (fun s ↦ ∑ c, (s.places c).left s.mutexes_) (fun s s' hs hstep ↦ ?_)
      (fun s c hs hc ↦ ?_) hinv
    · obtain ⟨l, hstep⟩ := hstep
      obtain ⟨c, p, hmutexes, hplaces, hlt⟩ := hstep.left_lt
      refine ⟨hs.step hstep, ?_⟩
      rw [hmutexes, hplaces]
      exact Lib.sum_update_lt (μ := fun _ p ↦ Place.left s.mutexes_ p) hlt
    · obtain ⟨l, s', hstep⟩ := hs.progress hc
      exact ⟨s', l, hstep⟩
  exact hfinish.trans fun s hs ↦ .now hs.1

/-- A call of `Clear` has locked the first of four mutexes, and a call of `Insert` waits for it. -/
theorem calls_return_two :
    ∃ (h : List (State Bool ℕ ℕ × Label Bool (Request ℕ ℕ) (Res ℕ))) (s : State Bool ℕ ℕ),
      Trace (State.Step id) (.init Bool ℕ ℕ (initialSize (Lib.wrap 32) kUndefinedSize 1)) h s ∧
        s.places true = .waiting (.insert 4 0) ∧ s.owner 0 = some false ∧
        Lib.Inevitable (fun s s' ↦ ∃ l, State.Step id s l s')
          (fun s ↦ ∀ c, (s.places c).Outside) s := by
  have hhints : Hinted kUndefinedSize 1 := ⟨.inl ⟨rfl, by decide⟩, by decide, by decide⟩
  have hrun := (.nil : Trace (State.Step id)
      (.init Bool ℕ ℕ (initialSize (Lib.wrap 32) kUndefinedSize 1)) [] _)
    |>.snoc (.call false .clear rfl)
    |>.snoc (.lockNext false .clear 0 rfl (by decide +kernel) rfl)
    |>.snoc (.call true (.keyed (.insert 4 0)) rfl)
  exact ⟨_, _, hrun, rfl, rfl, calls_return hhints (Lib.wrap 32) hrun⟩

end HashTable
end ManyTasks
