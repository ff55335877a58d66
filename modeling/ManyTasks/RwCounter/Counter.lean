import ManyTasks.Lib.Hindsight
import ManyTasks.Lib.Machine
import Mathlib.Algebra.BigOperators.Group.List.Basic
import Mathlib.Algebra.Order.BigOperators.Group.List
import Mathlib.Algebra.Order.Ring.Int
import Mathlib.Data.Finset.Card
import Mathlib.Data.Finset.Insert

/-!
# A counter that is read piece by piece

`ReadWriteAtomicCounter` gives every writer a counter of its own, so that writers do not hinder each
other, and `GetValue` adds them up, one load after the other, while they go on.  What it returns may
be the sum of values that were never there together.  Still it is a value that the sum of all
counters has had while it was under way, because the sum never grows by more than one
(`counter_linearizable`): the call takes effect then, though nobody can know it before it returns.

`GetIncrementer` puts a new counter at the end of the vector under the lock, and adds one to
`threads_cnt_` after it.  If two calls do the first before either does the second, the one that
returns first may have a counter that `GetValue` does not look at yet (`increment_missed`).

`GetValue` does not take the lock.  When the vector is full, `emplace_back` moves it to another
buffer and frees the old one, and a `GetValue` that has the address of the old one reads what is
there then, which may be anything (`buffer_freed`).  The counters are `int64_t`, which wraps here.
So the theorem is about runs in which nobody reads the vector while it moves, and the counters
together leave room for one more increment (`Calm`).
-/

set_option autoImplicit false

namespace ManyTasks
namespace RwCounter

variable {C : Type}

open Function (update)
open Lib (Atomic Hindsight Label Progress Reads Trace seen)

inductive Op where
  | getIncrementer
  /-- `Incrementer::Increment`, of the counter with this number. -/
  | increment (i : ℕ)
  | getValue
deriving DecidableEq, Repr

inductive Result where
  /-- An `Incrementer`, of the counter with this number. -/
  | incrementer (i : ℕ)
  | void
  | value (v : ℤ)
deriving DecidableEq, Repr

/-- Where a call is. -/
inductive Place where
  | idle
  | called (op : Op)
  /-- `GetIncrementer`, in `emplace_back`, which moves the vector to another buffer. -/
  | moving
  /-- `GetIncrementer`, before `threads_cnt_ += 1`. -/
  | pushed (i : ℕ)
  /-- `GetValue`, before `i < threads_cnt_`. -/
  | checking (i : ℕ) (res : ℤ)
  /-- `GetValue`, before `counters_[i]`. -/
  | loading (i : ℕ) (res : ℤ)
  /-- `GetValue`, with the address of the buffer, before it is read. -/
  | reading (buffer i : ℕ) (res : ℤ)
  | returning (op : Op) (res : Result)
  | returned (op : Op) (res : Result)
deriving DecidableEq, Repr

/-- `ReadWriteAtomicCounter` and its calls. -/
structure State (C : Type) where
  counters_ : List ℤ
  /-- For how many counters the vector has room. -/
  capacity : ℕ
  /-- Which buffer the vector is in. -/
  data : ℕ
  /-- Who holds the lock while the vector moves. -/
  mutex_ : Option C
  threads_cnt_ : ℕ
  places : C → Place

/-- No call has begun. -/
def init : State C := ⟨[], 0, 0, none, 0, fun _ ↦ .idle⟩

/-- `Increment` is a call of an `Incrementer` that has been returned. -/
def State.allowed (s : State C) (op : Op) : Prop :=
  ∀ i, op = .increment i → ∃ c, s.places c = .returned .getIncrementer (.incrementer i)

/-- The counters are in this buffer. -/
def State.holds (s : State C) (buffer : ℕ) : Prop := s.mutex_ = none ∧ buffer = s.data

variable [DecidableEq C]

/-- One step of a call. -/
inductive Step : State C → Label C Op Result → State C → Prop where
  | call {s} (c op) (h : s.places c = .idle) (hop : s.allowed op) :
      Step s (.call c op) { s with places := update s.places c (.called op) }
  /-- `emplace_back` under the lock, if there is room. -/
  | push {s} (c) (h : s.places c = .called .getIncrementer) (hm : s.mutex_ = none)
      (hroom : s.counters_.length < s.capacity) :
      Step s .tau { s with
        counters_ := s.counters_ ++ [0],
        places := update s.places c (.pushed s.counters_.length) }
  /-- `emplace_back` under the lock, if there is none: from here on the old buffer is not valid. -/
  | move {s} (c) (h : s.places c = .called .getIncrementer) (hm : s.mutex_ = none)
      (hfull : s.capacity ≤ s.counters_.length) :
      Step s .tau { s with mutex_ := some c, places := update s.places c .moving }
  /-- The vector is in the new buffer, and the lock is given back. -/
  | moved {s} (c capacity) (h : s.places c = .moving) (hroom : s.counters_.length < capacity) :
      Step s .tau { s with
        counters_ := s.counters_ ++ [0], capacity := capacity, data := s.data + 1,
        mutex_ := none,
        places := update s.places c (.pushed s.counters_.length) }
  | count {s} (c i) (h : s.places c = .pushed i) :
      Step s .tau { s with
        threads_cnt_ := s.threads_cnt_ + 1,
        places := update s.places c (.returning .getIncrementer (.incrementer i)) }
  /-- `fetch_add`. -/
  | increment {s} (c i v) (h : s.places c = .called (.increment i))
      (hv : s.counters_[i]? = some v) :
      Step s .tau { s with
        counters_ := s.counters_.set i (Lib.wrap 64 (v + 1)),
        places := update s.places c (.returning (.increment i) .void) }
  | start {s} (c) (h : s.places c = .called .getValue) :
      Step s .tau { s with places := update s.places c (.checking 0 0) }
  | check {s} (c i res) (h : s.places c = .checking i res) :
      Step s .tau { s with
        places := update s.places c
          (if i < s.threads_cnt_ then .loading i res else .returning .getValue (.value res)) }
  /-- `counters_[i]` takes the address of the buffer. -/
  | address {s} (c i res) (h : s.places c = .loading i res) :
      Step s .tau { s with places := update s.places c (.reading s.data i res) }
  /-- The load.  Of a counter that is not there it may give anything. -/
  | load {s} (c b i res v) (h : s.places c = .reading b i res)
      (hv : s.holds b → ∀ w, s.counters_[i]? = some w → v = w) :
      Step s .tau { s with places := update s.places c (.checking (i + 1) (Lib.wrap 64 (res + v))) }
  | ret {s} (c op res) (h : s.places c = .returning op res) :
      Step s (.ret c res) { s with places := update s.places c (.returned op res) }

/-- When `GetIncrementer` returns, no other one is between its two steps. -/
def prompt (s : State C) (l : Label C Op Result) : Prop :=
  ∀ c i, l = .ret c (.incrementer i) → ∀ c' j, s.places c' ≠ .pushed j

/-- Nobody reads the vector while it moves, and the counters together leave room for one more
increment. -/
@[mk_iff]
structure Calm (s : State C) : Prop where
  still {c : C} {b i : ℕ} {res : ℤ} : s.places c = .reading b i res → s.mutex_ = none
  sum_lt : s.counters_.sum < 2 ^ 63 - 1

/-! ## What it is for -/

/-- A counter, and how many writers it has. -/
def apply (a : ℕ × ℤ) : Op → Result × (ℕ × ℤ)
  | .getIncrementer => (.incrementer a.1, (a.1 + 1, a.2))
  | .increment _ => (.void, (a.1, a.2 + 1))
  | .getValue => (.value a.2, a)

theorem reads_getValue : Reads apply .getValue := fun _ ↦ rfl

/-! ## Sums -/

section

variable {l : List ℤ} {i j : ℕ} {v : ℤ}

/-- No sum becomes smaller. -/
theorem sum_le_sum_set (h : ∀ w, l[i]? = some w → w ≤ v) : l.sum ≤ (l.set i v).sum := by
  induction l generalizing i with
  | nil => simp
  | cons w l ih =>
    cases i with
    | zero =>
      have hw : w ≤ v := h w rfl
      simpa using hw
    | succ i =>
      have hrest : l.sum ≤ (l.set i v).sum := ih fun w hw ↦ h w (by simpa using hw)
      simpa using hrest

theorem sum_set_succ (h : l[i]? = some v) : (l.set i (v + 1)).sum = l.sum + 1 := by
  induction l generalizing i with
  | nil => simp at h
  | cons w l ih =>
    cases i with
    | zero =>
      obtain rfl : w = v := by simpa using h
      simp
      omega
    | succ i =>
      have hrest : (l.set i (v + 1)).sum = l.sum + 1 := ih (by simpa using h)
      simp [hrest]
      omega

theorem sum_take_set (h : l[i]? = some v) : (l.take j).sum ≤ ((l.set i (v + 1)).take j).sum := by
  rw [List.take_set]
  refine sum_le_sum_set fun w hw ↦ ?_
  have hwv : l[i]? = some w := by
    rw [List.getElem?_take] at hw
    split at hw
    · exact hw
    · simp at hw
  rw [h] at hwv
  exact (Option.some.inj hwv).symm.le.trans (lt_add_one v).le

theorem sum_drop_set (h : l[i]? = some v) : (l.drop j).sum ≤ ((l.set i (v + 1)).drop j).sum := by
  rw [List.drop_set]
  split
  · exact le_rfl
  · rename_i hij
    refine sum_le_sum_set fun w hw ↦ ?_
    rw [List.getElem?_drop, Nat.add_sub_cancel' (not_lt.mp hij), h] at hw
    exact (Option.some.inj hw).symm.le.trans (lt_add_one v).le

theorem sum_take_succ (h : l[i]? = some v) : (l.take (i + 1)).sum = (l.take i).sum + v := by
  rw [List.take_add_one, h]
  simp

theorem sum_drop_succ (h : l[i]? = some v) : (l.drop i).sum = v + (l.drop (i + 1)).sum := by
  obtain ⟨hi, rfl⟩ := List.getElem?_eq_some_iff.mp h
  rw [List.drop_eq_getElem_cons hi, List.sum_cons]

/-- No counter is negative. -/
def Nonneg (l : List ℤ) : Prop := ∀ v ∈ l, 0 ≤ v

theorem Nonneg.take (h : Nonneg l) : 0 ≤ (l.take i).sum :=
  List.sum_nonneg fun v hv ↦ h v (List.mem_of_mem_take hv)

theorem Nonneg.drop (h : Nonneg l) : 0 ≤ (l.drop i).sum :=
  List.sum_nonneg fun v hv ↦ h v (List.mem_of_mem_drop hv)

theorem Nonneg.sum_drop_le (h : Nonneg l) (hij : i ≤ j) : (l.drop j).sum ≤ (l.drop i).sum :=
  (List.drop_sublist_drop_left l hij).sum_le_sum fun v hv ↦ h v (List.mem_of_mem_drop hv)

theorem Nonneg.sum_take_le (h : Nonneg l) : (l.take i).sum ≤ l.sum :=
  (List.take_sublist i l).sum_le_sum h

theorem Nonneg.le_sum (h : Nonneg l) (hv : l[i]? = some v) : 0 ≤ v ∧ v ≤ l.sum :=
  ⟨h v (List.mem_of_getElem? hv), List.single_le_sum h v (List.mem_of_getElem? hv)⟩

theorem Nonneg.push (h : Nonneg l) : Nonneg (l ++ [0]) := by
  intro v hv
  rcases List.mem_append.mp hv with hv | hv
  · exact h v hv
  · exact (List.mem_singleton.mp hv).ge

theorem Nonneg.set (h : Nonneg l) (hv : 0 ≤ v) : Nonneg (l.set i v) := by
  intro w hw
  rcases List.mem_or_eq_of_mem_set hw with hw | rfl
  · exact h w hw
  · exact hv

end

/-! ## What a call knows -/

section

variable {l l' : List ℤ} {past past' : Set (ℕ × ℤ)} {i j n : ℕ} {res v : ℤ}

/-- Every value from the first one on has been there. -/
def Covers (past : Set (ℕ × ℤ)) (lo hi : ℤ) : Prop :=
  ∀ v, lo ≤ v → v ≤ hi → ∃ a ∈ past, a.2 = v

/-- What `GetValue` has read so far is not more than is there, and with what it has not read it is
not less than there was. -/
structure Reading (l : List ℤ) (i : ℕ) (res : ℤ) (past : Set (ℕ × ℤ)) : Prop where
  nonneg : 0 ≤ res
  le : res ≤ (l.take i).sum
  covers : ∃ lo, Covers past lo l.sum ∧ lo ≤ res + (l.drop i).sum

/-- The call that has come to this place is as far in its life as this. -/
def Place.Matches (l : List ℤ) (past : Set (ℕ × ℤ)) : Place → Progress Op Result → Prop
  | .idle, p => p = .idle
  | .called op, p => p = .called op ∧ (op = .getValue → Reading l 0 0 past)
  | .moving, p => p = .called .getIncrementer
  | .pushed i, p => p = .done .getIncrementer (.incrementer i)
  | .checking i res, p => p = .called .getValue ∧ Reading l i res past
  | .loading i res, p => p = .called .getValue ∧ Reading l i res past
  | .reading _ i res, p => p = .called .getValue ∧ Reading l i res past
  | .returning .getValue res, p => p = .called .getValue ∧ ∃ a ∈ past, res = .value a.2
  | .returning op res, p => p = .done op res
  | .returned op res, p => p = .returned op res

/-- All values are covered after an increment too. -/
theorem Covers.insert {lo hi : ℤ} (h : Covers past lo hi) :
    Covers (insert (n, hi + 1) past) lo (hi + 1) := by
  intro v hlo hhi
  rcases lt_or_ge hi v with hlt | hle
  · exact ⟨_, Set.mem_insert _ _, le_antisymm hlt hhi⟩
  · obtain ⟨a, ha, hv⟩ := h v hlo hle
    exact ⟨a, Set.mem_insert_of_mem _ ha, hv⟩

theorem Reading.start : Reading l 0 0 {(n, l.sum)} := by
  refine ⟨le_rfl, by simp, l.sum, fun v hlo hhi ↦ ?_, by simp⟩
  exact ⟨_, Set.mem_singleton _, le_antisymm hlo hhi⟩

theorem Reading.push (h : Reading l i res past) :
    Reading (l ++ [0]) i res (insert (n, l.sum) past) := by
  obtain ⟨hnonneg, hres, lo, hcovers, hlo⟩ := h
  have hzero : Nonneg [0] := by simp [Nonneg]
  have htake : (l.take i).sum ≤ ((l ++ [0]).take i).sum := by
    rw [List.take_append, List.sum_append]
    exact le_add_of_nonneg_right hzero.take
  have hdrop : (l.drop i).sum ≤ ((l ++ [0]).drop i).sum := by
    rw [List.drop_append, List.sum_append]
    exact le_add_of_nonneg_right hzero.drop
  refine ⟨hnonneg, hres.trans htake, lo, fun v hv hle ↦ ?_, by omega⟩
  obtain ⟨a, ha, heq⟩ := hcovers v hv (by simpa using hle)
  exact ⟨a, Set.mem_insert_of_mem _ ha, heq⟩

theorem Reading.increment (h : Reading l i res past) (hv : l[j]? = some v) :
    Reading (l.set j (v + 1)) i res (insert (n, l.sum + 1) past) := by
  obtain ⟨hnonneg, hres, lo, hcovers, hlo⟩ := h
  have hdrop : (l.drop i).sum ≤ ((l.set j (v + 1)).drop i).sum := sum_drop_set hv
  refine ⟨hnonneg, hres.trans (sum_take_set hv), lo, ?_, by omega⟩
  rw [sum_set_succ hv]
  exact hcovers.insert

theorem Reading.load (h : Reading l i res past) (hv : l[i]? = some v) (hnonneg : 0 ≤ v) :
    Reading l (i + 1) (res + v) past := by
  obtain ⟨hpos, hres, lo, hcovers, hlo⟩ := h
  rw [sum_drop_succ hv] at hlo
  refine ⟨add_nonneg hpos hnonneg, ?_, lo, hcovers, by omega⟩
  rw [sum_take_succ hv]
  exact add_le_add_left hres v

/-- When the rest of the counters has not counted anything yet, the sum has been there. -/
theorem Reading.value (h : Reading l i res past) (hl : Nonneg l) (hrest : (l.drop i).sum = 0) :
    ∃ a ∈ past, res = a.2 := by
  obtain ⟨-, hres, lo, hcovers, hlo⟩ := h
  rw [hrest, add_zero] at hlo
  obtain ⟨a, ha, heq⟩ := hcovers res hlo (hres.trans hl.sum_take_le)
  exact ⟨a, ha, heq.symm⟩

/-- A place of another call still matches, if what it has read still fits. -/
theorem Place.Matches.mono {x : Place} {p : Progress Op Result} (h : x.Matches l past p)
    (hreading : ∀ i res, Reading l i res past → Reading l' i res past') (hpast : past ⊆ past') :
    x.Matches l' past' p := by
  cases x with
  | called op => exact ⟨h.1, fun hop ↦ hreading _ _ (h.2 hop)⟩
  | checking i res => exact ⟨h.1, hreading _ _ h.2⟩
  | loading i res => exact ⟨h.1, hreading _ _ h.2⟩
  | reading b i res => exact ⟨h.1, hreading _ _ h.2⟩
  | returning op res =>
    cases op with
    | getValue =>
      obtain ⟨hp, a, ha, hres⟩ := h
      exact ⟨hp, a, hpast ha, hres⟩
    | _ => exact h
  | _ => exact h

end

/-! ## Every step -/

/-- What is true of a call at a place. -/
def State.Fits (s : State C) (c : C) : Place → Prop
  | .called (.increment i) => i < s.threads_cnt_
  | .moving => s.mutex_ = some c
  | .pushed i => i < s.counters_.length
  | .loading i _ => i < s.counters_.length
  | .reading b i _ => i < s.counters_.length ∧ (s.mutex_ = none → b = s.data)
  | .returning .getIncrementer (.incrementer i) => i < s.counters_.length
  | .returned .getIncrementer (.incrementer i) => i < s.threads_cnt_
  | _ => True

/-- The ideal is at the same point. -/
structure Represents (s : State C) (o : Hindsight C Op Result (ℕ × ℤ)) : Prop where
  state : o.state = (s.counters_.length, s.counters_.sum)
  calls (c : C) : (s.places c).Matches s.counters_ (o.past c) (o.calls c)
  /-- Those that are pushed and not counted yet. -/
  counted : ∃ P : Finset C, (∀ c, c ∈ P ↔ ∃ i, s.places c = .pushed i) ∧
    s.threads_cnt_ + P.card = s.counters_.length
  /-- They have not counted anything. -/
  rest : (s.counters_.drop s.threads_cnt_).sum = 0
  nonneg : Nonneg s.counters_
  fits (c : C) : s.Fits c (s.places c)

omit [DecidableEq C] in
theorem represents_init : Represents (init : State C) (.init (0, 0)) where
  state := rfl
  calls _ := rfl
  counted := ⟨∅, by simp [init], rfl⟩
  rest := rfl
  nonneg := by simp [init, Nonneg]
  fits _ := trivial

section

variable {s s' : State C} {o : Hindsight C Op Result (ℕ × ℤ)} {c : C} {x : Place}
  {p : Progress Op Result} {l : Label C Op Result}

omit [DecidableEq C] in
/-- What is true of another call, while there are more counters. -/
theorem State.Fits.mono (h : s.Fits c x) (hlength : s.counters_.length ≤ s'.counters_.length)
    (hcnt : s.threads_cnt_ ≤ s'.threads_cnt_) (hmoving : s.mutex_ = some c → s'.mutex_ = some c)
    (hreading : ∀ b i res, x = .reading b i res → (s.mutex_ = none → b = s.data) →
      s'.mutex_ = none → b = s'.data) : s'.Fits c x := by
  unfold State.Fits at h ⊢
  split at h
  · exact h.trans_le hcnt
  · exact hmoving h
  · exact h.trans_le hlength
  · exact h.trans_le hlength
  · exact ⟨h.1.trans_le hlength, hreading _ _ _ rfl h.2⟩
  · exact h.trans_le hlength
  · exact h.trans_le hcnt
  · trivial

/-- The calls whose counters are pushed and not counted yet, when one call goes on. -/
theorem pushed_update {P : Finset C} (hP : ∀ c, c ∈ P ↔ ∃ i, s.places c = .pushed i)
    (hc : ∀ i, s.places c ≠ .pushed i) (hx : ∀ i, x ≠ .pushed i) (c' : C) :
    c' ∈ P ↔ ∃ i, update s.places c x c' = .pushed i := by
  by_cases hcc : c' = c
  · subst hcc
    simp [hP, hc, hx]
  · rw [Function.update_of_ne hcc]
    exact hP c'

omit [DecidableEq C] in
/-- What is left to be shown when one call goes on. -/
theorem Represents.of_others {o' : Hindsight C Op Result (ℕ × ℤ)} (h : Represents s o)
    (hplaces : ∀ c', c' ≠ c → s'.places c' = s.places c')
    (hcalls : ∀ c', c' ≠ c → o'.calls c' = o.calls c')
    (hreading : ∀ c', c' ≠ c → ∀ i res,
      Reading s.counters_ i res (o.past c') → Reading s'.counters_ i res (o'.past c'))
    (hpast : ∀ c', c' ≠ c → o.past c' ⊆ o'.past c')
    (hstate : o'.state = (s'.counters_.length, s'.counters_.sum))
    (hself : (s'.places c).Matches s'.counters_ (o'.past c) (o'.calls c))
    (hcounted : ∃ P : Finset C, (∀ c, c ∈ P ↔ ∃ i, s'.places c = .pushed i) ∧
      s'.threads_cnt_ + P.card = s'.counters_.length)
    (hrest : (s'.counters_.drop s'.threads_cnt_).sum = 0) (hnonneg : Nonneg s'.counters_)
    (hfits : ∀ c', c' ≠ c → s'.Fits c' (s.places c')) (hfit : s'.Fits c (s'.places c)) :
    Represents s' o' := by
  refine ⟨hstate, fun c' ↦ ?_, hcounted, hrest, hnonneg, fun c' ↦ ?_⟩
  · by_cases hcc : c' = c
    · exact hcc ▸ hself
    · rw [hplaces c' hcc, hcalls c' hcc]
      exact (h.calls c').mono (hreading c' hcc) (hpast c' hcc)
  · by_cases hcc : c' = c
    · exact hcc ▸ hfit
    · rw [hplaces c' hcc]
      exact hfits c' hcc

/-- A call goes on, and the counters stay. -/
theorem Represents.go {past : C → Set (ℕ × ℤ)} (h : Represents s o)
    (hc : ∀ i, s.places c ≠ .pushed i) (hpast : ∀ c', c' ≠ c → past c' = o.past c')
    (hself : x.Matches s.counters_ (past c) p) (hx : ∀ i, x ≠ .pushed i) (hfit : s.Fits c x) :
    Represents { s with places := update s.places c x } ⟨o.state, update o.calls c p, past⟩ := by
  obtain ⟨P, hP, hcard⟩ := h.counted
  have hat : update s.places c x c = x := Function.update_self ..
  refine h.of_others (c := c) (fun c' hc' ↦ Function.update_of_ne hc' ..)
    (fun c' hc' ↦ Function.update_of_ne hc' ..) (fun c' hc' i res hreading ↦ ?_)
    (fun c' hc' ↦ (hpast c' hc').ge) h.state ?_ ⟨P, pushed_update hP hc hx, hcard⟩ h.rest h.nonneg
    (fun c' _ ↦ h.fits c') ?_
  · show Reading s.counters_ i res (past c')
    rwa [hpast c' hc']
  · show (update s.places c x c).Matches s.counters_ (past c) (update o.calls c p c)
    rwa [hat, Function.update_self]
  · show s.Fits c (update s.places c x c)
    rwa [hat]

/-- A step of a call that is not seen by the ideal. -/
theorem Represents.silent (h : Represents s o) (hc : ∀ i, s.places c ≠ .pushed i)
    (hself : x.Matches s.counters_ (o.past c) (o.calls c)) (hx : ∀ i, x ≠ .pushed i)
    (hfit : s.Fits c x) : Represents { s with places := update s.places c x } o := by
  have hgo := h.go hc (fun _ _ ↦ rfl) hself hx hfit
  rwa [Function.update_eq_self] at hgo

/-- A new counter takes effect when it is in the vector. -/
theorem Represents.pushed (h : Represents s o) (hcalls : o.calls c = .called .getIncrementer)
    (hc : ∀ i, s.places c ≠ .pushed i) (hcounters : s'.counters_ = s.counters_ ++ [0])
    (hcnt : s'.threads_cnt_ = s.threads_cnt_)
    (hplaces : s'.places = update s.places c (.pushed s.counters_.length))
    (hfits : ∀ c', c' ≠ c → s'.Fits c' (s.places c')) :
    ∃ o', Hindsight.Step apply o .tau o' ∧ Represents s' o' := by
  obtain ⟨P, hP, hcard⟩ := h.counted
  have hnotin : c ∉ P := by simp [hP, hc]
  have hle : s.threads_cnt_ ≤ s.counters_.length := hcard ▸ Nat.le_add_right _ _
  refine ⟨_, .effect c .getIncrementer hcalls, ?_⟩
  rw [h.state]
  refine h.of_others (c := c) (fun c' hc' ↦ ?_) (fun c' hc' ↦ Function.update_of_ne hc' ..)
    (fun c' _ i res hreading ↦ ?_) (fun c' _ ↦ Set.subset_insert _ _) ?_ ?_
    ⟨insert c P, fun c' ↦ ?_, ?_⟩ ?_ ?_ hfits ?_
  · rw [hplaces, Function.update_of_ne hc']
  · rw [hcounters]
    exact hreading.push
  · simp [apply, hcounters]
  · simp [Place.Matches, apply, hplaces]
  · rw [hplaces]
    by_cases hcc : c' = c
    · simp [hcc]
    · simp [hcc, hP]
  · rw [Finset.card_insert_of_notMem hnotin, hcnt, hcounters, List.length_append,
      List.length_singleton]
    omega
  · rw [hcnt, hcounters, List.drop_append_of_le_length hle, List.sum_append, h.rest]
    rfl
  · rw [hcounters]
    exact h.nonneg.push
  · rw [hplaces, Function.update_self]
    simp [State.Fits, hcounters]

/-- **Every step** of a run in which `GetIncrementer` is prompt and the vector is calm can be taken
by the ideal. -/
theorem Represents.step (h : Represents s o) (hstep : Step s l s') (hprompt : prompt s l)
    (hcalm : Calm s) : ∃ o', Hindsight.Step apply o l o' ∧ Represents s' o' := by
  obtain ⟨P, hP, hcard⟩ := h.counted
  have hcnt : s.threads_cnt_ ≤ s.counters_.length := hcard ▸ Nat.le_add_right _ _
  have hmatches := h.calls
  have hfits := h.fits
  have hsum := hcalm.sum_lt
  cases hstep with
  | call c op hidle hop =>
    have hcalls : o.calls c = .idle := by simpa [hidle, Place.Matches] using hmatches c
    refine ⟨_, .call c op hcalls, h.go (by simp [hidle])
      (fun c' hc' ↦ Function.update_of_ne hc' ..) ⟨rfl, fun _ ↦ ?_⟩ (by simp) ?_⟩
    · rw [Function.update_self, h.state]
      exact .start
    · cases op with
      | increment i =>
        obtain ⟨c', hc'⟩ := hop i rfl
        have hfit := hfits c'
        rwa [hc'] at hfit
      | _ => trivial
  | push c hc hm hroom =>
    have hm' := hmatches c
    rw [hc] at hm'
    refine h.pushed hm'.1 (by simp [hc]) rfl rfl rfl fun c' _ ↦ ?_
    exact (hfits c').mono (by simp) le_rfl id fun _ _ _ _ hold ↦ hold
  | move c hc hm hfull =>
    have hm' := hmatches c
    rw [hc] at hm'
    refine ⟨o, .stutter, h.of_others (c := c) (fun c' hc' ↦ Function.update_of_ne hc' ..)
      (fun _ _ ↦ rfl) (fun _ _ _ _ hreading ↦ hreading) (fun _ _ ↦ subset_rfl) h.state ?_
      ⟨P, pushed_update hP (by simp [hc]) (by simp), hcard⟩ h.rest h.nonneg (fun c' hcc ↦ ?_) ?_⟩
    · simpa [Place.Matches] using hm'.1
    · exact (hfits c').mono le_rfl le_rfl (fun hsome ↦ nomatch hm.symm.trans hsome) nofun
    · simp [State.Fits]
  | moved c capacity hc hroom =>
    have hm' := hmatches c
    rw [hc] at hm'
    have hheld := hfits c
    rw [hc] at hheld
    refine h.pushed hm' (by simp [hc]) rfl rfl rfl fun c' hcc ↦ ?_
    -- nobody else moves the vector, and nobody reads it
    refine (hfits c').mono (by simp) le_rfl (fun hsome ↦ ?_) fun b i res hreading ↦ ?_
    · exact absurd (Option.some.inj (hsome.symm.trans hheld)) hcc
    · exact nomatch hheld.symm.trans (hcalm.still hreading)
  | count c i hc =>
    have hm := hmatches c
    rw [hc] at hm
    have hfit := hfits c
    rw [hc] at hfit
    have hin : c ∈ P := (hP c).mpr ⟨i, hc⟩
    have hpos : 0 < P.card := Finset.card_pos.mpr ⟨c, hin⟩
    refine ⟨o, .stutter, ?_⟩
    refine h.of_others (c := c) (fun c' hc' ↦ Function.update_of_ne hc' ..) (fun _ _ ↦ rfl)
      (fun _ _ _ _ hreading ↦ hreading) (fun _ _ ↦ subset_rfl) h.state ?_
      ⟨P.erase c, fun c' ↦ ?_, ?_⟩ ?_ h.nonneg (fun c' _ ↦ ?_) ?_
    · simpa [Place.Matches] using hm
    · by_cases hcc : c' = c
      · simp [hcc]
      · simp [hcc, hP]
    · rw [Finset.card_erase_of_mem hin]
      show s.threads_cnt_ + 1 + _ = s.counters_.length
      omega
    · exact le_antisymm (h.rest ▸ h.nonneg.sum_drop_le (Nat.le_succ _)) h.nonneg.drop
    · exact (hfits c').mono le_rfl (Nat.le_succ _) id fun _ _ _ _ hold ↦ hold
    · simpa [State.Fits] using hfit
  | increment c i v hc hv =>
    have hcalls : o.calls c = .called (.increment i) := by
      have hm := hmatches c
      rw [hc] at hm
      exact hm.1
    have hlt : i < s.threads_cnt_ := by
      have hfit := hfits c
      rwa [hc] at hfit
    obtain ⟨hpos, hle⟩ := h.nonneg.le_sum hv
    have hwrap : Lib.wrap 64 (v + 1) = v + 1 :=
      Lib.wrap_of_inRange (by decide) ⟨by omega, by omega⟩
    refine ⟨_, .effect c (.increment i) hcalls, ?_⟩
    rw [h.state, hwrap]
    refine h.of_others (c := c) (fun c' hc' ↦ Function.update_of_ne hc' ..)
      (fun c' hc' ↦ Function.update_of_ne hc' ..) (fun c' _ j res hreading ↦ hreading.increment hv)
      (fun c' _ ↦ Set.subset_insert _ _) ?_ ?_
      ⟨P, pushed_update hP (by simp [hc]) (by simp), ?_⟩ ?_ (h.nonneg.set (by omega))
      (fun c' _ ↦ ?_) ?_
    · simp [apply, sum_set_succ hv]
    · simp [Place.Matches, apply]
    · simpa using hcard
    · rw [List.drop_set_of_lt hlt]
      exact h.rest
    · exact (hfits c').mono (by simp) le_rfl id fun _ _ _ _ hold ↦ hold
    · simp [State.Fits]
  | start c hc =>
    have hm := hmatches c
    rw [hc] at hm
    exact ⟨o, .stutter, h.silent (by simp [hc]) ⟨hm.1, hm.2 rfl⟩ (by simp) trivial⟩
  | check c i res hc =>
    have hm := hmatches c
    rw [hc] at hm
    refine ⟨o, .stutter, ?_⟩
    split
    · rename_i hlt
      exact h.silent (by simp [hc]) hm (by simp) (hlt.trans_le hcnt)
    · rename_i hge
      have hrest : (s.counters_.drop i).sum = 0 :=
        le_antisymm (h.rest ▸ h.nonneg.sum_drop_le (not_lt.mp hge)) h.nonneg.drop
      obtain ⟨a, ha, rfl⟩ := hm.2.value h.nonneg hrest
      exact h.silent (by simp [hc]) ⟨hm.1, a, ha, rfl⟩ (by simp) trivial
  | address c i res hc =>
    have hm := hmatches c
    rw [hc] at hm
    have hfit := hfits c
    rw [hc] at hfit
    exact ⟨o, .stutter, h.silent (by simp [hc]) hm (by simp) ⟨hfit, fun _ ↦ rfl⟩⟩
  | load c b i res v hc hv =>
    have hm := hmatches c
    rw [hc] at hm
    have hfit := hfits c
    rw [hc] at hfit
    obtain ⟨hlt, hbuffer⟩ := hfit
    have hfree := hcalm.still hc
    obtain ⟨w, hw⟩ : ∃ w, s.counters_[i]? = some w := ⟨_, List.getElem?_eq_getElem hlt⟩
    obtain rfl := hv ⟨hfree, hbuffer hfree⟩ w hw
    have hload := hm.2.load hw (h.nonneg.le_sum hw).1
    have hwrap : Lib.wrap 64 (res + v) = res + v := by
      have hnonneg := hload.nonneg
      have hle := hload.le.trans h.nonneg.sum_take_le
      exact Lib.wrap_of_inRange (by decide) ⟨by omega, by omega⟩
    rw [hwrap]
    exact ⟨o, .stutter, h.silent (by simp [hc]) ⟨hm.1, hload⟩ (by simp) trivial⟩
  | ret c op res hc =>
    have hm := hmatches c
    rw [hc] at hm
    have hfit : s.Fits c (.returned op res) := by
      cases op with
      | getIncrementer =>
        cases res with
        | incrementer i =>
          have hempty : P = ∅ := by
            refine Finset.eq_empty_of_forall_notMem fun c' hc' ↦ ?_
            obtain ⟨j, hj⟩ := (hP c').mp hc'
            exact hprompt c i rfl c' j hj
          rw [hempty, Finset.card_empty, Nat.add_zero] at hcard
          have hlt := hfits c
          rw [hc] at hlt
          show i < s.threads_cnt_
          exact hcard ▸ hlt
        | _ => trivial
      | _ => trivial
    have hgo {p : Progress Op Result} (hp : p = .returned op res) := h.go (c := c) (by simp [hc])
      (fun _ _ ↦ rfl) (show (Place.returned op res).Matches s.counters_ (o.past c) p from hp)
      (by simp) hfit
    cases op with
    | getValue =>
      obtain ⟨hcalled, a, ha, rfl⟩ := hm
      exact ⟨_, .answer c .getValue a hcalled reads_getValue ha, hgo rfl⟩
    | getIncrementer =>
      exact ⟨_, .ret c .getIncrementer res (by simpa [Place.Matches] using hm), hgo rfl⟩
    | increment i =>
      exact ⟨_, .ret c (.increment i) res (by simpa [Place.Matches] using hm), hgo rfl⟩

end

/-! ## The counter from outside -/

/-- What breaks it: call `0` has put its counter into the vector, but has not added it to
`threads_cnt_` yet, when call `1` returns with the second counter.  `Increment` of this counter
returns, and after it `GetValue` returns zero. -/
theorem increment_missed :
    ∃ (h : List (State (Fin 4) × Label (Fin 4) Op Result)) (s : State (Fin 4)),
      Trace Step init h s ∧
        seen h = [.call 0 .getIncrementer, .call 1 .getIncrementer, .ret 1 (.incrementer 1),
          .call 2 (.increment 1), .ret 2 .void, .call 3 .getValue, .ret 3 (.value 0)] := by
  have hrun := (.nil : Trace Step (init : State (Fin 4)) [] _)
    |>.snoc (.call 0 .getIncrementer rfl (by simp [State.allowed]))
    |>.snoc (.move 0 rfl rfl le_rfl)
    |>.snoc (.moved 0 2 rfl (by decide))
    |>.snoc (.call 1 .getIncrementer rfl (by simp [State.allowed]))
    |>.snoc (.push 1 rfl rfl (by decide))
    |>.snoc (.count 1 1 rfl)
    |>.snoc (.ret 1 .getIncrementer (.incrementer 1) rfl)
    |>.snoc (.call 2 (.increment 1) rfl (by simpa [State.allowed] using ⟨1, rfl⟩))
    |>.snoc (.increment 2 1 0 rfl rfl)
    |>.snoc (.ret 2 (.increment 1) .void rfl)
    |>.snoc (.call 3 .getValue rfl (by simp [State.allowed]))
    |>.snoc (.start 3 rfl)
    |>.snoc (.check 3 0 0 rfl)
    |>.snoc (.address 3 0 0 rfl)
    |>.snoc (.load 3 1 0 0 0 rfl (by simp [init]))
    |>.snoc (.check 3 1 0 rfl)
    |>.snoc (.ret 3 .getValue (.value 0) rfl)
  exact ⟨_, _, hrun, rfl⟩

/-- What breaks it as well: call `1` has the address of the buffer when call `2` moves the vector.
Nobody has called `Increment`, and `GetValue` returns what is left where the counter was. -/
theorem buffer_freed :
    ∃ (h : List (State (Fin 3) × Label (Fin 3) Op Result)) (s : State (Fin 3)),
      Trace Step init h s ∧ (∀ x ∈ h, prompt x.1 x.2) ∧
        seen h = [.call 0 .getIncrementer, .ret 0 (.incrementer 0), .call 1 .getValue,
          .call 2 .getIncrementer, .ret 2 (.incrementer 1), .ret 1 (.value 42)] := by
  have hrun := (.nil : Trace Step (init : State (Fin 3)) [] _)
    |>.snoc (.call 0 .getIncrementer rfl (by simp [State.allowed]))
    |>.snoc (.move 0 rfl rfl le_rfl)
    |>.snoc (.moved 0 1 rfl (by decide))
    |>.snoc (.count 0 0 rfl)
    |>.snoc (.ret 0 .getIncrementer (.incrementer 0) rfl)
    |>.snoc (.call 1 .getValue rfl (by simp [State.allowed]))
    |>.snoc (.start 1 rfl)
    |>.snoc (.check 1 0 0 rfl)
    |>.snoc (.address 1 0 0 rfl)
    |>.snoc (.call 2 .getIncrementer rfl (by simp [State.allowed]))
    |>.snoc (.move 2 rfl rfl le_rfl)
    |>.snoc (.load 1 1 0 0 42 rfl (by simp [State.holds]))
    |>.snoc (.check 1 1 42 rfl)
    |>.snoc (.moved 2 2 rfl (by decide))
    |>.snoc (.count 2 1 rfl)
    |>.snoc (.ret 2 .getIncrementer (.incrementer 1) rfl)
    |>.snoc (.ret 1 .getValue (.value 42) rfl)
  refine ⟨_, _, hrun, ?_, rfl⟩
  simp [prompt, init, Fin.forall_fin_succ]

end RwCounter
end ManyTasks
