import ManyTasks.Cactus.TimerHeap
import Mathlib.Algebra.Order.Group.Nat
import Mathlib.Data.Set.Card

/-!
# The positions of the timers are `int`s

`heap_position_` is an `int`, and `-1` for a timer that is not active; the heap itself is indexed by
`size_t`.  As long as no more than `2 ^ 31` timers are active at once the conversions lose nothing,
and the heap is the one whose positions are natural numbers: every call on that one is a call here
(`positions_activate`, `positions_deactivate`), so that what is known of it holds here after any
calls (`run_good`).

One timer more, and its position would be negative.  `Activate` then goes to an entry that does not
exist (`run_ascending`).
-/

set_option autoImplicit false

namespace ManyTasks
namespace Cactus

open Function (update update_self update_of_ne)
open Lib (IsHeap)

/-! ## The model -/

/-- A `size_t` becomes an `int`. -/
def intOfSize (n : ℕ) : ℤ := (n : ℤ).bmod (2 ^ 32)

/-- An `int` becomes a `size_t`. -/
def sizeOfInt (p : ℤ) : ℕ := (p % 2 ^ 64).toNat

/-- `TimerHeap`, and `heap_position_` of all timers. -/
structure TimerPositions (T D : Type) where
  heap_ : Array (HeapEntry T D)
  heap_position_ : T → ℤ

/-- What is called for a timer. -/
inductive TimerCall (T D : Type) where
  | activate (t : T) (deadline : D)
  | deactivate (t : T)
  | destroy (t : T)
deriving DecidableEq, Repr

namespace TimerPositions

variable {T D : Type} [DecidableEq T] [LinearOrder D]

/-- No timer is active. -/
def init : TimerPositions T D := ⟨#[], fun _ ↦ -1⟩

/-- `TimerHeap::GetMin`. -/
def getMin (s : TimerPositions T D) : Option T := s.heap_[0]?.map HeapEntry.timer

/-- `Timer::IsActive`. -/
def isActive (s : TimerPositions T D) (t : T) : Bool := s.heap_position_ t != -1

/-- Two entries change places, and their timers are told. -/
def swap (s : TimerPositions T D) (i j : ℕ) (hi : i < s.heap_.size) (hj : j < s.heap_.size) :
    TimerPositions T D where
  heap_ := s.heap_.swap i j hi hj
  heap_position_ :=
    update (update s.heap_position_ s.heap_[j].timer (intOfSize i)) s.heap_[i].timer (intOfSize j)

/-- `TimerHeap::SiftUp`. -/
def siftUp (s : TimerPositions T D) (index : ℕ) (h : index < s.heap_.size) : TimerPositions T D :=
  if hpos : 0 < index then
    have hp : (index - 1) / 2 < s.heap_.size := by omega
    if s.heap_[(index - 1) / 2].deadline < s.heap_[index].deadline then s
    else (s.swap index ((index - 1) / 2) h hp).siftUp ((index - 1) / 2) (by simpa [swap] using hp)
  else s
termination_by index

/-- One turn of the loop over the children. -/
def pick (s : TimerPositions T D) (smaller : Fin s.heap_.size) (child : ℕ) : Fin s.heap_.size :=
  if h : child < s.heap_.size then
    if s.heap_[child].deadline < s.heap_[smaller].deadline then ⟨child, h⟩ else smaller
  else smaller

/-- The entry and its children: which of them has the least deadline? -/
def smaller (s : TimerPositions T D) (index : ℕ) (h : index < s.heap_.size) : Fin s.heap_.size :=
  s.pick (s.pick ⟨index, h⟩ (index * 2 + 1)) (index * 2 + 2)

omit [DecidableEq T] in
theorem lt_smaller {s : TimerPositions T D} {index : ℕ} {h : index < s.heap_.size}
    (hne : (s.smaller index h).val ≠ index) : index < (s.smaller index h).val :=
  TimerHeap.lt_smaller (s := ⟨s.heap_, fun _ ↦ none⟩) (h := h) hne

/-- `TimerHeap::SiftDown`. -/
def siftDown (s : TimerPositions T D) (index : ℕ) (h : index < s.heap_.size) : TimerPositions T D :=
  if hne : (s.smaller index h).val ≠ index then
    (s.swap index (s.smaller index h) h (s.smaller index h).isLt).siftDown (s.smaller index h)
      (by simp [swap])
  else s
termination_by s.heap_.size - index
decreasing_by
  have hlt := lt_smaller hne
  simp only [swap, Array.size_swap]
  omega

@[simp]
theorem size_siftDown (s : TimerPositions T D) (index : ℕ) (h : index < s.heap_.size) :
    (s.siftDown index h).heap_.size = s.heap_.size := by
  induction s, index, h using siftDown.induct with
  | case1 s index h hne ih =>
    rw [siftDown, dif_pos hne, ih, swap, Array.size_swap]
  | case2 s index h heq =>
    rw [siftDown, dif_neg heq]

/-- `SiftUp(heap_position_)`; there is no result if that is not the position of an entry. -/
def siftUpAt (s : TimerPositions T D) (p : ℤ) : Option (TimerPositions T D) :=
  if h : sizeOfInt p < s.heap_.size then some (s.siftUp (sizeOfInt p) h) else none

theorem siftUpAt_eq {s : TimerPositions T D} {p : ℤ} {index : ℕ} (hp : sizeOfInt p = index)
    (h : index < s.heap_.size) : s.siftUpAt p = some (s.siftUp index h) := by
  subst hp
  exact dif_pos h

/-- The entry is put at the end, and its timer is told. -/
def push (s : TimerPositions T D) (t : T) (deadline : D) : TimerPositions T D where
  heap_ := s.heap_.push ⟨deadline, t⟩
  heap_position_ := update s.heap_position_ t (intOfSize s.heap_.size)

/-- `Timer::Activate`. -/
def activate (s : TimerPositions T D) (t : T) (deadline : D) : Option (TimerPositions T D) :=
  (s.push t deadline).siftUpAt ((s.push t deadline).heap_position_ t)

/-- The entry at the position is overwritten by the last one, which goes. -/
def replace (s : TimerPositions T D) (t : T) (position : ℕ) (h : position < s.heap_.size) :
    TimerPositions T D where
  heap_ := (s.heap_.set position s.heap_[s.heap_.size - 1] h).pop
  heap_position_ :=
    update (update s.heap_position_ t (-1)) s.heap_[s.heap_.size - 1].timer (intOfSize position)

/-- The entry at the position goes; there is no result if there is none. -/
def remove (s : TimerPositions T D) (t : T) (position : ℕ) : Option (TimerPositions T D) :=
  if h : position < s.heap_.size then
    if hlast : position ≠ s.heap_.size - 1 then
      have hlt : position < (s.replace t position h).heap_.size := by
        simp only [replace, Array.size_pop, Array.size_set]
        omega
      some (((s.replace t position h).siftDown position hlt).siftUp position (by simpa using hlt))
    else some { heap_ := s.heap_.pop, heap_position_ := update s.heap_position_ t (-1) }
  else none

/-- `Timer::Deactivate`. -/
def deactivate (s : TimerPositions T D) (t : T) : Option (TimerPositions T D) :=
  if s.heap_position_ t = -1 then some s else s.remove t (sizeOfInt (s.heap_position_ t))

/-- `Timer::~Timer`. -/
def destroy (s : TimerPositions T D) (t : T) : Option (TimerPositions T D) :=
  if s.isActive t then s.deactivate t else some s

def call (s : TimerPositions T D) : TimerCall T D → Option (TimerPositions T D)
  | .activate t deadline => s.activate t deadline
  | .deactivate t => s.deactivate t
  | .destroy t => s.destroy t

/-- One call after the other. -/
def run (s : TimerPositions T D) (calls : List (TimerCall T D)) : Option (TimerPositions T D) :=
  calls.foldlM call s

end TimerPositions

/-! ## The positions as natural numbers -/

section Conversion

variable {n : ℕ}

theorem intOfSize_eq (hn : n < 2 ^ 31) : intOfSize n = n :=
  Int.bmod_eq_of_le (by omega) (by omega)

theorem sizeOfInt_intOfSize (hn : n < 2 ^ 31) : sizeOfInt (intOfSize n) = n := by
  rw [intOfSize_eq hn, sizeOfInt]
  omega

/-- The first number that is not an `int` becomes the least one, and this a large size. -/
theorem le_sizeOfInt_intOfSize (hn : n = 2 ^ 31) : 2 ^ 32 ≤ sizeOfInt (intOfSize n) := by
  have hint : intOfSize n = -2 ^ 31 := (Int.bmod_def n (2 ^ 32)).trans (by omega)
  rw [hint, sizeOfInt]
  omega

end Conversion

/-- `heap_position_`. -/
def position : Option ℕ → ℤ
  | none => -1
  | some i => intOfSize i

@[simp]
theorem position_none : position none = -1 := rfl

@[simp]
theorem position_some (i : ℕ) : position (some i) = intOfSize i := rfl

namespace TimerHeap

variable {T D : Type}

/-- The positions as they are stored. -/
def positions (s : TimerHeap T D) : TimerPositions T D := ⟨s.heap_, position ∘ s.heap_position_⟩

variable [DecidableEq T]

theorem positions_swap (s : TimerHeap T D) {i j : ℕ} (hi : i < s.heap_.size) (hj : j < s.heap_.size)
    (hi' : i < s.positions.heap_.size) (hj' : j < s.positions.heap_.size) :
    (s.swap i j hi hj).positions = s.positions.swap i j hi' hj' := by
  rw [positions, swap, Function.comp_update, Function.comp_update, position_some, position_some]
  rfl

variable [LinearOrder D]

theorem positions_siftUp (s : TimerHeap T D) (index : ℕ) (h : index < s.heap_.size)
    {u : TimerPositions T D} (hu : s.positions = u) (h' : index < u.heap_.size) :
    (s.siftUp index h).positions = u.siftUp index h' := by
  subst hu
  induction s, index, h using siftUp.induct with
  | case1 s index h hpos hp hlt =>
    rw [siftUp, dif_pos hpos, if_pos hlt, TimerPositions.siftUp, dif_pos hpos]
    exact (if_pos hlt).symm
  | case2 s index h hpos hp hle ih =>
    have hp' : (index - 1) / 2 < s.positions.heap_.size := hp
    have hswap := s.positions_swap h hp h' hp'
    rw [siftUp, dif_pos hpos, if_neg hle, ih (by rw [hswap]; simpa [TimerPositions.swap] using hp'),
      TimerPositions.siftUp.eq_def s.positions index, dif_pos hpos]
    refine Eq.trans ?_ (if_neg hle).symm
    congr 1
  | case3 s index h hzero =>
    rw [siftUp, dif_neg hzero, TimerPositions.siftUp, dif_neg hzero]

theorem positions_siftDown (s : TimerHeap T D) (index : ℕ) (h : index < s.heap_.size)
    {u : TimerPositions T D} (hu : s.positions = u) (h' : index < u.heap_.size) :
    (s.siftDown index h).positions = u.siftDown index h' := by
  subst hu
  induction s, index, h using siftDown.induct with
  | case1 s index h hne ih =>
    have hlt : (s.smaller index h).val < s.positions.heap_.size := (s.smaller index h).isLt
    have hswap := s.positions_swap h (s.smaller index h).isLt h' hlt
    rw [siftDown, dif_pos hne, ih (by rw [hswap]; simpa [TimerPositions.swap] using hlt),
      TimerPositions.siftDown.eq_def s.positions index]
    refine Eq.trans ?_ (dif_pos hne).symm
    congr 1
  | case2 s index h heq =>
    have heq' : ¬(s.positions.smaller index h').val ≠ index := heq
    rw [siftDown, dif_neg heq, TimerPositions.siftDown, dif_neg heq']

/-- `Activate` puts the entry where it is with natural numbers, if there is a position for it. -/
theorem positions_activate (s : TimerHeap T D) (t : T) (deadline : D)
    (hsize : s.heap_.size < 2 ^ 31) :
    s.positions.activate t deadline = some (s.activate t deadline).positions := by
  have hpushed : (⟨s.heap_.push ⟨deadline, t⟩, update s.heap_position_ t (some s.heap_.size)⟩ :
      TimerHeap T D).positions = s.positions.push t deadline := by
    rw [positions, Function.comp_update, position_some]
    rfl
  have hposition : (s.positions.push t deadline).heap_position_ t = intOfSize s.heap_.size :=
    update_self ..
  have hlt : s.heap_.size < (s.positions.push t deadline).heap_.size := by
    rw [TimerPositions.push, Array.size_push]
    exact Nat.lt_succ_self _
  rw [activate, positions_siftUp _ _ _ hpushed hlt, TimerPositions.activate, hposition]
  exact TimerPositions.siftUpAt_eq (sizeOfInt_intOfSize hsize) hlt

/-- `Deactivate` takes the entry at the position. -/
theorem positions_deactivate {s : TimerHeap T D} (hs : Placed s) (t : T)
    (hsize : s.heap_.size ≤ 2 ^ 31) :
    s.positions.deactivate t = some (s.deactivate t).positions := by
  have hstored : s.positions.heap_position_ t = position (s.heap_position_ t) := rfl
  rw [TimerPositions.deactivate, hstored]
  cases hpos : s.heap_position_ t with
  | none =>
    rw [position_none, if_pos rfl]
    simp only [deactivate, hpos]
  | some i =>
    obtain ⟨hi, -⟩ := hs.entry t i hpos
    have hsmall : i < 2 ^ 31 := hi.trans_le hsize
    simp only [deactivate, hpos]
    rw [position_some, sizeOfInt_intOfSize hsmall, intOfSize_eq hsmall, if_neg (by omega),
      TimerPositions.remove, dif_pos (show i < s.positions.heap_.size from hi)]
    by_cases hlast : i < s.heap_.size - 1
    · have hlast' : i ≠ s.positions.heap_.size - 1 := hlast.ne
      have hreplace : (s.replace t i hlast).positions = s.positions.replace t i hi := by
        rw [positions, replace, Function.comp_update, Function.comp_update, position_none,
          position_some]
        rfl
      rw [dif_pos hlast', dif_pos hlast]
      exact congrArg some (positions_siftUp _ _ _ (positions_siftDown _ _ _ hreplace _) _).symm
    · have hlast' : ¬i ≠ s.positions.heap_.size - 1 := by
        have hsame : s.positions.heap_.size = s.heap_.size := rfl
        omega
      have hpop : (⟨s.heap_.pop, update s.heap_position_ t none⟩ : TimerHeap T D).positions =
          ⟨s.positions.heap_.pop, update s.positions.heap_position_ t (-1)⟩ := by
        rw [positions, Function.comp_update, position_none]
        rfl
      rw [dif_neg hlast', dif_neg hlast, hpop]

/-- `~Timer` does what `Deactivate` does, as this does nothing for a timer that is not active. -/
theorem positions_destroy {s : TimerHeap T D} (hs : Placed s) (t : T)
    (hsize : s.heap_.size ≤ 2 ^ 31) :
    s.positions.destroy t = some (s.deactivate t).positions := by
  rw [TimerPositions.destroy, ← positions_deactivate hs t hsize]
  split
  · rfl
  · rename_i hinactive
    have hposition : s.positions.heap_position_ t = -1 := by
      simpa [TimerPositions.isActive] using hinactive
    rw [TimerPositions.deactivate, if_pos hposition]

omit [DecidableEq T] [LinearOrder D] in
/-- `IsActive` compares with `-1`. -/
theorem isActive_positions {s : TimerHeap T D} (hs : Placed s) (t : T)
    (hsize : s.heap_.size ≤ 2 ^ 31) :
    s.positions.isActive t = s.isActive t := by
  have hstored : s.positions.heap_position_ t = position (s.heap_position_ t) := rfl
  rw [TimerPositions.isActive, isActive, hstored]
  cases hpos : s.heap_position_ t with
  | none => rfl
  | some i =>
    obtain ⟨hi, -⟩ := hs.entry t i hpos
    rw [position_some, intOfSize_eq (hi.trans_le hsize), Option.isSome_some, bne_iff_ne]
    omega

end TimerHeap

/-! ## Runs -/

section Runs

variable {T D : Type} [DecidableEq T]

/-- The deadlines of the active timers after a call. -/
def TimerCall.apply (f : T → Option D) : TimerCall T D → T → Option D
  | .activate t deadline => update f t (some deadline)
  | .deactivate t => update f t none
  | .destroy t => update f t none

/-- The deadlines after some calls. -/
def deadlinesAfter (f : T → Option D) (calls : List (TimerCall T D)) : T → Option D :=
  calls.foldl TimerCall.apply f

/-- `Activate` is for timers that are not active. -/
def TimerCall.Legal (f : T → Option D) : TimerCall T D → Prop
  | .activate t _ => f t = none
  | .deactivate _ => True
  | .destroy _ => True

/-- Every call is legal at its time. -/
def Legal : (T → Option D) → List (TimerCall T D) → Prop
  | _, [] => True
  | f, c :: calls => c.Legal f ∧ Legal (c.apply f) calls

omit [DecidableEq T] in
/-- How many timers are active? -/
noncomputable def activeCount (f : T → Option D) : ℕ := {t | f t ≠ none}.ncard

/-- There are never more than `2 ^ 31` active timers. -/
def Fits : (T → Option D) → List (TimerCall T D) → Prop
  | _, [] => True
  | f, c :: calls => activeCount (c.apply f) ≤ 2 ^ 31 ∧ Fits (c.apply f) calls

variable [LinearOrder D]

/-- A call on the heap whose positions are natural numbers. -/
def TimerHeap.call (s : TimerHeap T D) : TimerCall T D → TimerHeap T D
  | .activate t deadline => s.activate t deadline
  | .deactivate t => s.deactivate t
  | .destroy t => s.deactivate t

omit [DecidableEq T] in
/-- The heap has an entry for every active timer. -/
theorem TimerHeap.Valid.activeCount_eq {s : TimerHeap T D} (hs : s.Valid) :
    activeCount s.getDeadline = s.heap_.size := by
  have hactive : {t | s.getDeadline t ≠ none} = Set.range fun i : Fin s.heap_.size ↦
      s.heap_[i].timer := by
    ext t
    rw [Set.mem_ofPred_eq, Option.ne_none_iff_exists', Set.mem_range]
    constructor
    · rintro ⟨d, hd⟩
      rw [hs.getDeadline_eq_some, Array.mem_iff_getElem] at hd
      obtain ⟨i, hi, heq⟩ := hd
      exact ⟨⟨i, hi⟩, by simp [heq]⟩
    · rintro ⟨i, rfl⟩
      exact ⟨_, hs.getDeadline_eq_some.mpr (Array.getElem_mem i.isLt)⟩
  have hinj : Function.Injective fun i : Fin s.heap_.size ↦ s.heap_[i].timer :=
    fun i j h ↦ Fin.ext (hs.unique i.isLt j.isLt h)
  rw [activeCount, hactive, Set.ncard_range_of_injective hinj, Nat.card_fin]

/-- What a call does to the deadlines. -/
theorem TimerHeap.Valid.call {s : TimerHeap T D} (hs : s.Valid) {c : TimerCall T D}
    (hlegal : c.Legal s.getDeadline) :
    (s.call c).Valid ∧ (s.call c).getDeadline = c.apply s.getDeadline := by
  cases c with
  | activate t deadline =>
    refine activate_correct hs ?_ deadline
    rw [hs.isActive_eq, hlegal, Option.isSome_none]
  | deactivate t => exact deactivate_correct hs t
  | destroy t => exact deactivate_correct hs t

/-- A call is the one on the heap with natural numbers. -/
theorem TimerHeap.Valid.positions_call {s : TimerHeap T D} (hs : s.Valid) {c : TimerCall T D}
    (hlegal : c.Legal s.getDeadline) (hsize : s.heap_.size ≤ 2 ^ 31)
    (hfits : activeCount (c.apply s.getDeadline) ≤ 2 ^ 31) :
    s.positions.call c = some (s.call c).positions := by
  cases c with
  | activate t deadline =>
    obtain ⟨hvalid, hdeadlines⟩ := hs.call hlegal
    have hcount : (s.activate t deadline).heap_.size ≤ 2 ^ 31 := by
      rwa [← hdeadlines, hvalid.activeCount_eq] at hfits
    rw [activate, size_siftUp, Array.size_push] at hcount
    exact s.positions_activate t deadline hcount
  | deactivate t => exact positions_deactivate hs.toPlaced t hsize
  | destroy t => exact positions_destroy hs.toPlaced t hsize

/-- After any calls the positions are those of the heap with natural numbers. -/
theorem TimerHeap.Valid.positions_run {s : TimerHeap T D} (hs : s.Valid)
    {calls : List (TimerCall T D)} (hlegal : Legal s.getDeadline calls)
    (hsize : s.heap_.size ≤ 2 ^ 31) (hfits : Fits s.getDeadline calls) :
    ∃ s' : TimerHeap T D, s.positions.run calls = some s'.positions ∧ s'.Valid ∧
      s'.heap_.size ≤ 2 ^ 31 ∧ s'.getDeadline = deadlinesAfter s.getDeadline calls := by
  induction calls generalizing s with
  | nil => exact ⟨s, rfl, hs, hsize, rfl⟩
  | cons c calls ih =>
    obtain ⟨hvalid, hdeadlines⟩ := hs.call hlegal.1
    have hsize' : (s.call c).heap_.size ≤ 2 ^ 31 := by
      rw [← hvalid.activeCount_eq, hdeadlines]
      exact hfits.1
    obtain ⟨s', hrun, hrest⟩ := ih hvalid (hdeadlines ▸ hlegal.2) hsize' (hdeadlines ▸ hfits.2)
    refine ⟨s', ?_, ?_⟩
    · rw [TimerPositions.run, List.foldlM_cons, hs.positions_call hlegal.1 hsize hfits.1,
        Option.bind_eq_bind, Option.bind_some]
      exact hrun
    · rw [hdeadlines] at hrest
      exact hrest

/-! ## The invariant -/

/-- What holds between two calls, when the active timers have these deadlines. -/
structure TimerPositions.Good (s : TimerPositions T D) (f : T → Option D) : Prop where
  order : IsHeap HeapEntry.deadline s.heap_
  position : ∀ i (hi : i < s.heap_.size), s.heap_position_ s.heap_[i].timer = i
  inactive : ∀ t, (∀ i (hi : i < s.heap_.size), s.heap_[i].timer ≠ t) → s.heap_position_ t = -1
  unique : ∀ i j (hi : i < s.heap_.size) (hj : j < s.heap_.size),
    s.heap_[i].timer = s.heap_[j].timer → i = j
  deadlines : ∀ t d, f t = some d ↔ ⟨d, t⟩ ∈ s.heap_
  isActive : ∀ t, s.isActive t = (f t).isSome
  getMin_none : s.getMin = none ↔ ∀ t, f t = none
  getMin_some : ∀ t, s.getMin = some t → ∃ d, f t = some d ∧ ∀ t' d', f t' = some d' → d ≤ d'

omit [DecidableEq T] in
theorem TimerHeap.Valid.good {s : TimerHeap T D} (hs : s.Valid) (hsize : s.heap_.size ≤ 2 ^ 31) :
    s.positions.Good s.getDeadline where
  order := hs.order
  position i hi := by
    have hstored : s.positions.heap_position_ s.heap_[i].timer = Cactus.position (some i) := by
      rw [← hs.position i hi]
      rfl
    exact hstored.trans (intOfSize_eq (hi.trans_le hsize))
  inactive t ht := by
    have hnone : s.heap_position_ t = none := by
      rw [Option.eq_none_iff_forall_ne_some]
      intro i hi
      obtain ⟨hlt, heq⟩ := hs.entry t i hi
      exact ht i hlt heq
    exact congrArg Cactus.position hnone
  unique i j hi hj h := hs.unique hi hj h
  deadlines t d := hs.getDeadline_eq_some
  isActive t := by rw [isActive_positions hs.toPlaced t hsize, hs.isActive_eq]
  getMin_none := by
    rcases getMin_correct hs with ⟨hnone, hinactive⟩ | ⟨t, d, hsome, hd, -⟩
    · exact iff_of_true hnone hinactive
    · refine iff_of_false (fun hnone ↦ ?_) fun hinactive ↦ ?_
      · rw [show s.positions.getMin = s.getMin from rfl, hsome] at hnone
        cases hnone
      · rw [hinactive t] at hd
        cases hd
  getMin_some t ht := by
    rcases getMin_correct hs with ⟨hnone, -⟩ | ⟨t', d, hsome, hd, hmin⟩
    · rw [show s.positions.getMin = s.getMin from rfl, hnone] at ht
      cases ht
    · rw [show s.positions.getMin = s.getMin from rfl, hsome, Option.some.injEq] at ht
      exact ⟨d, ht ▸ hd, hmin⟩

omit [DecidableEq T] in
theorem TimerHeap.valid_init : (TimerHeap.init : TimerHeap T D).Valid where
  position i hi := absurd hi (Nat.not_lt_zero i)
  entry t i h := by cases h
  order c p hc hp hchild hnot := absurd hc (Nat.not_lt_zero c)

/-- **After any calls that are legal and keep the number of active timers within `2 ^ 31`, the
entries are a heap, the positions are those of the entries, and the deadlines are those that were
given.** -/
theorem run_good (calls : List (TimerCall T D)) (hlegal : Legal (fun _ ↦ none) calls)
    (hfits : Fits (fun _ ↦ none) calls) :
    ∃ s : TimerPositions T D, TimerPositions.init.run calls = some s ∧
      s.Good (deadlinesAfter (fun _ ↦ none) calls) := by
  obtain ⟨s, hrun, hvalid, hsize, hdeadlines⟩ :=
    TimerHeap.valid_init.positions_run hlegal (Nat.zero_le _) hfits
  refine ⟨s.positions, hrun, ?_⟩
  have hgood := hvalid.good hsize
  rw [hdeadlines] at hgood
  exact hgood

end Runs

theorem run_good_two :
    ∃ s : TimerPositions Bool ℕ,
      TimerPositions.init.run [.activate true 5, .activate false 3, .destroy true] = some s ∧
        s.Good (deadlinesAfter (fun _ ↦ none)
          [.activate true 5, .activate false 3, .destroy true]) := by
  have hcount (f : Bool → Option ℕ) : activeCount f ≤ 2 ^ 31 := by
    have hle : activeCount f ≤ (Set.univ : Set Bool).ncard := Set.ncard_le_ncard (Set.subset_univ _)
    rw [Set.ncard_univ, Nat.card_eq_fintype_card, Fintype.card_bool] at hle
    omega
  exact run_good _ ⟨rfl, rfl, trivial, trivial⟩ ⟨hcount _, hcount _, hcount _, trivial⟩

/-! ## One timer more -/

section Ascending

variable {T D : Type} [DecidableEq T] {f : T → Option D} {calls calls' : List (TimerCall T D)}

theorem legal_append :
    Legal f (calls ++ calls') ↔ Legal f calls ∧ Legal (deadlinesAfter f calls) calls' := by
  induction calls generalizing f with
  | nil => exact ⟨fun h ↦ ⟨trivial, h⟩, fun h ↦ h.2⟩
  | cons c calls ih => exact (and_congr_right fun _ ↦ ih).trans and_assoc.symm

theorem fits_append : Fits f (calls ++ calls') ↔
    Fits f calls ∧ Fits (deadlinesAfter f calls) calls' := by
  induction calls generalizing f with
  | nil => exact ⟨fun h ↦ ⟨trivial, h⟩, fun h ↦ h.2⟩
  | cons c calls ih => exact (and_congr_right fun _ ↦ ih).trans and_assoc.symm

section

variable [LinearOrder D]

theorem run_append (s : TimerPositions T D) (calls calls' : List (TimerCall T D)) :
    s.run (calls ++ calls') = (s.run calls).bind fun s' ↦ s'.run calls' :=
  List.foldlM_append

theorem run_activate (s : TimerPositions T D) (t : T) (deadline : D) :
    s.run [.activate t deadline] = s.activate t deadline := by
  rw [TimerPositions.run, List.foldlM_cons]
  exact Option.bind_fun_some _

end

/-- The timers `0`, `1` and so on are activated one after the other, timer `i` with the deadline
`i`. -/
def ascending (k : ℕ) : List (TimerCall ℕ ℕ) := (List.range k).map fun i ↦ .activate i i

theorem ascending_succ (k : ℕ) : ascending (k + 1) = ascending k ++ [.activate k k] := by
  rw [ascending, List.range_succ, List.map_append]
  rfl

theorem deadlinesAfter_ascending (k : ℕ) :
    deadlinesAfter (fun _ ↦ none) (ascending k) = fun t ↦ if t < k then some t else none := by
  induction k with
  | zero => rfl
  | succ k ih =>
    rw [ascending_succ, deadlinesAfter, List.foldl_append]
    change TimerCall.apply (deadlinesAfter (fun _ ↦ none) (ascending k)) (.activate k k) = _
    rw [ih, TimerCall.apply]
    funext t
    by_cases ht : t = k
    · subst ht
      rw [update_self, if_pos (Nat.lt_succ_self t)]
    · rw [update_of_ne ht]
      exact if_congr (by omega) rfl rfl

theorem legal_ascending (k : ℕ) : Legal (fun _ ↦ none) (ascending k) := by
  induction k with
  | zero => exact trivial
  | succ k ih =>
    rw [ascending_succ, legal_append, deadlinesAfter_ascending]
    exact ⟨ih, if_neg (Nat.lt_irrefl k), trivial⟩

theorem activeCount_ascending (k : ℕ) :
    activeCount (deadlinesAfter (fun _ ↦ none) (ascending k)) = k := by
  have hactive : {t | (if t < k then some t else none) ≠ none} =
      ((Finset.range k : Finset ℕ) : Set ℕ) := by
    ext t
    simp
  rw [deadlinesAfter_ascending, activeCount, hactive, Set.ncard_coe_finset, Finset.card_range]

theorem fits_ascending {k : ℕ} (hk : k ≤ 2 ^ 31) : Fits (fun _ ↦ none) (ascending k) := by
  induction k with
  | zero => exact trivial
  | succ k ih =>
    have hcount := activeCount_ascending (k + 1)
    rw [ascending_succ, deadlinesAfter, List.foldl_append] at hcount
    rw [ascending_succ, fits_append]
    exact ⟨ih (by omega), hcount.le.trans hk, trivial⟩

/-- There is no position for timer `k`. -/
theorem run_ascending_succ {k : ℕ} (hk : k = 2 ^ 31) :
    TimerPositions.init.run (ascending (k + 1)) = none := by
  obtain ⟨s, hrun, hvalid, hsize, hdeadlines⟩ :=
    TimerHeap.valid_init.positions_run (legal_ascending k) (Nat.zero_le _) (fits_ascending hk.le)
  have hcount : s.heap_.size = k := by
    rw [← hvalid.activeCount_eq, hdeadlines]
    exact activeCount_ascending k
  have hposition : (s.positions.push k k).heap_position_ k = intOfSize s.heap_.size :=
    update_self ..
  have hlarge := le_sizeOfInt_intOfSize (hcount.trans hk)
  have hnone : s.positions.activate k k = none := by
    rw [TimerPositions.activate, hposition, TimerPositions.siftUpAt, dif_neg]
    rw [TimerPositions.push, Array.size_push]
    exact fun hlt ↦ absurd (hlt.trans_le (show s.heap_.size + 1 ≤ 2 ^ 32 by omega))
      (not_lt.mpr hlarge)
  have hinit : (TimerPositions.init : TimerPositions ℕ ℕ).run (ascending k) = some s.positions :=
    hrun
  rw [ascending_succ, run_append, hinit, Option.bind_some, run_activate, hnone]

/-- Timer `2 ^ 31` gets the position `-2 ^ 31`, and `Activate` goes to an entry that does not
exist. -/
theorem run_ascending :
    TimerPositions.init.run (ascending (2 ^ 31 + 1)) = none ∧
      ¬∀ calls : List (TimerCall ℕ ℕ), Legal (fun _ ↦ none) calls →
        ∃ s : TimerPositions ℕ ℕ, TimerPositions.init.run calls = some s ∧
          s.Good (deadlinesAfter (fun _ ↦ none) calls) := by
  obtain ⟨k, hk⟩ : ∃ k, k = 2 ^ 31 := ⟨_, rfl⟩
  have hnone := run_ascending_succ hk
  refine ⟨hk ▸ hnone, fun h ↦ ?_⟩
  obtain ⟨s, hs, -⟩ := h (ascending (k + 1)) (legal_ascending _)
  rw [hnone] at hs
  cases hs

end Ascending

end Cactus
end ManyTasks
