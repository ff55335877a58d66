import ManyTasks.Lib.Heap
import Mathlib.Logic.Function.Basic

/-!
# The heap of the timers

The active timers of a scheduler are the entries of a binary heap in an array, each with its
deadline, and every timer knows the position of its entry.  `Activate` puts an entry at the end and
moves it up.  `Deactivate` puts the last entry into the place of the one that goes, and moves it
down and then up.

`Valid` says that the entries are a heap and the positions those of the entries.  To the outside the
heap is the function that gives the deadline of a timer that is active: `activate_correct` and
`deactivate_correct` say what the two calls do to it, and `getMin_correct` that `GetMin` finds its
least value.
-/

set_option autoImplicit false

namespace ManyTasks
namespace Cactus

open Function (update update_self update_of_ne)
open Lib (IsChild IsHeap HeapExcept HeapUp HeapDown)

/-- `TimerHeap::HeapEntry`. -/
structure HeapEntry (T D : Type) where
  deadline : D
  timer : T
deriving DecidableEq, Repr

/-- `TimerHeap`, and `heap_position_` of all timers, which is `none` for `-1`. -/
structure TimerHeap (T D : Type) where
  heap_ : Array (HeapEntry T D)
  heap_position_ : T → Option ℕ

namespace TimerHeap

variable {T D : Type} [DecidableEq T] [LinearOrder D]

/-- No timer is active. -/
def init : TimerHeap T D := ⟨#[], fun _ ↦ none⟩

/-- `TimerHeap::GetMin`. -/
def getMin (s : TimerHeap T D) : Option T := s.heap_[0]?.map HeapEntry.timer

/-- `Timer::GetDeadline`, which is for active timers only. -/
def getDeadline (s : TimerHeap T D) (t : T) : Option D :=
  (s.heap_position_ t).bind fun i ↦ s.heap_[i]?.map HeapEntry.deadline

/-- `Timer::IsActive`. -/
def isActive (s : TimerHeap T D) (t : T) : Bool := (s.heap_position_ t).isSome

/-- Two entries change places, and their timers are told. -/
def swap (s : TimerHeap T D) (i j : ℕ) (hi : i < s.heap_.size) (hj : j < s.heap_.size) :
    TimerHeap T D where
  heap_ := s.heap_.swap i j
  heap_position_ := update (update s.heap_position_ s.heap_[j].timer i) s.heap_[i].timer j

/-- `TimerHeap::SiftUp`. -/
def siftUp (s : TimerHeap T D) (index : ℕ) (h : index < s.heap_.size) : TimerHeap T D :=
  if hpos : 0 < index then
    have hp : (index - 1) / 2 < s.heap_.size := by omega
    if s.heap_[(index - 1) / 2].deadline < s.heap_[index].deadline then s
    else (s.swap index ((index - 1) / 2) h hp).siftUp ((index - 1) / 2) (by simpa [swap] using hp)
  else s
termination_by index

/-- One turn of the loop over the children. -/
def pick (s : TimerHeap T D) (smaller : Fin s.heap_.size) (child : ℕ) : Fin s.heap_.size :=
  if h : child < s.heap_.size then
    if s.heap_[child].deadline < s.heap_[smaller].deadline then ⟨child, h⟩ else smaller
  else smaller

/-- The entry and its children: which of them has the least deadline? -/
def smaller (s : TimerHeap T D) (index : ℕ) (h : index < s.heap_.size) : Fin s.heap_.size :=
  s.pick (s.pick ⟨index, h⟩ (index * 2 + 1)) (index * 2 + 2)

omit [DecidableEq T] in
theorem pick_spec (s : TimerHeap T D) (best : Fin s.heap_.size) (child : ℕ) :
    (s.pick best child = best ∨ (s.pick best child).val = child) ∧
      s.heap_[s.pick best child].deadline ≤ s.heap_[best].deadline ∧
      ∀ h : child < s.heap_.size, s.heap_[s.pick best child].deadline ≤
        s.heap_[child].deadline := by
  by_cases h : child < s.heap_.size
  · by_cases hlt : s.heap_[child].deadline < s.heap_[best].deadline
    · have hpick : s.pick best child = ⟨child, h⟩ := by rw [pick, dif_pos h, if_pos hlt]
      simp only [hpick]
      exact ⟨.inr trivial, hlt.le, fun _ ↦ le_rfl⟩
    · have hpick : s.pick best child = best := by rw [pick, dif_pos h, if_neg hlt]
      simp only [hpick]
      exact ⟨.inl trivial, le_rfl, fun _ ↦ not_lt.mp hlt⟩
  · have hpick : s.pick best child = best := by rw [pick, dif_neg h]
    simp only [hpick]
    exact ⟨.inl trivial, le_rfl, fun h' ↦ absurd h' h⟩

/-- An entry or one of its children, with the least deadline of them. -/
structure Least (s : TimerHeap T D) (index : ℕ) (h : index < s.heap_.size)
    (m : Fin s.heap_.size) : Prop where
  place : m.val = index ∨ IsChild m.val index
  le : s.heap_[m].deadline ≤ s.heap_[index].deadline
  le_child : ∀ c (hc : c < s.heap_.size), IsChild c index →
    s.heap_[m].deadline ≤ s.heap_[c].deadline

omit [DecidableEq T] in
theorem least_smaller (s : TimerHeap T D) (index : ℕ) (h : index < s.heap_.size) :
    Least s index h (s.smaller index h) := by
  obtain ⟨hfirst, hle, hleft⟩ := s.pick_spec ⟨index, h⟩ (index * 2 + 1)
  obtain ⟨hsecond, hle', hright⟩ := s.pick_spec (s.pick ⟨index, h⟩ (index * 2 + 1)) (index * 2 + 2)
  refine ⟨?_, hle'.trans hle, fun c hc hchild ↦ ?_⟩
  · rw [smaller, IsChild, Nat.mul_comm]
    rcases hsecond with hsecond | hsecond
    · rw [Nat.mul_comm] at hsecond
      rw [hsecond]
      rcases hfirst with hfirst | hfirst
      · rw [Nat.mul_comm] at hfirst
        exact .inl (congrArg Fin.val hfirst)
      · rw [Nat.mul_comm] at hfirst
        exact .inr (.inl hfirst)
    · rw [Nat.mul_comm] at hsecond
      exact .inr (.inr hsecond)
  · rcases hchild with rfl | rfl
    · simp only [Nat.mul_comm 2] at hc ⊢
      exact hle'.trans (hleft hc)
    · simp only [Nat.mul_comm 2] at hc ⊢
      exact hright hc

omit [DecidableEq T] in
theorem lt_smaller {s : TimerHeap T D} {index : ℕ} {h : index < s.heap_.size}
    (hne : (s.smaller index h).val ≠ index) : index < (s.smaller index h).val :=
  ((s.least_smaller index h).place.resolve_left hne).lt

/-- `TimerHeap::SiftDown`. -/
def siftDown (s : TimerHeap T D) (index : ℕ) (h : index < s.heap_.size) : TimerHeap T D :=
  if hne : (s.smaller index h).val ≠ index then
    (s.swap index (s.smaller index h) h (s.smaller index h).isLt).siftDown (s.smaller index h)
      (by simp [swap])
  else s
termination_by s.heap_.size - index
decreasing_by
  have hlt := lt_smaller hne
  simp only [swap, Array.size_swap]
  omega

@[simp]
theorem size_siftUp (s : TimerHeap T D) (index : ℕ) (h : index < s.heap_.size) :
    (s.siftUp index h).heap_.size = s.heap_.size := by
  induction s, index, h using siftUp.induct with
  | case1 s index h hpos hp hlt =>
    rw [siftUp, dif_pos hpos, if_pos hlt]
  | case2 s index h hpos hp hle ih =>
    rw [siftUp, dif_pos hpos, if_neg hle, ih, swap, Array.size_swap]
  | case3 s index h hzero =>
    rw [siftUp, dif_neg hzero]

@[simp]
theorem size_siftDown (s : TimerHeap T D) (index : ℕ) (h : index < s.heap_.size) :
    (s.siftDown index h).heap_.size = s.heap_.size := by
  induction s, index, h using siftDown.induct with
  | case1 s index h hne ih =>
    rw [siftDown, dif_pos hne, ih, swap, Array.size_swap]
  | case2 s index h heq =>
    rw [siftDown, dif_neg heq]

/-- `Timer::Activate`. -/
def activate (s : TimerHeap T D) (t : T) (deadline : D) : TimerHeap T D :=
  TimerHeap.siftUp
    { heap_ := s.heap_.push ⟨deadline, t⟩
      heap_position_ := update s.heap_position_ t (some s.heap_.size) }
    s.heap_.size (by simp)

/-- The entry at the position is overwritten by the last one, which goes. -/
def replace (s : TimerHeap T D) (t : T) (position : ℕ) (h : position < s.heap_.size - 1) :
    TimerHeap T D where
  heap_ := (s.heap_.set position s.heap_[s.heap_.size - 1]).pop
  heap_position_ := update (update s.heap_position_ t none) s.heap_[s.heap_.size - 1].timer position

/-- `Timer::Deactivate`. -/
def deactivate (s : TimerHeap T D) (t : T) : TimerHeap T D :=
  match s.heap_position_ t with
  | none => s
  | some position =>
    if h : position < s.heap_.size - 1 then
      ((s.replace t position h).siftDown position (by simp [replace, h])).siftUp position
        (by simp [replace, h])
    else { heap_ := s.heap_.pop, heap_position_ := update s.heap_position_ t none }

/-! ## The entries and the positions -/

/-- The position of a timer is that of its entry. -/
structure Placed (s : TimerHeap T D) : Prop where
  position : ∀ i (hi : i < s.heap_.size), s.heap_position_ s.heap_[i].timer = some i
  entry : ∀ t i, s.heap_position_ t = some i → ∃ hi : i < s.heap_.size, s.heap_[i].timer = t

/-- What holds between two calls. -/
structure Valid (s : TimerHeap T D) : Prop extends Placed s where
  order : IsHeap HeapEntry.deadline s.heap_

section

omit [DecidableEq T] [LinearOrder D]

/-- A timer has one entry. -/
theorem Placed.unique {s : TimerHeap T D} (hs : Placed s) {i j : ℕ} (hi : i < s.heap_.size)
    (hj : j < s.heap_.size) (h : s.heap_[i].timer = s.heap_[j].timer) : i = j := by
  have hij := hs.position i hi
  rw [h, hs.position j hj, Option.some.injEq] at hij
  exact hij.symm

/-- A timer has a deadline if it has an entry. -/
theorem Placed.getDeadline_eq_some {s : TimerHeap T D} (hs : Placed s) {t : T} {d : D} :
    s.getDeadline t = some d ↔ ⟨d, t⟩ ∈ s.heap_ := by
  rw [getDeadline, Option.bind_eq_some_iff, Array.mem_iff_getElem]
  constructor
  · rintro ⟨i, hpos, hd⟩
    obtain ⟨hi, ht⟩ := hs.entry t i hpos
    rw [Array.getElem?_eq_getElem hi] at hd
    obtain rfl : s.heap_[i].deadline = d := by simpa using hd
    exact ⟨i, hi, by rw [← ht]⟩
  · rintro ⟨i, hi, heq⟩
    refine ⟨i, ?_, ?_⟩
    · rw [← hs.position i hi, heq]
    · simp [Array.getElem?_eq_getElem hi, heq]

/-- The deadlines are those of the entries, in whatever order these are. -/
theorem Placed.getDeadline_congr {s s' : TimerHeap T D} (hs : Placed s) (hs' : Placed s')
    (hperm : s'.heap_.Perm s.heap_) : s'.getDeadline = s.getDeadline := by
  funext t
  refine Option.ext fun d ↦ ?_
  rw [hs'.getDeadline_eq_some, hs.getDeadline_eq_some, hperm.mem_iff]

end

omit [LinearOrder D] in
theorem Placed.swap {s : TimerHeap T D} (hs : Placed s) {i j : ℕ} (hi : i < s.heap_.size)
    (hj : j < s.heap_.size) : Placed (s.swap i j hi hj) where
  position k hk := by
    have hk' : k < s.heap_.size := by simpa [TimerHeap.swap] using hk
    simp only [TimerHeap.swap, Array.getElem_swap]
    by_cases hki : k = i
    · subst hki
      rw [if_pos rfl]
      by_cases hjk : j = k
      · subst hjk
        rw [update_self]
      · rw [update_of_ne fun h ↦ hjk (hs.unique hj hi h), update_self]
    · rw [if_neg hki]
      by_cases hkj : k = j
      · subst hkj
        rw [if_pos rfl, update_self]
      · rw [if_neg hkj, update_of_ne fun h ↦ hki (hs.unique hk' hi h),
          update_of_ne fun h ↦ hkj (hs.unique hk' hj h)]
        exact hs.position k hk'
  entry t k h := by
    simp only [TimerHeap.swap] at h ⊢
    by_cases hti : t = s.heap_[i].timer
    · subst hti
      rw [update_self, Option.some.injEq] at h
      subst h
      exact ⟨by simpa using hj, by simp⟩
    · rw [update_of_ne hti] at h
      by_cases htj : t = s.heap_[j].timer
      · subst htj
        rw [update_self, Option.some.injEq] at h
        subst h
        exact ⟨by simpa using hi, by simp⟩
      · rw [update_of_ne htj] at h
        obtain ⟨hk, ht⟩ := hs.entry t k h
        have hki : k ≠ i := by
          rintro rfl
          exact hti ht.symm
        have hkj : k ≠ j := by
          rintro rfl
          exact htj ht.symm
        exact ⟨by simpa using hk, by simpa [hki, hkj] using ht⟩

/-! ## The sifts -/

theorem siftUp_correct (s : TimerHeap T D) (index : ℕ) (h : index < s.heap_.size) (hs : Placed s)
    (hup : HeapUp HeapEntry.deadline s.heap_ index) :
    Valid (s.siftUp index h) ∧ (s.siftUp index h).heap_.Perm s.heap_ := by
  induction s, index, h using siftUp.induct with
  | case1 s index h hpos hp hlt =>
    rw [siftUp, dif_pos hpos, if_pos hlt]
    refine ⟨⟨hs, hup.isHeap fun p _ hp' hchild ↦ ?_⟩, .refl _⟩
    obtain rfl := (Lib.isChild_iff.mp hchild).2
    exact hlt.le
  | case2 s index h hpos hp hle ih =>
    rw [siftUp, dif_pos hpos, if_neg hle]
    have hchild : IsChild index ((index - 1) / 2) := Lib.isChild_iff.mpr ⟨hpos, rfl⟩
    obtain ⟨hvalid, hperm⟩ := ih (hs.swap h hp) (hup.swap h hp hchild (not_lt.mp hle))
    exact ⟨hvalid, hperm.trans (Array.swap_perm h hp)⟩
  | case3 s index h hzero =>
    rw [siftUp, dif_neg hzero]
    refine ⟨⟨hs, hup.isHeap fun p _ _ hchild ↦ ?_⟩, .refl _⟩
    exact absurd hchild.lt (by omega)

theorem siftDown_correct (s : TimerHeap T D) (index : ℕ) (h : index < s.heap_.size) (hs : Placed s)
    (hdown : HeapDown HeapEntry.deadline s.heap_ index) :
    Valid (s.siftDown index h) ∧ (s.siftDown index h).heap_.Perm s.heap_ := by
  induction s, index, h using siftDown.induct with
  | case1 s index h hne ih =>
    rw [siftDown, dif_pos hne]
    have hleast := s.least_smaller index h
    obtain ⟨hvalid, hperm⟩ := ih (hs.swap h (s.smaller index h).isLt)
      (hdown.swap h _ (hleast.place.resolve_left hne) hleast.le hleast.le_child)
    exact ⟨hvalid, hperm.trans (Array.swap_perm h _)⟩
  | case2 s index h heq =>
    rw [siftDown, dif_neg heq]
    refine ⟨⟨hs, hdown.isHeap fun c _ hc hchild ↦ ?_⟩, .refl _⟩
    have hleast := (s.least_smaller index h).le_child c hc hchild
    simpa [not_not.mp heq] using hleast

/-- If the entry moves down, it was not less than its parent and is not to be moved up; if it does
not, it may have to be. -/
theorem siftDown_except (s : TimerHeap T D) (index : ℕ) (h : index < s.heap_.size) (hs : Placed s)
    (hexcept : HeapExcept HeapEntry.deadline s.heap_ index) :
    Placed (s.siftDown index h) ∧ HeapUp HeapEntry.deadline (s.siftDown index h).heap_ index ∧
      (s.siftDown index h).heap_.Perm s.heap_ := by
  have hleast := s.least_smaller index h
  by_cases heq : (s.smaller index h).val = index
  · have hstay : s.siftDown index h = s := by rw [siftDown, dif_neg (not_not.mpr heq)]
    rw [hstay]
    refine ⟨hs, hexcept.heapUp fun c _ hc hchild ↦ ?_, .refl _⟩
    simpa [heq] using hleast.le_child c hc hchild
  · obtain ⟨hvalid, hperm⟩ := s.siftDown_correct index h hs
      (hexcept.heapDown h _ (hleast.place.resolve_left heq) hleast.le)
    exact ⟨hvalid.toPlaced, hvalid.order.heapUp, hperm⟩

/-! ## The calls -/

omit [LinearOrder D] in
theorem Placed.push {s : TimerHeap T D} (hs : Placed s) {t : T} (ht : s.isActive t = false)
    (deadline : D) :
    Placed { heap_ := s.heap_.push ⟨deadline, t⟩
             heap_position_ := update s.heap_position_ t (some s.heap_.size) } where
  position k hk := by
    have hnone : s.heap_position_ t = none := by simpa [isActive] using ht
    by_cases hlast : k = s.heap_.size
    · subst hlast
      simp
    · have hk' : k < s.heap_.size := by
        simp only [Array.size_push] at hk
        omega
      have hne : s.heap_[k].timer ≠ t := by
        rintro rfl
        rw [hs.position k hk'] at hnone
        cases hnone
      simp only [Array.getElem_push_lt hk', update_of_ne hne]
      exact hs.position k hk'
  entry t' k h := by
    by_cases htt : t' = t
    · subst htt
      simp only [update_self, Option.some.injEq] at h
      subst h
      exact ⟨by simp, by simp⟩
    · simp only [update_of_ne htt] at h
      obtain ⟨hk, ht'⟩ := hs.entry t' k h
      exact ⟨by simpa using Nat.lt_succ_of_lt hk, by simpa [Array.getElem_push_lt hk] using ht'⟩

/-- `Activate` gives an inactive timer a deadline. -/
theorem activate_correct {s : TimerHeap T D} (hs : Valid s) {t : T} (ht : s.isActive t = false)
    (deadline : D) :
    Valid (s.activate t deadline) ∧
      (s.activate t deadline).getDeadline = update s.getDeadline t (some deadline) := by
  have hplaced := hs.toPlaced.push ht deadline
  obtain ⟨hvalid, hperm⟩ := siftUp_correct _ s.heap_.size (by simp) hplaced (hs.order.push _)
  refine ⟨hvalid, (hplaced.getDeadline_congr hvalid.toPlaced hperm).trans ?_⟩
  have hnone : s.heap_position_ t = none := by simpa [isActive] using ht
  have hnot : s.getDeadline t = none := by rw [getDeadline, hnone, Option.bind_none]
  funext t'
  refine Option.ext fun d ↦ ?_
  rw [hplaced.getDeadline_eq_some, Array.mem_push]
  by_cases htt : t' = t
  · subst htt
    rw [update_self, ← hs.getDeadline_eq_some, hnot]
    simp [eq_comm]
  · rw [update_of_ne htt, hs.getDeadline_eq_some]
    simp [htt]

section

variable {s : TimerHeap T D} {t : T} {position : ℕ}

omit [LinearOrder D] in
/-- The entries that are left are those of the other timers. -/
theorem mem_replace (hs : Placed s) (hpos : s.heap_position_ t = some position)
    (h : position < s.heap_.size - 1) {e : HeapEntry T D} :
    e ∈ (s.replace t position h).heap_ ↔ e ∈ s.heap_ ∧ e.timer ≠ t := by
  obtain ⟨hposition, ht⟩ := hs.entry t position hpos
  have hlast : s.heap_.size - 1 < s.heap_.size := by omega
  simp only [Array.mem_iff_getElem, replace]
  constructor
  · rintro ⟨k, hk, rfl⟩
    have hk' : k < s.heap_.size - 1 := by simpa using hk
    have hks : k < s.heap_.size := by omega
    rw [Array.getElem_pop]
    by_cases hkp : k = position
    · subst hkp
      rw [Array.getElem_set_self]
      refine ⟨⟨_, hlast, rfl⟩, fun heq ↦ ?_⟩
      have huniq := hs.unique hlast hposition (heq.trans ht.symm)
      omega
    · rw [Array.getElem_set_ne hposition hks (Ne.symm hkp)]
      exact ⟨⟨k, hks, rfl⟩, fun heq ↦ hkp (hs.unique hks hposition (heq.trans ht.symm))⟩
  · rintro ⟨⟨k, hk, rfl⟩, hne⟩
    have hkp : k ≠ position := by
      rintro rfl
      exact hne ht
    by_cases hkl : k = s.heap_.size - 1
    · subst hkl
      refine ⟨position, by simpa using h, ?_⟩
      rw [Array.getElem_pop, Array.getElem_set_self]
    · refine ⟨k, by simp only [Array.size_pop, Array.size_set]; omega, ?_⟩
      rw [Array.getElem_pop, Array.getElem_set_ne _ _ (Ne.symm hkp)]

omit [LinearOrder D] in
theorem Placed.replace (hs : Placed s) (hpos : s.heap_position_ t = some position)
    (h : position < s.heap_.size - 1) : Placed (s.replace t position h) where
  position k hk := by
    obtain ⟨hposition, ht⟩ := hs.entry t position hpos
    have hlast : s.heap_.size - 1 < s.heap_.size := by omega
    have hk' : k < s.heap_.size - 1 := by simpa [TimerHeap.replace] using hk
    have hks : k < s.heap_.size := by omega
    simp only [TimerHeap.replace, Array.getElem_pop]
    by_cases hkp : k = position
    · subst hkp
      rw [Array.getElem_set_self, update_self]
    · have hne : s.heap_[k].timer ≠ s.heap_[s.heap_.size - 1].timer := by
        intro heq
        have huniq := hs.unique hks hlast heq
        omega
      have hne' : s.heap_[k].timer ≠ t := fun heq ↦
        hkp (hs.unique hks hposition (heq.trans ht.symm))
      rw [Array.getElem_set_ne hposition hks (Ne.symm hkp), update_of_ne hne, update_of_ne hne']
      exact hs.position k hks
  entry t' k hk := by
    obtain ⟨hposition, ht⟩ := hs.entry t position hpos
    simp only [TimerHeap.replace] at hk ⊢
    by_cases hlast : t' = s.heap_[s.heap_.size - 1].timer
    · subst hlast
      rw [update_self, Option.some.injEq] at hk
      subst hk
      exact ⟨by simpa using h, by rw [Array.getElem_pop, Array.getElem_set_self]⟩
    · rw [update_of_ne hlast] at hk
      have htt : t' ≠ t := by
        rintro rfl
        rw [update_self] at hk
        cases hk
      rw [update_of_ne htt] at hk
      obtain ⟨hk', ht'⟩ := hs.entry t' k hk
      have hkl : k ≠ s.heap_.size - 1 := by
        rintro rfl
        exact hlast ht'.symm
      have hkp : k ≠ position := by
        rintro rfl
        exact htt (ht'.symm.trans ht)
      refine ⟨by simp only [Array.size_pop, Array.size_set]; omega, ?_⟩
      rw [Array.getElem_pop, Array.getElem_set_ne _ _ (Ne.symm hkp)]
      exact ht'

omit [LinearOrder D] in
/-- The last entry goes. -/
theorem Placed.pop (hs : Placed s) (hpos : s.heap_position_ t = some position)
    (h : ¬ position < s.heap_.size - 1) :
    Placed { heap_ := s.heap_.pop, heap_position_ := update s.heap_position_ t none } where
  position k hk := by
    obtain ⟨hposition, ht⟩ := hs.entry t position hpos
    have hk' : k < s.heap_.size - 1 := by simpa using hk
    have hne : s.heap_[k].timer ≠ t := by
      intro heq
      have huniq := hs.unique (by omega) hposition (heq.trans ht.symm)
      omega
    simp only [Array.getElem_pop, update_of_ne hne]
    exact hs.position k (by omega)
  entry t' k hk := by
    obtain ⟨hposition, ht⟩ := hs.entry t position hpos
    simp only at hk ⊢
    have htt : t' ≠ t := by
      rintro rfl
      rw [update_self] at hk
      cases hk
    rw [update_of_ne htt] at hk
    obtain ⟨hk', ht'⟩ := hs.entry t' k hk
    have hkp : k ≠ position := by
      rintro rfl
      exact htt (ht'.symm.trans ht)
    refine ⟨by simp only [Array.size_pop]; omega, ?_⟩
    rw [Array.getElem_pop]
    exact ht'

omit [DecidableEq T] [LinearOrder D] in
theorem mem_pop (hs : Placed s) (hpos : s.heap_position_ t = some position)
    (h : ¬ position < s.heap_.size - 1) {e : HeapEntry T D} :
    e ∈ s.heap_.pop ↔ e ∈ s.heap_ ∧ e.timer ≠ t := by
  obtain ⟨hposition, ht⟩ := hs.entry t position hpos
  simp only [Array.mem_iff_getElem]
  constructor
  · rintro ⟨k, hk, rfl⟩
    have hk' : k < s.heap_.size - 1 := by simpa using hk
    rw [Array.getElem_pop]
    refine ⟨⟨k, by omega, rfl⟩, fun heq ↦ ?_⟩
    have huniq := hs.unique (by omega) hposition (heq.trans ht.symm)
    omega
  · rintro ⟨⟨k, hk, rfl⟩, hne⟩
    have hkp : k ≠ position := by
      rintro rfl
      exact hne ht
    refine ⟨k, by simp only [Array.size_pop]; omega, ?_⟩
    rw [Array.getElem_pop]

/-- `Deactivate` takes the deadline of the timer away, whatever the shape of the heap. -/
theorem deactivate_correct (hs : Valid s) (t : T) :
    Valid (s.deactivate t) ∧ (s.deactivate t).getDeadline = update s.getDeadline t none := by
  have hforget {s' : TimerHeap T D} (hs' : Placed s')
      (hmem : ∀ e, e ∈ s'.heap_ ↔ e ∈ s.heap_ ∧ e.timer ≠ t) :
      s'.getDeadline = update s.getDeadline t none := by
    funext t'
    refine Option.ext fun d ↦ ?_
    rw [hs'.getDeadline_eq_some, hmem]
    by_cases htt : t' = t
    · subst htt
      simp
    · rw [update_of_ne htt, hs.getDeadline_eq_some]
      simp [htt]
  rw [deactivate]
  split
  · rename_i hnone
    refine ⟨hs, ?_⟩
    have hnot : s.getDeadline t = none := by rw [getDeadline, hnone, Option.bind_none]
    rw [← hnot, Function.update_eq_self]
  · rename_i position hpos
    split
    · rename_i h
      have hplaced := hs.toPlaced.replace hpos h
      have hlt : position < (s.replace t position h).heap_.size := by
        simpa [TimerHeap.replace] using h
      have hexcept := (hs.order.set (by omega) s.heap_[s.heap_.size - 1]).pop (i := position)
      obtain ⟨hdown, hup, hperm⟩ :=
        (s.replace t position h).siftDown_except position hlt hplaced hexcept
      obtain ⟨hvalid, hperm'⟩ := siftUp_correct _ position (by simpa using hlt) hdown hup
      refine ⟨hvalid, hforget hvalid.toPlaced fun e ↦ ?_⟩
      rw [hperm'.mem_iff, hperm.mem_iff, mem_replace hs.toPlaced hpos h]
    · rename_i h
      have hplaced := hs.toPlaced.pop hpos h
      exact ⟨⟨hplaced, hs.order.pop⟩, hforget hplaced fun e ↦ mem_pop hs.toPlaced hpos h⟩

end

/-- One entry goes. -/
theorem size_deactivate {s : TimerHeap T D} (hs : Placed s) {t : T} (ht : s.isActive t = true) :
    (s.deactivate t).heap_.size < s.heap_.size := by
  obtain ⟨position, hpos⟩ := Option.isSome_iff_exists.mp ht
  obtain ⟨hposition, -⟩ := hs.entry t position hpos
  simp only [deactivate, hpos]
  split
  · simp only [size_siftUp, size_siftDown, TimerHeap.replace, Array.size_pop, Array.size_set]
    omega
  · simp only [Array.size_pop]
    omega

omit [DecidableEq T] [LinearOrder D] in
theorem Placed.isActive_eq {s : TimerHeap T D} (hs : Placed s) (t : T) :
    s.isActive t = (s.getDeadline t).isSome := by
  rw [isActive, getDeadline]
  cases hpos : s.heap_position_ t with
  | none => rfl
  | some i =>
    obtain ⟨hi, -⟩ := hs.entry t i hpos
    simp [hi]

omit [DecidableEq T] in
/-- `GetMin` finds the least deadline, if there is one. -/
theorem getMin_correct {s : TimerHeap T D} (hs : Valid s) :
    (s.getMin = none ∧ ∀ t, s.getDeadline t = none) ∨
      ∃ t d, s.getMin = some t ∧ s.getDeadline t = some d ∧
        ∀ t' d', s.getDeadline t' = some d' → d ≤ d' := by
  rcases Nat.eq_zero_or_pos s.heap_.size with hzero | hpos
  · refine .inl ⟨by simp [getMin, hzero], fun t ↦ ?_⟩
    rw [Option.eq_none_iff_forall_ne_some]
    intro d hd
    rw [hs.getDeadline_eq_some, Array.eq_empty_of_size_eq_zero hzero] at hd
    simp at hd
  · refine .inr ⟨s.heap_[0].timer, s.heap_[0].deadline, by simp [getMin, hpos], ?_,
      fun t' d' hd' ↦ ?_⟩
    · rw [hs.getDeadline_eq_some]
      exact Array.getElem_mem hpos
    · rw [hs.getDeadline_eq_some] at hd'
      exact hs.order.root_le_of_mem hpos hd'

end TimerHeap
end Cactus
end ManyTasks
