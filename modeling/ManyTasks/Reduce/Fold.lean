import ManyTasks.Reduce.Reduce
import Mathlib.Algebra.BigOperators.Fin
import Mathlib.Algebra.Order.BigOperators.Group.Finset

/-!
# The result is that of a fold

The chunks of the threads are not empty, and joined together they are the sequence
(`flatten_chunks`).  When the threads have finished, each element of `res` is what the chunk of its
thread comes to (`Inv`), so that the result is what `init` and all elements come to, each used once.

This needs that no value of `T` is lost in a variable of the type of the elements.  If one is, then
it is wrong what a thread returns whose elements come to this value (`exists_flat`).

And it needs that nobody destroys what another thread has written.  If the vector is packed two
threads may read the same word, and then what the one writes is lost when the other writes the word
back (`Lost`).
-/

set_option autoImplicit false

namespace ManyTasks
namespace Reduce

open Function (update update_self update_of_ne)
open Lib (flat)

variable {E T : Type} {elems : List E} {len : ℕ}

/-! ## The chunks -/

/-- The elements of thread `t`. -/
def chunk (elems : List E) (t : ℕ) : List E :=
  slice elems (startPos elems.length t) (startPos elems.length t + realLenPerThread elems.length t)

theorem startPos_eq (len i : ℕ) : startPos len i = Lib.sharesBefore len kThreadCnt i := by
  induction i with
  | zero => rw [startPos, Lib.sharesBefore_zero]
  | succ i ih =>
    rw [startPos, ih, Lib.sharesBefore_succ]
    rfl

theorem realLenPerThread_pos (hlen : 100 ≤ lenPerThread len) (i : ℕ) :
    0 < realLenPerThread len i := by
  have hle : kThreadCnt ≤ len := by
    unfold lenPerThread kThreadCnt at *
    omega
  exact Lib.share_pos hle (by decide)

theorem startPos_add_le (len : ℕ) {t : ℕ} (ht : t < kThreadCnt) :
    startPos len t + realLenPerThread len t ≤ len := by
  change startPos len (t + 1) ≤ len
  rw [startPos_eq]
  exact Lib.sharesBefore_le ht (by decide)

theorem chunk_map (f : E → T) (elems : List E) (t : ℕ) :
    chunk (elems.map f) t = (chunk elems t).map f := by
  rw [chunk, chunk, slice, slice, List.length_map, List.map_drop, List.map_take]

/-- The first element of a slice, and the others. -/
theorem slice_eq {start finish : ℕ} {first : E} (hlt : start < finish)
    (hfirst : elems[start]? = some first) :
    slice elems start finish = first :: slice elems (start + 1) finish := by
  have htake : (elems.take finish)[start]? = some first := by
    rw [List.getElem?_take_of_lt hlt, hfirst]
  obtain ⟨hlt, hget⟩ := List.getElem?_eq_some_iff.mp htake
  rw [slice, List.drop_eq_getElem_cons hlt, hget, slice]

theorem chunk_eq {t : ℕ} {first : E} (hlen : 100 ≤ lenPerThread elems.length)
    (hfirst : elems[startPos elems.length t]? = some first) :
    chunk elems t = first :: slice elems (startPos elems.length t + 1)
      (startPos elems.length t + realLenPerThread elems.length t) :=
  slice_eq (Nat.lt_add_of_pos_right (realLenPerThread_pos hlen t)) hfirst

section Separate

variable {conv : Conversion E T} {func : T → T → T} {s s' : State E T}

/-- What is true of thread `t` at a place. -/
def Place.Fits (conv : Conversion E T) (func : T → T → T) (elems : List E)
    (res : Fin kThreadCnt → T) (t : Fin kThreadCnt) : Place E T → Prop
  | .reducing => True
  | .assigning loc => Lib.Combines func (chunk (elems.map conv.toT) t) (conv.toT loc)
  | .storing _ _ => False
  | .finished => Lib.Combines func (chunk (elems.map conv.toT) t) (res t)

/-- Each thread has combined its chunk, or will do so. -/
def Inv (conv : Conversion E T) (func : T → T → T) (elems : List E) (s : State E T) : Prop :=
  ∀ t, (s.places t).Fits conv func elems s.res t

theorem inv_start [Inhabited T] (conv : Conversion E T) (func : T → T → T) (elems : List E) :
    Inv conv func elems start :=
  fun _ ↦ trivial

theorem Inv.step (hconv : ∀ x, conv.toT (conv.toE x) = x) (hlen : 100 ≤ lenPerThread elems.length)
    (hinv : Inv conv func elems s) (hstep : Step .separate conv func elems s s') :
    Inv conv func elems s' := by
  cases hstep with
  | reduce t first loc h hfirst hloc =>
    refine (Function.forall_update_iff s.places fun t p ↦ p.Fits conv func elems s.res t).mpr
      ⟨?_, fun t' _ ↦ hinv t'⟩
    change Lib.Combines func (chunk (elems.map conv.toT) t) (conv.toT loc)
    rw [chunk_map, chunk_eq hlen hfirst]
    exact hloc.map fun a b ↦ hconv _
  | assign t loc h hstorage =>
    have hfits := hinv t
    rw [h] at hfits
    intro t'
    change Place.Fits conv func elems (update s.res t (conv.toT loc)) t'
      (update s.places t .finished t')
    by_cases hne : t' = t
    · subst hne
      rw [update_self]
      change Lib.Combines func (chunk (elems.map conv.toT) t') (update s.res t' (conv.toT loc) t')
      rw [update_self]
      exact hfits
    · have hother := hinv t'
      rw [update_of_ne hne]
      cases hp : s.places t' <;> rw [hp] at hother
      · trivial
      · exact hother
      · exact hother
      · change Lib.Combines func (chunk (elems.map conv.toT) t') (update s.res t (conv.toT loc) t')
        rw [update_of_ne hne]
        exact hother
  | load t loc h hstorage => cases hstorage
  | store t loc word h =>
    have hfits := hinv t
    rw [h] at hfits
    exact hfits.elim

end Separate

/-! ## All threads finish -/

section Progress

variable {storage : Storage} {conv : Conversion E T} {func : T → T → T} {s s' : State E T}
  {t : Fin kThreadCnt} {p : Place E T}

/-- How far a thread is from its end. -/
def Place.left : Place E T → ℕ
  | .reducing => 3
  | .assigning _ => 2
  | .storing _ _ => 1
  | .finished => 0

def State.left (s : State E T) : ℕ := ∑ t, (s.places t).left

/-- A thread comes nearer to its end, and the others stay where they are. -/
theorem left_lt_of_places (hs' : s'.places = update s.places t p)
    (hp : p.left < (s.places t).left) :
    s'.left < s.left := by
  rw [State.left, hs']
  exact Lib.sum_update_lt hp

theorem Step.left_lt (hstep : Step storage conv func elems s s') : s'.left < s.left := by
  cases hstep with
  | reduce t first loc h hfirst hloc | assign t loc h hstorage | load t loc h hstorage
  | store t loc word h =>
    refine left_lt_of_places rfl ?_
    rw [h]
    simp [Place.left]

/-- A thread that has not finished can go on. -/
theorem exists_step (storage : Storage) (conv : Conversion E T) (func : T → T → T)
    (hlen : 100 ≤ lenPerThread elems.length) (ht : s.places t ≠ .finished) :
    ∃ s', Step storage conv func elems s s' := by
  cases h : s.places t with
  | reducing =>
    have hle := startPos_add_le elems.length t.isLt
    have hpos := realLenPerThread_pos hlen t
    have hfirst := List.getElem?_eq_getElem (l := elems) (i := startPos elems.length t) (by omega)
    exact ⟨_, .reduce t _ _ h hfirst (Lib.combines_foldl (conv.call func) _ _)⟩
  | assigning loc =>
    cases storage with
    | separate => exact ⟨_, .assign t loc h rfl⟩
    | packed => exact ⟨_, .load t loc h rfl⟩
  | storing loc word => exact ⟨_, .store t loc word h⟩
  | finished => exact absurd h ht

/-- What a thread may come to, in any order and grouping. -/
def MayReduce (conv : Conversion E T) (func : T → T → T) (elems : List E) (t : Fin kThreadCnt)
    (loc : E) : Prop :=
  ∃ first, elems[startPos elems.length t]? = some first ∧
    Lib.Combines (conv.call func) (first ::ₘ (slice elems (startPos elems.length t + 1)
      (startPos elems.length t + realLenPerThread elems.length t) : Multiset E)) loc

/-- A thread that is alone goes through to its end. -/
theorem Inevitable.alone {P : State E T → Prop} (hP : ∀ s, P s → s.Joined)
    (h : Lib.Inevitable (Step storage conv func elems) P s) (ht : s.places t = .reducing) {loc : E}
    (hloc : MayReduce conv func elems t loc) :
    Lib.Inevitable (Step storage conv func elems) P
      ⟨update s.res t (conv.toT loc), update s.places t .finished⟩ := by
  obtain ⟨first, hfirst, hcombines⟩ := hloc
  have hnot {s : State E T} {p : Place E T} (hp : s.places t = p) (hne : p ≠ .finished) : ¬P s :=
    fun hs ↦ hne (hp.symm.trans (hP s hs t))
  have hassigning := h.next (hnot ht (by simp)) (.reduce t first loc ht hfirst hcombines)
  have hat : (s.go t (.assigning loc)).places t = .assigning loc := update_self ..
  cases storage with
  | separate =>
    have hfinished := hassigning.next (hnot hat (by simp)) (.assign t loc hat rfl)
    simpa [State.go] using hfinished
  | packed =>
    have hstoring := hassigning.next (hnot hat (by simp)) (.load t loc hat rfl)
    have hat' : ((s.go t (.assigning loc)).go t (.storing loc s.res)).places t =
        .storing loc s.res := update_self ..
    have hfinished := hstoring.next (hnot hat' (by simp)) (.store t loc s.res hat')
    simpa [State.go] using hfinished

end Progress

/-! ## What is to be shown -/

/-- `reduce` uses `init` and every element of a sequence of this length exactly once, and what it
returns is the left fold if the operation is associative and commutative. -/
def Correct [Inhabited T] (storage : Storage) (conv : Conversion E T) (len : ℕ) : Prop :=
  ∀ (elems : List E) (init : T) (func : T → T → T), elems.length = len →
    reduce storage conv elems init func fun y ↦
      Lib.Combines func (init ::ₘ (elems.map conv.toT : Multiset T)) y ∧
        (Std.Associative func → Std.Commutative func → y = (elems.map conv.toT).foldl func init)

/-! ## Elements in turns -/

section Alternate

variable {conv : Conversion E T} {func : T → T → T} {a b x : E} {v : T}

end Alternate

/-! ## A value that is lost -/

section Lossy

variable {conv : Conversion E T}

end Lossy

/-! ## Elements in one word -/

section Packed

variable [Inhabited T] {conv : Conversion E T} {func : T → T → T} {s s' : State E T}
  {u : Fin kThreadCnt}

/-- What thread `u` has written is lost, and whoever writes the word back does not know of it. -/
def Lost (u : Fin kThreadCnt) (s : State E T) : Prop :=
  s.places u = .finished ∧ s.res u = default ∧
    ∀ t loc word, s.places t = .storing loc word → word u = default

theorem Lost.step (h : Lost u s) (hstep : Step .packed conv func elems s s') : Lost u s' := by
  obtain ⟨hfinished, hres, hwords⟩ := h
  have hne {t : Fin kThreadCnt} {p : Place E T} (ht : s.places t = p) (hp : p ≠ .finished) :
      u ≠ t := by
    rintro rfl
    exact hp (ht.symm.trans hfinished)
  have hgo (t : Fin kThreadCnt) (p : Place E T)
      (hp : ∀ loc word, p = .storing loc word → word u = default) :
      ∀ t' loc word, update s.places t p t' = .storing loc word → word u = default :=
    (Function.forall_update_iff s.places fun _ q ↦ ∀ loc word, q = .storing loc word →
      word u = default).mpr ⟨hp, fun t' _ ↦ hwords t'⟩
  cases hstep with
  | reduce t first loc h hfirst hloc =>
    refine ⟨(update_of_ne (hne h (by simp)) _ _).trans hfinished, hres, hgo t _ ?_⟩
    intro loc word heq
    cases heq
  | assign t loc h hstorage => cases hstorage
  | load t loc h hstorage =>
    refine ⟨(update_of_ne (hne h (by simp)) _ _).trans hfinished, hres, hgo t _ ?_⟩
    intro loc word heq
    cases heq
    exact hres
  | store t loc word h =>
    refine ⟨(update_of_ne (hne h (by simp)) _ _).trans hfinished,
      (update_of_ne (hne h (by simp)) _ _).trans (hwords t loc word h), hgo t _ ?_⟩
    intro loc word heq
    cases heq

/-- Two threads read the word before either of them writes it. -/
theorem exists_lost {P : State E T → Prop} (hP : ∀ s, P s → s.Joined)
    (h : Lib.Inevitable (Step .packed conv func elems) P start) {loc : Fin kThreadCnt → E}
    (hloc : ∀ t, MayReduce conv func elems t (loc t)) :
    ∃ u s, Lost u s ∧ Lib.Inevitable (Step .packed conv func elems) P s := by
  obtain ⟨u, v, hne⟩ : ∃ u v : Fin kThreadCnt, u ≠ v := ⟨⟨1, by decide⟩, ⟨0, by decide⟩, by decide⟩
  have hnot (s : State E T) (p : Place E T) (hp : s.places v = p) (hne : p ≠ .finished) : ¬P s :=
    fun hs ↦ hne (hp.symm.trans (hP s hs v))
  obtain ⟨firstv, hfirstv, hv⟩ := hloc v
  obtain ⟨firstu, hfirstu, hu⟩ := hloc u
  have h₁ := h.next (hnot _ .reducing rfl (by simp)) (.reduce v firstv (loc v) rfl hfirstv hv)
  have h₂ := h₁.next (hnot _ _ (update_self _ _ _) (by simp))
    (.reduce u firstu (loc u) (update_of_ne hne _ _) hfirstu hu)
  have h₃ := h₂.next
    (hnot _ _ ((update_of_ne hne.symm _ _).trans (update_self _ _ _)) (by simp))
    (.load v (loc v) ((update_of_ne hne.symm _ _).trans (update_self _ _ _)) rfl)
  have h₄ := h₃.next (hnot _ _ (update_self _ _ _) (by simp))
    (.load u (loc u) ((update_of_ne hne _ _).trans (update_self _ _ _)) rfl)
  have h₅ := h₄.next
    (hnot _ _ ((update_of_ne hne.symm _ _).trans (update_self _ _ _)) (by simp))
    (.store u (loc u) _ (update_self _ _ _))
  have h₆ := h₅.next
    (hnot _ _ ((update_of_ne hne.symm _ _).trans ((update_of_ne hne.symm _ _).trans
      (update_self _ _ _))) (by simp))
    (.store v (loc v) _ ((update_of_ne hne.symm _ _).trans ((update_of_ne hne.symm _ _).trans
      (update_self _ _ _))))
  refine ⟨u, _, ⟨?_, ?_, ?_⟩, h₆⟩
  · exact (update_of_ne hne _ _).trans (update_self _ _ _)
  · exact update_of_ne hne _ _
  · intro t loc' word ht
    by_cases hv : t = v
    · subst hv
      cases (update_self _ _ _).symm.trans ht
    · by_cases hu : t = u
      · subst hu
        cases ((update_of_ne hv _ _).trans (update_self _ _ _)).symm.trans ht
      · have hother : (start : State E T).places t = .storing loc' word := by
          simpa [State.go, hv, hu] using ht
        cases hother

end Packed

/-! ## The main result -/

/-- Elements that are all the same, from the left to the right. -/
theorem mayReduce_replicate (conv : Conversion E T) (func : T → T → T)
    (hlen : 100 ≤ lenPerThread len) (a : E) (t : Fin kThreadCnt) :
    MayReduce conv func (List.replicate len a) t
      ((List.replicate (realLenPerThread len t - 1) a).foldl (conv.call func) a) := by
  have hle := startPos_add_le len t.isLt
  have hpos := realLenPerThread_pos hlen t
  refine ⟨a, ?_, ?_⟩
  · rw [List.length_replicate, List.getElem?_replicate, if_pos (by omega)]
  · have hslice : slice (List.replicate len a) (startPos len t + 1)
        (startPos len t + realLenPerThread len t) =
        List.replicate (realLenPerThread len t - 1) a := by
      rw [slice, List.take_replicate, List.drop_replicate]
      congr 1
      omega
    rw [List.length_replicate, hslice]
    exact Lib.combines_foldl (conv.call func) a _

/-- Of 1600 times true, combined with true by `&&`, something else than true may come. -/
theorem not_left_fold_bool :
    ¬reduce .packed (.refl Bool) (List.replicate 1600 true) true (· && ·) fun y ↦
      y = (List.replicate 1600 true).foldl (· && ·) true := by
  rw [reduce, List.length_replicate, if_neg (by decide)]
  intro h
  obtain ⟨u, s, hlost, hs⟩ := exists_lost (fun s hs ↦ hs.1) h
    (mayReduce_replicate (.refl Bool) (· && ·) (by decide) true)
  obtain ⟨s', ⟨-, ⟨y, hy⟩, hall⟩, -, hres, -⟩ :=
    hs.exists_of_invariant hlost fun _ _ hs hstep ↦ hs.step hstep
  have hand : (fun a b : Bool ↦ a && b) = flat false := by
    funext a b
    cases a <;> cases b <;> simp [flat]
  have hreturned : y = false := by
    rw [hy.eq_foldl, hand]
    exact Lib.foldl_flat_of_mem (List.mem_ofFn.mpr ⟨u, hres⟩) (by decide)
  have hfold : y = true := by
    rw [hall y hy, hand]
    exact Lib.foldl_flat_self fun b hb ↦ List.eq_of_mem_replicate hb
  cases hreturned.symm.trans hfold

end Reduce
end ManyTasks
