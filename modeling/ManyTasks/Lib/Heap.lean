import Mathlib.Data.Multiset.Basic
import Mathlib.Data.Nat.Init
import Mathlib.Order.Lattice

/-!
# Binary heaps

An array is read as a tree, with the children of `i` at `2 * i + 1` and `2 * i + 2`, and is a heap
if no entry has a key greater than those of its children (`IsHeap`).  Then the first entry has the
least key.

What keeps a heap up is the exchange of an entry with its parent or with one of its children.  In
between, the order is broken at one position only:

* `HeapExcept a i`: nothing is known of the entry at `i`;
* `HeapUp a i`: it may be less than its parent;
* `HeapDown a i`: it may be greater than its children.

In all of them the parent of `i` is not greater than the children of `i`.  `HeapUp.swap` and
`HeapDown.swap` say how an exchange moves the position, whatever loop makes it.
-/

set_option autoImplicit false

namespace ManyTasks
namespace Lib

variable {E K : Type} [LinearOrder K] {key : E → K} {a : Array E} {i c p : ℕ}

/-- `c` is a child of `p`. -/
def IsChild (c p : ℕ) : Prop := c = 2 * p + 1 ∨ c = 2 * p + 2

theorem isChild_iff : IsChild c p ↔ 0 < c ∧ p = (c - 1) / 2 := by
  rw [IsChild]
  omega

theorem IsChild.lt (h : IsChild c p) : p < c := by
  rcases h with rfl | rfl <;> omega

theorem IsChild.unique {p' : ℕ} (h : IsChild c p) (h' : IsChild c p') : p = p' := by
  rw [isChild_iff] at h h'
  omega

/-- The entries are in order, except for those pairs that `skip` names. -/
def HeapOrder (skip : ℕ → ℕ → Prop) (key : E → K) (a : Array E) : Prop :=
  ∀ c p (hc : c < a.size) (hp : p < a.size), IsChild c p → ¬ skip c p → key a[p] ≤ key a[c]

/-- No entry is greater than its children. -/
def IsHeap (key : E → K) (a : Array E) : Prop := HeapOrder (fun _ _ ↦ False) key a

/-- The parent of `i` is not greater than the children of `i`. -/
def Bridged (key : E → K) (a : Array E) (i : ℕ) : Prop :=
  ∀ c p (hc : c < a.size) (hp : p < a.size), IsChild c i → IsChild i p → key a[p] ≤ key a[c]

/-- A heap, except that nothing is known of the entry at `i`. -/
structure HeapExcept (key : E → K) (a : Array E) (i : ℕ) : Prop where
  order : HeapOrder (fun c p ↦ c = i ∨ p = i) key a
  bridged : Bridged key a i

/-- A heap, except that the entry at `i` may be less than its parent. -/
structure HeapUp (key : E → K) (a : Array E) (i : ℕ) : Prop where
  order : HeapOrder (fun c _ ↦ c = i) key a
  bridged : Bridged key a i

/-- A heap, except that the entry at `i` may be greater than its children. -/
structure HeapDown (key : E → K) (a : Array E) (i : ℕ) : Prop where
  order : HeapOrder (fun _ p ↦ p = i) key a
  bridged : Bridged key a i

/-! ## The first entry -/

theorem IsHeap.root_le (h : IsHeap key a) (hzero : 0 < a.size) (hi : i < a.size) :
    key a[0] ≤ key a[i] := by
  induction i using Nat.strong_induction_on with
  | _ i ih =>
    rcases Nat.eq_zero_or_pos i with rfl | hpos
    · exact le_rfl
    · have hchild : IsChild i ((i - 1) / 2) := isChild_iff.mpr ⟨hpos, rfl⟩
      have hp : (i - 1) / 2 < a.size := hchild.lt.trans hi
      exact (ih _ hchild.lt hp).trans (h i _ hi hp hchild (by simp))

/-- The first entry has the least key. -/
theorem IsHeap.root_le_of_mem (h : IsHeap key a) (hzero : 0 < a.size) {e : E} (he : e ∈ a) :
    key a[0] ≤ key e := by
  obtain ⟨i, hi, rfl⟩ := Array.mem_iff_getElem.mp he
  exact h.root_le hzero hi

theorem isHeap_of_size_le_one (h : a.size ≤ 1) : IsHeap key a := by
  intro c p hc _ hchild _
  have hlt := hchild.lt
  omega

/-! ## Broken at one position -/

theorem IsHeap.bridged (h : IsHeap key a) : Bridged key a i := by
  intro c p hc hp hci hip
  have hi : i < a.size := hci.lt.trans hc
  exact (h i p hi hp hip (by simp)).trans (h c i hc hi hci (by simp))

theorem IsHeap.heapUp (h : IsHeap key a) : HeapUp key a i :=
  ⟨fun c p hc hp hchild _ ↦ h c p hc hp hchild (by simp), h.bridged⟩

/-- A new last entry. -/
theorem IsHeap.push (h : IsHeap key a) (e : E) : HeapUp key (a.push e) a.size where
  order c p hc hp hchild hne := by
    have hc' : c < a.size := by
      rw [Array.size_push] at hc
      omega
    have hp' : p < a.size := hchild.lt.trans hc'
    rw [Array.getElem_push_lt hc', Array.getElem_push_lt hp']
    exact h c p hc' hp' hchild (by simp)
  bridged c p hc hp hci hip := by
    have hlt := hci.lt
    rw [Array.size_push] at hc
    omega

/-- The last entry goes. -/
theorem HeapOrder.pop {skip : ℕ → ℕ → Prop} (h : HeapOrder skip key a) :
    HeapOrder skip key a.pop := by
  intro c p hc hp hchild hskip
  rw [Array.size_pop] at hc hp
  rw [Array.getElem_pop, Array.getElem_pop]
  exact h c p (by omega) (by omega) hchild hskip

theorem HeapExcept.pop (h : HeapExcept key a i) : HeapExcept key a.pop i where
  order := h.order.pop
  bridged c p hc hp hci hip := by
    rw [Array.size_pop] at hc hp
    rw [Array.getElem_pop, Array.getElem_pop]
    exact h.bridged c p (by omega) (by omega) hci hip

/-- An entry is replaced. -/
theorem IsHeap.set (h : IsHeap key a) (hi : i < a.size) (e : E) : HeapExcept key (a.set i e) i where
  order c p hc hp hchild hne := by
    rw [not_or] at hne
    rw [Array.size_set] at hc hp
    rw [Array.getElem_set_ne hi hp (Ne.symm hne.2), Array.getElem_set_ne hi hc (Ne.symm hne.1)]
    exact h c p hc hp hchild (by simp)
  bridged c p hc hp hci hip := by
    rw [Array.size_set] at hc hp
    rw [Array.getElem_set_ne hi hp hip.lt.ne', Array.getElem_set_ne hi hc hci.lt.ne]
    exact h.bridged c p hc hp hci hip

/-! ## Upwards -/

/-- An entry that is not less than its parent is in order. -/
theorem HeapUp.isHeap (h : HeapUp key a i)
    (hstop : ∀ p (hi : i < a.size) (hp : p < a.size), IsChild i p → key a[p] ≤ key a[i]) :
    IsHeap key a := by
  intro c p hc hp hchild _
  by_cases hci : c = i
  · subst hci
    exact hstop p hc hp hchild
  · exact h.order c p hc hp hchild hci

/-- An entry that is not greater than its parent changes places with it. -/
theorem HeapUp.swap (h : HeapUp key a i) (hi : i < a.size) (hp : p < a.size) (hchild : IsChild i p)
    (hle : key a[i] ≤ key a[p]) : HeapUp key (a.swap i p) p where
  order c q hc hq hcq hne := by
    have hc' : c < a.size := by simpa using hc
    have hq' : q < a.size := by simpa using hq
    have hpi : p ≠ i := hchild.lt.ne
    by_cases hci : c = i
    · subst hci
      obtain rfl := hcq.unique hchild
      simpa using hle
    · by_cases hqi : q = i
      · subst hqi
        simpa [hci, hne] using h.bridged c p hc' hp hcq hchild
      · have hold := h.order c q hc' hq' hcq hci
        by_cases hqp : q = p
        · subst hqp
          simpa [hci, hne] using hle.trans hold
        · simpa [hci, hne, hqi, hqp] using hold
  bridged c q hc hq hcp hpq := by
    have hc' : c < a.size := by simpa using hc
    have hq' : q < a.size := by simpa using hq
    have hpi : p ≠ i := hchild.lt.ne
    have hqi : q ≠ i := (hpq.lt.trans hchild.lt).ne
    have hqp : q ≠ p := hpq.lt.ne
    have hcp' : c ≠ p := hcp.lt.ne'
    have hup := h.order p q hp hq' hpq hpi
    by_cases hci : c = i
    · subst hci
      simpa [hqi, hqp] using hup
    · simpa [hci, hcp', hqi, hqp] using hup.trans (h.order c p hc' hp hcp hci)

/-! ## Downwards -/

/-- An entry that is not greater than its children may be less than its parent. -/
theorem HeapExcept.heapUp (h : HeapExcept key a i)
    (hstop : ∀ c (hi : i < a.size) (hc : c < a.size), IsChild c i → key a[i] ≤ key a[c]) :
    HeapUp key a i where
  order c p hc hp hchild hne := by
    by_cases hpi : p = i
    · subst hpi
      exact hstop c hp hc hchild
    · exact h.order c p hc hp hchild (not_or.mpr ⟨hne, hpi⟩)
  bridged := h.bridged

/-- An entry that is greater than one of its children is not less than its parent. -/
theorem HeapExcept.heapDown (h : HeapExcept key a i) (hi : i < a.size) (hc : c < a.size)
    (hchild : IsChild c i) (hle : key a[c] ≤ key a[i]) : HeapDown key a i where
  order d p hd hp hdp hne := by
    by_cases hdi : d = i
    · subst hdi
      exact (h.bridged c p hc hp hchild hdp).trans hle
    · exact h.order d p hd hp hdp (not_or.mpr ⟨hdi, hne⟩)
  bridged := h.bridged

theorem HeapDown.isHeap (h : HeapDown key a i)
    (hstop : ∀ c (hi : i < a.size) (hc : c < a.size), IsChild c i → key a[i] ≤ key a[c]) :
    IsHeap key a := by
  intro c p hc hp hchild _
  by_cases hpi : p = i
  · subst hpi
    exact hstop c hp hc hchild
  · exact h.order c p hc hp hchild hpi

/-- An entry changes places with the least of its children. -/
theorem HeapDown.swap (h : HeapDown key a i) (hi : i < a.size) (hc : c < a.size)
    (hchild : IsChild c i) (hle : key a[c] ≤ key a[i])
    (hleast : ∀ d (hd : d < a.size), IsChild d i → key a[c] ≤ key a[d]) :
    HeapDown key (a.swap i c) c where
  order d p hd hp hdp hne := by
    have hd' : d < a.size := by simpa using hd
    have hp' : p < a.size := by simpa using hp
    have hci : c ≠ i := hchild.lt.ne'
    by_cases hpi : p = i
    · subst hpi
      have hdp' : d ≠ p := hdp.lt.ne'
      by_cases hdc : d = c
      · subst hdc
        simpa using hle
      · simpa [hdc, hdp'] using hleast d hd' hdp
    · by_cases hdi : d = i
      · subst hdi
        simpa [hpi, hne] using h.bridged c p hc hp' hchild hdp
      · have hdc : d ≠ c := by
          rintro rfl
          exact hpi (hdp.unique hchild)
        simpa [hdi, hdc, hpi, hne] using h.order d p hd' hp' hdp hpi
  bridged d p hd hp hdc hcp := by
    have hd' : d < a.size := by simpa using hd
    have hp' : p < a.size := by simpa using hp
    obtain rfl := hcp.unique hchild
    have hdc' : d ≠ c := hdc.lt.ne'
    have hdp : d ≠ p := (hchild.lt.trans hdc.lt).ne'
    simpa [hdc', hdp] using h.order d c hd' hc hdc hchild.lt.ne'

end Lib
end ManyTasks
