import Mathlib.Data.List.Nodup
import Mathlib.Logic.Equiv.Basic
import Mathlib.Algebra.Group.End

/-!
# Rings

Where every node has a next one and a previous one, and the two pointers are inverse to each other,
the next node is given by a permutation `σ`.  `Path σ a as b` says that it leads from `a` over the
nodes `as` to `b`.

The nodes are heads and elements.  `Rings σ contents` says that from every head one comes to the
elements of its list one after the other and then back to the head, and that all other elements are
alone.

To put an element at the end of a list, or to take one out of its list, is in both cases to exchange
two values of the permutation (`Rings.push`, `Rings.remove`).
-/

set_option autoImplicit false

namespace ManyTasks
namespace Lib

open Function (update update_self update_of_ne)
open Equiv (Perm swap swap_apply_left swap_apply_right swap_apply_of_ne_of_ne)

/-! ## Paths -/

section Path

variable {N : Type} {σ : Perm N} {a b c u v : N} {as bs : List N}

/-- From `a` over the nodes of the list to the last argument. -/
def Path (next : N → N) : N → List N → N → Prop
  | a, [], b => next a = b
  | a, c :: as, b => next a = c ∧ Path next c as b

theorem path_append {next : N → N} :
    Path next a (as ++ c :: bs) b ↔ Path next a as c ∧ Path next c bs b := by
  induction as generalizing a with
  | nil => exact Iff.rfl
  | cons d as ih => exact (and_congr_right fun _ ↦ ih).trans and_assoc.symm

variable [DecidableEq N]

/-- A path that does not come to the two nodes stays as it is. -/
theorem Path.swap (h : Path σ a as b) (has : ∀ c ∈ as, c ≠ u ∧ c ≠ v) (hb : b ≠ u ∧ b ≠ v) :
    Path (Equiv.swap u v * σ) a as b := by
  induction as generalizing a with
  | nil =>
    obtain rfl : σ a = b := h
    exact swap_apply_of_ne_of_ne hb.1 hb.2
  | cons c as ih =>
    obtain ⟨rfl, hrest⟩ := h
    obtain ⟨hc, has⟩ := List.forall_mem_cons.mp has
    exact ⟨swap_apply_of_ne_of_ne hc.1 hc.2, ih hrest has⟩

/-- A path to one of the two nodes now leads to the other one. -/
theorem Path.swap_end (h : Path σ a as u) (has : ∀ c ∈ as, c ≠ u ∧ c ≠ v) :
    Path (Equiv.swap u v * σ) a as v := by
  induction as generalizing a with
  | nil =>
    obtain rfl : σ a = u := h
    exact swap_apply_left _ _
  | cons c as ih =>
    obtain ⟨rfl, hrest⟩ := h
    obtain ⟨hc, has⟩ := List.forall_mem_cons.mp has
    exact ⟨swap_apply_of_ne_of_ne hc.1 hc.2, ih hrest has⟩

/-- A node that is alone is put before the end. -/
theorem Path.insert (h : Path σ a as b) (hu : σ u = u) (has : ∀ c ∈ as, c ≠ b ∧ c ≠ u) :
    Path (Equiv.swap u b * σ) a (as ++ [u]) b := by
  have hto : Path (Equiv.swap u b * σ) a as u := by
    rw [Equiv.swap_comm]
    exact h.swap_end has
  refine path_append.mpr ⟨hto, ?_⟩
  rw [Path, Equiv.Perm.mul_apply, hu, swap_apply_left]

/-- A node in the middle is passed over. -/
theorem Path.remove (h : Path σ a (as ++ u :: bs) b) (has : u ∉ as) (hbs : u ∉ bs) (hub : u ≠ b)
    (hnodup : (as ++ bs).Nodup) (hb : b ∉ as ++ bs) :
    Path (Equiv.swap u (σ u) * σ) a (as ++ bs) b := by
  obtain ⟨hfirst, hlast⟩ := path_append.mp h
  have hu (c : N) (hc : c ∈ as) : c ≠ u := fun heq ↦ has (heq ▸ hc)
  cases bs with
  | nil =>
    obtain rfl : σ u = b := hlast
    rw [List.append_nil] at hb ⊢
    exact hfirst.swap_end fun c hc ↦ ⟨hu c hc, fun heq ↦ hb (heq ▸ hc)⟩
  | cons d bs =>
    obtain ⟨rfl, hrest⟩ := hlast
    obtain ⟨-, hnodup', hdisjoint⟩ := List.nodup_append.mp hnodup
    obtain ⟨hnext, -⟩ := List.nodup_cons.mp hnodup'
    refine path_append.mpr ⟨hfirst.swap_end fun c hc ↦ ⟨hu c hc, ?_⟩,
      hrest.swap (fun c hc ↦ ⟨?_, ?_⟩) ?_⟩
    · exact hdisjoint c hc _ List.mem_cons_self
    · exact fun heq ↦ hbs (List.mem_cons_of_mem _ (heq ▸ hc))
    · exact fun heq ↦ hnext (heq ▸ hc)
    · exact ⟨hub.symm, fun heq ↦ hb (List.mem_append_right as (heq ▸ List.mem_cons_self))⟩

end Path

/-! ## The rings of the heads -/

/-- The nodes are the heads of lists, and the elements. -/
inductive Node (L E : Type) where
  | head (l : L)
  | element (e : E)
deriving DecidableEq, Repr

/-- The lists have no element in common. -/
structure Apart {L E : Type} (contents : L → List E) : Prop where
  nodup : ∀ l, (contents l).Nodup
  exclusive : ∀ l l' e, e ∈ contents l → e ∈ contents l' → l = l'

/-- Every head is on a ring with the elements of its list, and every other element is alone. -/
structure Rings {L E : Type} (σ : Perm (Node L E)) (contents : L → List E) :
    Prop extends Apart contents where
  ring : ∀ l, Path σ (.head l) ((contents l).map .element) (.head l)
  alone : ∀ e, (∀ l, e ∉ contents l) → σ (.element e) = .element e

section Rings

variable {L E : Type} {σ : Perm (Node L E)} {contents : L → List E} {l : L} {e : E}

theorem element_injective : Function.Injective (Node.element : E → Node L E) :=
  fun _ _ h ↦ Node.element.inj h

theorem element_ne_head (e : E) (l : L) : Node.element e ≠ .head l := by
  intro h
  cases h

theorem rings_one : Rings (1 : Perm (Node L E)) fun _ ↦ [] where
  nodup _ := List.nodup_nil
  exclusive _ _ _ h := absurd h List.not_mem_nil
  ring _ := rfl
  alone _ _ := rfl

/-- The next node of a head is the first element of its list. -/
theorem Rings.head_eq (h : Rings σ contents) {es : List E} (hl : contents l = e :: es) :
    σ (.head l) = .element e := by
  have hring := h.ring l
  rw [hl] at hring
  exact hring.1

/-- A head is alone if its list is empty. -/
theorem Rings.head_fixed_iff (h : Rings σ contents) (l : L) : σ (.head l) = .head l ↔
    contents l = [] := by
  have hring := h.ring l
  cases hl : contents l with
  | nil =>
    rw [hl] at hring
    exact iff_of_true hring rfl
  | cons e es =>
    rw [h.head_eq hl]
    exact iff_of_false (element_ne_head e l) (List.cons_ne_nil e es)

/-- An element is alone if it is in no list. -/
theorem Rings.fixed_iff (h : Rings σ contents) (e : E) :
    σ (.element e) = .element e ↔ ∀ l, e ∉ contents l := by
  refine ⟨fun hfixed l he ↦ ?_, h.alone e⟩
  obtain ⟨as, bs, hl⟩ := List.append_of_mem he
  have hring := h.ring l
  rw [hl, List.map_append, List.map_cons, path_append] at hring
  cases bs with
  | nil =>
    obtain hnext : σ (.element e) = .head l := hring.2
    exact absurd (hfixed.symm.trans hnext) (element_ne_head e l)
  | cons b bs =>
    obtain hnext : σ (.element e) = .element b := hring.2.1
    have hnodup := h.nodup l
    rw [hl, List.nodup_append] at hnodup
    obtain rfl : e = b := Node.element.inj (hfixed.symm.trans hnext)
    exact (List.nodup_cons.mp hnodup.2.1).1 List.mem_cons_self

/-- The element before which one comes to the head is the last of the list. -/
theorem Rings.mem_or_head (h : Rings σ contents) (he : e ∈ contents l) :
    σ (.element e) = .head l ∨ ∃ e' ∈ contents l, σ (.element e) = .element e' := by
  obtain ⟨as, bs, hl⟩ := List.append_of_mem he
  have hring := h.ring l
  rw [hl, List.map_append, List.map_cons, path_append] at hring
  cases bs with
  | nil => exact .inl hring.2
  | cons b bs => exact .inr ⟨b, hl ▸ by simp, hring.2.1⟩

variable [DecidableEq L] [DecidableEq E]

/-- The lists when an element has been put at the end of one. -/
theorem Apart.push (h : Apart contents) (l : L) (he : ∀ l', e ∉ contents l') :
    Apart (update contents l (contents l ++ [e])) where
  nodup l' := by
    by_cases hl : l' = l
    · subst hl
      rw [update_self]
      exact List.nodup_append_comm.mp (List.nodup_cons.mpr ⟨he l', h.nodup l'⟩)
    · rw [update_of_ne hl]
      exact h.nodup l'
  exclusive l₁ l₂ e' h₁ h₂ := by
    by_cases hne : e' = e
    · subst hne
      have honly (l' : L) (hmem : e' ∈ update contents l (contents l ++ [e']) l') : l' = l := by
        by_contra hl
        rw [update_of_ne hl] at hmem
        exact he l' hmem
      rw [honly l₁ h₁, honly l₂ h₂]
    · have hold (l' : L) (hmem : e' ∈ update contents l (contents l ++ [e]) l') :
          e' ∈ contents l' := by
        by_cases hl : l' = l
        · subst hl
          rw [update_self, List.mem_append, List.mem_singleton] at hmem
          exact hmem.resolve_right hne
        · rwa [update_of_ne hl] at hmem
      exact h.exclusive l₁ l₂ e' (hold l₁ h₁) (hold l₂ h₂)

/-- **An element that is alone is put at the end of a list.** -/
theorem Rings.push (h : Rings σ contents) (l : L) (he : ∀ l', e ∉ contents l') :
    Rings (swap (.element e) (.head l) * σ) (update contents l (contents l ++ [e])) where
  toApart := h.toApart.push l he
  ring l' := by
    by_cases hl : l' = l
    · subst hl
      rw [update_self, List.map_append]
      refine (h.ring l').insert (h.alone e he) fun c hc ↦ ?_
      obtain ⟨e', he', rfl⟩ := List.mem_map.mp hc
      exact ⟨element_ne_head e' l', fun heq ↦ he l' (Node.element.inj heq ▸ he')⟩
    · rw [update_of_ne hl]
      refine (h.ring l').swap (fun c hc ↦ ?_)
        ⟨(element_ne_head e l').symm, fun heq ↦ hl (Node.head.inj heq)⟩
      obtain ⟨e', he', rfl⟩ := List.mem_map.mp hc
      exact ⟨fun heq ↦ he l' (Node.element.inj heq ▸ he'), element_ne_head e' l⟩
  alone e' he' := by
    have hne : e' ≠ e := by
      rintro rfl
      refine he' l ?_
      rw [update_self]
      exact List.mem_append_right _ List.mem_cons_self
    have hold (l' : L) : e' ∉ contents l' := fun hmem ↦ by
      refine he' l' ?_
      by_cases hl : l' = l
      · subst hl
        rw [update_self]
        exact List.mem_append_left _ hmem
      · rwa [update_of_ne hl]
    rw [Equiv.Perm.mul_apply, h.alone e' hold]
    exact swap_apply_of_ne_of_ne (fun heq ↦ hne (Node.element.inj heq)) (element_ne_head e' l)

/-- The lists without an element. -/
def without (contents : L → List E) (e : E) (l : L) : List E := (contents l).filter (· ≠ e)

omit [DecidableEq L] in
theorem mem_without {e' : E} : e' ∈ without contents e l ↔ e' ∈ contents l ∧ e' ≠ e := by
  rw [without, List.mem_filter, decide_eq_true_eq]

theorem filter_ne_eq {es : List E} (he : e ∉ es) : es.filter (· ≠ e) = es :=
  List.filter_eq_self.mpr fun _ he' ↦ decide_eq_true fun heq ↦ he (heq ▸ he')

omit [DecidableEq L] in
theorem without_eq (he : e ∉ contents l) : without contents e l = contents l := filter_ne_eq he

omit [DecidableEq L] in
theorem Apart.without (h : Apart contents) (e : E) : Apart (without contents e) where
  nodup l := (h.nodup l).filter _
  exclusive l l' e' h₁ h₂ := h.exclusive l l' e' (mem_without.mp h₁).1 (mem_without.mp h₂).1

/-- The ring that the element is on. -/
theorem Rings.remove_mem (h : Rings σ contents) (he : e ∈ contents l) :
    Path (swap (.element e) (σ (.element e)) * σ) (.head l) ((without contents e l).map .element)
      (.head l) := by
  obtain ⟨as, bs, hl⟩ := List.append_of_mem he
  have hring := h.ring l
  have hnodup := h.nodup l
  rw [hl] at hnodup
  obtain ⟨hnot, hrest⟩ := List.nodup_cons.mp (List.perm_middle.nodup_iff.mp hnodup)
  rw [List.mem_append, not_or] at hnot
  have hwithout : without contents e l = as ++ bs := by
    rw [without, hl, List.filter_append, List.filter_cons_of_neg (by simp), filter_ne_eq hnot.1,
      filter_ne_eq hnot.2]
  rw [hl, List.map_append, List.map_cons] at hring
  rw [hwithout, List.map_append]
  refine hring.remove ?_ ?_ (element_ne_head e l) ?_ ?_
  · rw [List.mem_map_of_injective element_injective]
    exact hnot.1
  · rw [List.mem_map_of_injective element_injective]
    exact hnot.2
  · rw [← List.map_append]
    exact hrest.map element_injective
  · rw [← List.map_append, List.mem_map]
    rintro ⟨e', -, heq⟩
    exact element_ne_head e' l heq

/-- The other rings. -/
theorem Rings.remove_other (h : Rings σ contents) {l' : L} (he : e ∈ contents l') (hne : l ≠ l') :
    Path (swap (.element e) (σ (.element e)) * σ) (.head l) ((contents l).map .element)
      (.head l) := by
  -- what comes after the element is on its own ring
  have hnext (c : Node L E) (hc : c = .head l ∨ ∃ e' ∈ contents l, c = .element e') :
      c ≠ σ (.element e) := by
    rcases h.mem_or_head he with hhead | ⟨e₂, he₂, helement⟩
    · rw [hhead]
      rcases hc with rfl | ⟨e', -, rfl⟩
      · exact fun heq ↦ hne (Node.head.inj heq)
      · exact element_ne_head e' l'
    · rw [helement]
      rcases hc with rfl | ⟨e', he', rfl⟩
      · exact (element_ne_head e₂ l).symm
      · exact fun heq ↦ hne (h.exclusive l l' e₂ (Node.element.inj heq ▸ he') he₂)
  refine (h.ring l).swap (fun c hc ↦ ?_) ⟨(element_ne_head e l).symm, hnext _ (.inl rfl)⟩
  obtain ⟨e', he', rfl⟩ := List.mem_map.mp hc
  exact ⟨fun heq ↦ hne (h.exclusive l l' e (Node.element.inj heq ▸ he') he),
    hnext _ (.inr ⟨e', he', rfl⟩)⟩

/-- **An element is taken out of its list, if it is in one.** -/
theorem Rings.remove (h : Rings σ contents) (e : E) :
    Rings (swap (.element e) (σ (.element e)) * σ) (without contents e) where
  toApart := h.toApart.without e
  ring l := by
    by_cases he : e ∈ contents l
    · exact h.remove_mem he
    · rw [without_eq he]
      by_cases halone : ∀ l', e ∉ contents l'
      · rw [h.alone e halone, Equiv.swap_self]
        exact h.ring l
      · obtain ⟨l', hl'⟩ := not_forall_not.mp halone
        exact h.remove_other hl' fun heq ↦ he (heq ▸ hl')
  alone e' he' := by
    by_cases hne : e' = e
    · subst hne
      exact swap_apply_right _ _
    · have hold := h.alone e' fun l hl ↦ he' l (mem_without.mpr ⟨hl, hne⟩)
      have hnot : (Node.element e' : Node L E) ≠ .element e := fun heq ↦ hne (Node.element.inj heq)
      rw [Equiv.Perm.mul_apply, hold]
      exact swap_apply_of_ne_of_ne hnot fun heq ↦ hnot (σ.injective (hold.trans heq))

end Rings

end Lib
end ManyTasks
