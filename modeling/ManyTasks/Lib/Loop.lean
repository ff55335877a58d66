import Mathlib.Data.List.Basic
import Mathlib.Order.Basic

/-!
# Loops that are left early

A loop over a list stops at the first element at which a condition holds.  `UpTo stop P l` says that
`P` holds of all elements that it comes to, the one at which it stops included.

In a list that is sorted these are the elements before which the loop does not stop (`upTo_iff`);
and two such loops, one in the other, come to a pair if they do not stop at any pair before it
(`upTo_nested_iff`).
-/

set_option autoImplicit false

namespace ManyTasks
namespace Lib

variable {α β : Type} {stop stop' P P' : α → Prop} {l : List α}

/-- Every element to which the loop comes has `P`. -/
def UpTo (stop P : α → Prop) : List α → Prop
  | [] => True
  | a :: l => P a ∧ (¬stop a → UpTo stop P l)

@[simp] theorem upTo_nil (stop P : α → Prop) : UpTo stop P [] := trivial

theorem upTo_cons {a : α} : UpTo stop P (a :: l) ↔ P a ∧ (¬stop a → UpTo stop P l) := Iff.rfl

theorem UpTo.of_forall (h : ∀ a ∈ l, P a) : UpTo stop P l := by
  induction l with
  | nil => trivial
  | cons a l ih =>
    obtain ⟨ha, hl⟩ := List.forall_mem_cons.mp h
    exact ⟨ha, fun _ ↦ ih hl⟩

/-- A loop that does not stop comes to every element. -/
theorem UpTo.forall (h : UpTo stop P l) (hstop : ∀ a ∈ l, ¬stop a) : ∀ a ∈ l, P a := by
  induction l with
  | nil => exact nofun
  | cons a l ih =>
    obtain ⟨ha, hl⟩ := List.forall_mem_cons.mp hstop
    exact List.forall_mem_cons.mpr ⟨h.1, ih (h.2 ha) hl⟩

/-- Conditions that are the same as far as the loop comes. -/
theorem upTo_congr (hP : ∀ a ∈ l, P a ↔ P' a) (hstop : ∀ a ∈ l, P a → (stop a ↔ stop' a)) :
    UpTo stop P l ↔ UpTo stop' P' l := by
  induction l with
  | nil => rfl
  | cons a l ih =>
    obtain ⟨hPa, hPl⟩ := List.forall_mem_cons.mp hP
    obtain ⟨ha, hl⟩ := List.forall_mem_cons.mp hstop
    rw [upTo_cons, upTo_cons, ih hPl hl, ← hPa]
    exact and_congr_right fun h ↦ by rw [ha h]

/-- Whether the loop stops is the same for conditions that are the same as far as it comes. -/
theorem UpTo.exists_congr (h : UpTo stop P l) (hstop : ∀ a ∈ l, P a → (stop a ↔ stop' a)) :
    (∃ a ∈ l, stop a) ↔ ∃ a ∈ l, stop' a := by
  induction l with
  | nil => simp
  | cons a l ih =>
    obtain ⟨ha, hl⟩ := List.forall_mem_cons.mp hstop
    rw [List.exists_mem_cons_iff, List.exists_mem_cons_iff, ← ha h.1]
    by_cases hstopped : stop a
    · exact iff_of_true (.inl hstopped) (.inl hstopped)
    · rw [ih (h.2 hstopped) hl]

/-- The element that a search finds is one to which it comes. -/
theorem UpTo.of_findSome? {f : α → Option β} {b : β} (h : UpTo (fun a ↦ (f a).isSome = true) P l)
    (hfind : l.findSome? f = some b) : ∃ a ∈ l, f a = some b ∧ P a := by
  induction l with
  | nil => cases hfind
  | cons a l ih =>
    rw [List.findSome?_cons] at hfind
    cases hfa : f a with
    | some b' =>
      rw [hfa] at hfind
      exact ⟨a, List.mem_cons_self, hfa.trans hfind, h.1⟩
    | none =>
      rw [hfa] at hfind
      obtain ⟨a', ha', hfa', hP⟩ := ih (h.2 (by simp [hfa])) hfind
      exact ⟨a', List.mem_cons_of_mem a ha', hfa', hP⟩

/-! ## Sorted lists -/

/-- **Where the loop comes.** -/
theorem upTo_iff [Preorder α] (hl : l.Pairwise (· < ·)) :
    UpTo stop P l ↔ ∀ a ∈ l, (∀ b ∈ l, b < a → ¬stop b) → P a := by
  induction l with
  | nil => simp
  | cons a l ih =>
    obtain ⟨ha, hl⟩ := List.pairwise_cons.mp hl
    rw [upTo_cons, ih hl, List.forall_mem_cons]
    have hfirst : (∀ b ∈ a :: l, b < a → ¬stop b) := fun b hb hlt ↦ by
      rcases List.mem_cons.mp hb with rfl | hb
      · exact absurd hlt (lt_irrefl b)
      · exact absurd hlt (ha b hb).asymm
    refine and_congr ⟨fun h _ ↦ h, fun h ↦ h hfirst⟩
      ⟨fun h c hc hbefore ↦ ?_, fun h hstop c hc hbefore ↦ ?_⟩
    · exact h (hbefore a List.mem_cons_self (ha c hc)) c hc fun b hb ↦
        hbefore b (List.mem_cons_of_mem a hb)
    · refine h c hc fun b hb hlt ↦ ?_
      rcases List.mem_cons.mp hb with rfl | hb
      · exact hstop
      · exact hbefore b hb hlt

/-- **Where two loops come, one in the other.**  When the one inside stops, so does the other. -/
theorem upTo_nested_iff [Preorder α] [Preorder β] {L : α → List β} {stop P : α → β → Prop}
    (hl : l.Pairwise (· < ·)) (hL : ∀ a, (L a).Pairwise (· < ·)) :
    UpTo (fun a ↦ ∃ b ∈ L a, stop a b) (fun a ↦ UpTo (stop a) (P a) (L a)) l ↔
      ∀ a ∈ l, ∀ b ∈ L a,
        (∀ a' ∈ l, ∀ b' ∈ L a', a' < a ∨ a' = a ∧ b' < b → ¬stop a' b') → P a b := by
  rw [upTo_iff hl]
  refine forall₂_congr fun a ha ↦ ?_
  rw [upTo_iff (hL a)]
  constructor
  · intro h b hb hbefore
    refine h (fun a' ha' hlt ↦ ?_) b hb fun b' hb' hlt ↦ hbefore a ha b' hb' (.inr ⟨rfl, hlt⟩)
    rintro ⟨b', hb', hstop⟩
    exact hbefore a' ha' b' hb' (.inl hlt) hstop
  · intro h houter b hb hinner
    refine h b hb fun a' ha' b' hb' hlt ↦ ?_
    rcases hlt with hlt | ⟨rfl, hlt⟩
    · exact fun hstop ↦ houter a' ha' hlt ⟨b', hb', hstop⟩
    · exact hinner b' hb' hlt

end Lib
end ManyTasks
