import Mathlib.Algebra.BigOperators.Group.Finset.Basic
import Mathlib.Algebra.GroupWithZero.Nat
import Mathlib.Algebra.Order.BigOperators.Group.Finset
import Mathlib.Logic.Relation
import Mathlib.Tactic.Basic

/-!
# Threads with instruction stacks

A machine of threads that share a memory.  Each thread has a stack of instructions it still has to
execute; a step takes the top one off, changes the memory and puts the instructions that follow
from it on top (`Effect`, `Config.after`).  So a call is an instruction that puts the body of the
function on the stack, and what is below it is what the caller does afterwards.

Statements about such a machine are mostly about instructions that are `Pending`, somewhere on the
stack of some thread.  A step makes pending only what it puts on the stack (`pending_after`), and
nothing but the instruction it executes ceases to be (`Pending.after`).
-/

set_option autoImplicit false

namespace ManyTasks
namespace Lib

variable {Θ M I L : Type}

/-- What the execution of an instruction comes to. -/
structure Effect (M I L : Type) where
  /-- Can it be executed now, or does the thread have to wait? -/
  enabled : Bool
  /-- The memory afterwards. -/
  mem : M
  /-- What it puts on the stack. -/
  next : List I
  /-- What an observer sees of it. -/
  label : L

/-- The memory and the stacks of all threads. -/
structure Config (Θ M I : Type) where
  mem : M
  stack : Θ → List I

/-! ## Stacks -/

/-- `R i l` for every instruction `i` on a stack, where `l` is what is below it. -/
def Each (R : I → List I → Prop) : List I → Prop
  | [] => True
  | i :: l => R i l ∧ Each R l

theorem each_append {R : I → List I → Prop} {l₁ l₂ : List I} :
    Each R (l₁ ++ l₂) ↔ Each (fun i l ↦ R i (l ++ l₂)) l₁ ∧ Each R l₂ := by
  induction l₁ with
  | nil => exact ⟨fun h ↦ ⟨trivial, h⟩, fun h ↦ h.2⟩
  | cons i l ih => rw [List.cons_append, Each, Each, ih, and_assoc]

theorem Each.imp {R R' : I → List I → Prop} {l : List I} (h : Each R l)
    (himp : ∀ i l, R i l → R' i l) : Each R' l := by
  induction l with
  | nil => trivial
  | cons i l ih => exact ⟨himp i l h.1, ih h.2⟩

theorem each_of_forall {R : I → List I → Prop} {l : List I} (h : ∀ i ∈ l, ∀ l' ⊆ l, R i l') :
    Each R l := by
  induction l with
  | nil => trivial
  | cons i l ih =>
    refine ⟨h i List.mem_cons_self l (List.subset_cons_self i l), ih fun j hj l' hl' ↦ ?_⟩
    exact h j (List.mem_cons_of_mem i hj) l' (List.subset_cons_of_subset i hl')

theorem Each.and {R R' : I → List I → Prop} {l : List I} (h : Each R l) (h' : Each R' l) :
    Each (fun i l ↦ R i l ∧ R' i l) l := by
  induction l with
  | nil => trivial
  | cons i l ih => exact ⟨⟨h.1, h'.1⟩, ih h.2 h'.2⟩

/-- If the weight of a stack is one, one instruction has all of it. -/
theorem exists_eq_one_of_sum {w : I → ℕ} {l : List I} (h : (l.map w).sum = 1) :
    ∃ i ∈ l, w i = 1 := by
  induction l with
  | nil => cases h
  | cons i l ih =>
    rw [List.map_cons, List.sum_cons] at h
    by_cases hi : w i = 1
    · exact ⟨i, List.mem_cons_self, hi⟩
    · obtain ⟨j, hj, hone⟩ := ih (by omega)
      exact ⟨j, List.mem_cons_of_mem i hj, hone⟩

namespace Config

/-- Some thread still has to execute `i`. -/
def Pending (s : Config Θ M I) (i : I) : Prop := ∃ θ, i ∈ s.stack θ

theorem pending_top {s : Config Θ M I} {θ : Θ} {i : I} {rest : List I}
    (hs : s.stack θ = i :: rest) : s.Pending i :=
  ⟨θ, by rw [hs]; exact List.mem_cons_self⟩

variable [DecidableEq Θ]

/-- After thread `θ`, with `rest` below the instruction it executed, has had the effect `e`. -/
def after (s : Config Θ M I) (θ : Θ) (rest : List I) (e : Effect M I L) : Config Θ M I :=
  ⟨e.mem, Function.update s.stack θ (e.next ++ rest)⟩

variable {s : Config Θ M I} {θ : Θ} {i j : I} {rest : List I} {e : Effect M I L}

@[simp] theorem mem_after : (s.after θ rest e).mem = e.mem := rfl

theorem stack_after_self : (s.after θ rest e).stack θ = e.next ++ rest :=
  Function.update_self _ _ _

theorem stack_after_of_ne {θ' : Θ} (h : θ' ≠ θ) : (s.after θ rest e).stack θ' = s.stack θ' :=
  Function.update_of_ne h _ _

theorem mem_stack_after {θ' : Θ} (hs : s.stack θ = i :: rest)
    (h : j ∈ (s.after θ rest e).stack θ') : θ' = θ ∧ j ∈ e.next ∨ j ∈ s.stack θ' := by
  by_cases hθ : θ' = θ
  · subst hθ
    rw [stack_after_self, List.mem_append] at h
    rcases h with h | h
    · exact .inl ⟨rfl, h⟩
    · exact .inr (by rw [hs]; exact List.mem_cons_of_mem i h)
  · rw [stack_after_of_ne hθ] at h
    exact .inr h

/-- What is pending after a step was put there by it, or was pending before. -/
theorem pending_after (hs : s.stack θ = i :: rest) (h : (s.after θ rest e).Pending j) :
    j ∈ e.next ∨ s.Pending j := by
  obtain ⟨θ', h⟩ := h
  rcases mem_stack_after hs h with ⟨-, h⟩ | h
  · exact .inl h
  · exact .inr ⟨θ', h⟩

theorem pending_next (h : j ∈ e.next) : (s.after θ rest e).Pending j :=
  ⟨θ, by rw [stack_after_self]; exact List.mem_append_left rest h⟩

/-- A call puts its body on the stack and takes nothing off it. -/
theorem pending_push : (s.after θ (s.stack θ) e).Pending j ↔ j ∈ e.next ∨ s.Pending j := by
  refine ⟨fun ⟨θ', h⟩ ↦ ?_, fun h ↦ ?_⟩
  · by_cases hθ : θ' = θ
    · subst hθ
      rw [stack_after_self, List.mem_append] at h
      exact h.imp_right fun h ↦ ⟨θ', h⟩
    · rw [stack_after_of_ne hθ] at h
      exact .inr ⟨θ', h⟩
  · rcases h with h | ⟨θ', h⟩
    · exact pending_next h
    · by_cases hθ : θ' = θ
      · subst hθ
        exact ⟨θ', by rw [stack_after_self]; exact List.mem_append_right _ h⟩
      · exact ⟨θ', by rw [stack_after_of_ne hθ]; exact h⟩

/-- Only what is executed ceases to be pending. -/
theorem Pending.after (hs : s.stack θ = i :: rest) (h : s.Pending j) :
    j = i ∨ (s.after θ rest e).Pending j := by
  obtain ⟨θ', h⟩ := h
  by_cases hθ : θ' = θ
  · subst hθ
    rw [hs, List.mem_cons] at h
    refine h.imp_right fun h ↦ ⟨θ', ?_⟩
    rw [stack_after_self]
    exact List.mem_append_right _ h
  · exact .inr ⟨θ', by rw [stack_after_of_ne hθ]; exact h⟩

/-! ## What a thread comes to -/

/-- Some thread has `l` at the bottom of its stack: it will come to it, if it gets that far. -/
def Comes (s : Config Θ M I) (l : List I) : Prop := ∃ θ, l <:+ s.stack θ

omit [DecidableEq Θ] in
theorem Comes.pending {l : List I} (h : s.Comes (i :: l)) : s.Pending i := by
  obtain ⟨θ, h⟩ := h
  exact ⟨θ, h.subset List.mem_cons_self⟩

omit [DecidableEq Θ] in
theorem Comes.pending_of_mem {l : List I} (h : s.Comes l) (hi : i ∈ l) : s.Pending i := by
  obtain ⟨θ, h⟩ := h
  exact ⟨θ, h.subset hi⟩

/-- Only what is on top is taken off. -/
theorem Comes.after {l : List I} (hs : s.stack θ = i :: rest) (h : s.Comes l) :
    l = i :: rest ∨ (s.after θ rest e).Comes l := by
  obtain ⟨θ', h⟩ := h
  by_cases hθ : θ' = θ
  · subst hθ
    rw [hs, List.suffix_cons_iff] at h
    refine h.imp_right fun h ↦ ⟨θ', ?_⟩
    rw [stack_after_self]
    exact h.trans (List.suffix_append _ _)
  · exact .inr ⟨θ', by rw [stack_after_of_ne hθ]; exact h⟩

theorem comes_next {l : List I} (h : l <:+ e.next) : (s.after θ rest e).Comes (l ++ rest) := by
  obtain ⟨pre, hpre⟩ := h
  refine ⟨θ, pre, ?_⟩
  rw [stack_after_self, ← hpre, List.append_assoc]

theorem Comes.push {l : List I} (h : s.Comes l) : (s.after θ (s.stack θ) e).Comes l := by
  obtain ⟨θ', h⟩ := h
  by_cases hθ : θ' = θ
  · subst hθ
    refine ⟨θ', ?_⟩
    rw [stack_after_self]
    exact h.trans (List.suffix_append _ _)
  · exact ⟨θ', by rw [stack_after_of_ne hθ]; exact h⟩

/-- What is put on a stack has to be right for what is below it. -/
theorem each_after {R : I → List I → Prop} (h : ∀ θ, Each R (s.stack θ))
    (hs : s.stack θ = i :: rest) (hnext : R i rest → Each (fun j l ↦ R j (l ++ rest)) e.next)
    (θ' : Θ) : Each R ((s.after θ rest e).stack θ') := by
  by_cases hθ : θ' = θ
  · subst hθ
    have hstack := h θ'
    rw [hs] at hstack
    rw [stack_after_self, each_append]
    exact ⟨hnext hstack.1, hstack.2⟩
  · rw [stack_after_of_ne hθ]
    exact h θ'

theorem each_push {R : I → List I → Prop} (h : ∀ θ, Each R (s.stack θ))
    (hnext : Each (fun j l ↦ R j (l ++ s.stack θ)) e.next) (θ' : Θ) :
    Each R ((s.after θ (s.stack θ) e).stack θ') := by
  by_cases hθ : θ' = θ
  · subst hθ
    rw [stack_after_self, each_append]
    exact ⟨hnext, h θ'⟩
  · rw [stack_after_of_ne hθ]
    exact h θ'

/-! ## What has to be done before -/

/-- Wherever `q` is on a stack, `p` is above it, unless `D`.  So with `p` something a call has to do
and `q` its return, a call that returns has done it. -/
def Above (s : Config Θ M I) (p q : I) (D : Prop) : Prop :=
  ∀ θ pre post, s.stack θ = pre ++ q :: post → p ∈ pre ∨ D

variable {p q : I} {D D' : Prop}

omit [DecidableEq Θ] in
/-- An element of a concatenation is in the second part or in the first. -/
theorem split_append {l₁ l₂ pre post : List I} (h : l₁ ++ l₂ = pre ++ q :: post) :
    (∃ pre', pre = l₁ ++ pre' ∧ l₂ = pre' ++ q :: post) ∨ ∃ post', l₁ = pre ++ q :: post' := by
  rcases List.append_eq_append_iff.mp h with hpre | ⟨l, hl₁, hl⟩
  · exact .inl hpre
  · rcases List.cons_eq_append_iff.mp hl with ⟨rfl, hl₂⟩ | ⟨post', rfl, -⟩
    · exact .inl ⟨[], by rw [hl₁, List.append_nil, List.append_nil], hl₂⟩
    · exact .inr ⟨post', hl₁⟩

theorem Above.after (h : s.Above p q D) (hs : s.stack θ = i :: rest) (hq : q ∉ e.next)
    (hp : i = p → D') (hD : D → D') : (s.after θ rest e).Above p q D' := by
  intro θ' pre post heq
  by_cases hθ : θ' = θ
  · subst hθ
    rw [stack_after_self] at heq
    rcases split_append heq with ⟨pre', rfl, hrest⟩ | ⟨post', hnext⟩
    · have hold := h θ' (i :: pre') post (by rw [hs, hrest, List.cons_append])
      rcases hold with hmem | hD'
      · rcases List.mem_cons.mp hmem with rfl | hmem
        · exact .inr (hp rfl)
        · exact .inl (List.mem_append_right _ hmem)
      · exact .inr (hD hD')
    · exact absurd (by rw [hnext]; exact List.mem_append_right _ List.mem_cons_self) hq
  · rw [stack_after_of_ne hθ] at heq
    exact (h θ' pre post heq).imp_right hD

/-- A call whose body has `p`. -/
theorem Above.push (h : s.Above p q D)
    (hcode : ∀ pre post, e.next = pre ++ q :: post → p ∈ pre) (hD : D → D') :
    (s.after θ (s.stack θ) e).Above p q D' := by
  intro θ' pre post heq
  by_cases hθ : θ' = θ
  · subst hθ
    rw [stack_after_self] at heq
    rcases split_append heq with ⟨pre', rfl, hrest⟩ | ⟨post', hnext⟩
    · exact (h θ' pre' post hrest).imp (List.mem_append_right _) hD
    · exact .inl (hcode pre post' hnext)
  · rw [stack_after_of_ne hθ] at heq
    exact (h θ' pre post heq).imp_right hD

/-! ## Weights -/

/-- The weight of what the threads of `F` still have to execute. -/
def load (w : I → ℕ) (s : Config Θ M I) (F : Finset Θ) : ℕ :=
  ∑ θ ∈ F, ((s.stack θ).map w).sum

omit [DecidableEq Θ] in
theorem load_mono (w : I → ℕ) (s : Config Θ M I) {F F' : Finset Θ} (h : F ⊆ F') :
    s.load w F ≤ s.load w F' :=
  Finset.sum_le_sum_of_subset h

omit [DecidableEq Θ] in
theorem load_le_load {w w' : I → ℕ} (h : ∀ i, w i ≤ w' i) (s : Config Θ M I) (F : Finset Θ) :
    s.load w F ≤ s.load w' F :=
  Finset.sum_le_sum fun _ _ ↦ List.sum_le_sum fun i _ ↦ h i

omit [DecidableEq Θ] in
theorem le_load (w : I → ℕ) (h : i ∈ s.stack θ) : w i ≤ s.load w {θ} := by
  rw [load, Finset.sum_singleton]
  exact List.single_le_sum (fun _ _ ↦ Nat.zero_le _) _ (List.mem_map_of_mem h)

variable (s rest e) in
theorem load_update (w : I → ℕ) {F : Finset Θ} (hθ : θ ∈ F) :
    (s.after θ rest e).load w F + ((s.stack θ).map w).sum =
      s.load w F + ((e.next ++ rest).map w).sum := by
  have hrest : ∑ x ∈ F.erase θ, (((s.after θ rest e).stack x).map w).sum =
      ∑ x ∈ F.erase θ, ((s.stack x).map w).sum :=
    Finset.sum_congr rfl fun x hx ↦ by rw [stack_after_of_ne (Finset.ne_of_mem_erase hx)]
  rw [load, load, ← Finset.add_sum_erase F _ hθ, ← Finset.add_sum_erase F _ hθ, hrest,
    stack_after_self]
  omega

/-- **Bounds on weights.**  If a step adds no more than the weight of the instruction it executes,
counting what the memory weighs, then a bound on what all threads and the memory weigh is kept. -/
theorem load_after_le (w : I → ℕ) {n n' k : ℕ} (hs : s.stack θ = i :: rest)
    (h : ∀ F, s.load w F + n ≤ k) (he : (e.next.map w).sum + n' ≤ w i + n) (F : Finset Θ) :
    (s.after θ rest e).load w F + n' ≤ k := by
  have hF := load_update s rest e w (Finset.mem_insert_self θ F)
  have hle := load_mono w (s.after θ rest e) (Finset.subset_insert θ F)
  have hk := h (insert θ F)
  rw [hs, List.map_cons, List.sum_cons, List.map_append, List.sum_append] at hF
  omega

/-- The same for a call, whose body weighs nothing. -/
theorem load_push_le (w : I → ℕ) {n k : ℕ} (h : ∀ F, s.load w F + n ≤ k)
    (he : (e.next.map w).sum = 0) (F : Finset Θ) :
    (s.after θ (s.stack θ) e).load w F + n ≤ k := by
  have hF := load_update s (s.stack θ) e w (Finset.mem_insert_self θ F)
  have hle := load_mono w (s.after θ (s.stack θ) e) (Finset.subset_insert θ F)
  have hk := h (insert θ F)
  rw [List.map_append, List.sum_append] at hF
  omega

end Config

/-! ## Waiting in a circle -/

/-- **Lock order.**  If every thread of a circle of waiting threads wants something, and what it
wants comes before what the thread wants that it waits for, then there is no circle. -/
theorem no_circle_of_order {W : Θ → Θ → Prop} {wants : Θ → I → Prop} {lt : I → I → Prop}
    (hlt : ∀ x, ¬ Relation.TransGen lt x x)
    (hwants : ∀ θ, Relation.TransGen W θ θ → ∃ x, wants θ x)
    (horder : ∀ θ θ' x y, W θ θ' → wants θ x → wants θ' y → Relation.TransGen lt x y) (θ : Θ) :
    ¬ Relation.TransGen W θ θ := by
  intro hcircle
  obtain ⟨x, hx⟩ := hwants θ hcircle
  have hpath (θ' : Θ) (hto : Relation.TransGen W θ θ') (hfrom : Relation.TransGen W θ' θ) (y : I)
      (hy : wants θ' y) : Relation.TransGen lt x y := by
    induction hto generalizing y with
    | single h => exact horder θ _ x y h hx hy
    | @tail b c hab hbc ih =>
      have hback : Relation.TransGen W b θ := .head hbc hfrom
      obtain ⟨z, hz⟩ := hwants b (hback.trans hab)
      exact (ih hback z hz).trans (horder b c z y hbc hz hy)
  exact hlt x (hpath θ hcircle hcircle x hx)

end Lib
end ManyTasks
