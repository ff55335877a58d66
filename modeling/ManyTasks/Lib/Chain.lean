import Mathlib.Algebra.BigOperators.Group.Finset.Basic
import Mathlib.Algebra.Order.Group.Multiset
import Mathlib.Data.List.Nodup
import Mathlib.Logic.Function.Basic
import Mathlib.Tactic.Abel

/-!
# Linked lists, and who owns them

A linked list in memory is a pointer, and for every node the pointer to the next one.
`Chain next p as` says that the list that starts at `p` has the nodes `as`, in this order, and ends.

Several owners have a list of nodes each.  Where no node is on two of them (`Exclusive`), what one
owner does to its nodes is nothing to the others.

A list that all share is that of the owner `none`, and what belongs to a thread depends on where it
is (`Ownership`).

What all the owners have together is a sum over infinitely many of them, of whom only finitely many
have anything; `Total` says what it is.  When things are handed on, what has come in is what has
gone out, is on the list that all share, or in somebody's hands (`Balance`).
-/

set_option autoImplicit false

namespace ManyTasks
namespace Lib

open Function (update update_self update_of_ne)

/-! ## Chains -/

section Chain

variable {A : Type} {next next' : A → Option A} {p : Option A} {a : A} {as : List A}

/-- The nodes from a pointer on to the end. -/
def Chain (next : A → Option A) : Option A → List A → Prop
  | p, [] => p = none
  | p, a :: as => p = some a ∧ Chain next (next a) as

theorem chain_nil : Chain next none [] := rfl

theorem chain_cons (h : Chain next (next a) as) : Chain next (some a) (a :: as) := ⟨rfl, h⟩

theorem Chain.eq_nil (h : Chain next none as) : as = [] := by
  cases as with
  | nil => rfl
  | cons a as => exact absurd h.1 (by simp)

/-- The first node, and the rest. -/
theorem Chain.exists_cons (h : Chain next (some a) as) :
    ∃ bs, as = a :: bs ∧ Chain next (next a) bs := by
  cases as with
  | nil => exact absurd h (by simp [Chain])
  | cons b as =>
    obtain ⟨hb, hrest⟩ := h
    cases hb
    exact ⟨as, rfl, hrest⟩

/-- Other nodes may change. -/
theorem Chain.congr (h : Chain next p as) (hnext : ∀ a ∈ as, next' a = next a) :
    Chain next' p as := by
  induction as generalizing p with
  | nil => exact h
  | cons a as ih =>
    refine ⟨h.1, ?_⟩
    rw [hnext a List.mem_cons_self]
    exact ih h.2 fun b hb ↦ hnext b (List.mem_cons_of_mem a hb)

end Chain

/-! ## Owners -/

section Exclusive

variable {K A : Type} {owned : K → List A} {k k' : K} {l l' : List A} {a : A}

/-- No node is owned twice. -/
structure Exclusive (owned : K → List A) : Prop where
  nodup : ∀ k, (owned k).Nodup
  unique : ∀ {k k' a}, a ∈ owned k → a ∈ owned k' → k = k'

theorem exclusive_nil : Exclusive fun _ : K ↦ ([] : List A) where
  nodup _ := List.nodup_nil
  unique h := absurd h List.not_mem_nil

theorem Exclusive.notMem (h : Exclusive owned) (ha : a ∈ owned k) (hk : k' ≠ k) : a ∉ owned k' :=
  fun ha' ↦ hk (h.unique ha' ha)

variable [DecidableEq K]

/-- An owner has other nodes now, which nobody else has. -/
theorem Exclusive.set (h : Exclusive owned) (hnodup : l.Nodup)
    (hnew : ∀ a ∈ l, ∀ j ≠ k, a ∉ owned j) : Exclusive (update owned k l) where
  nodup j := by
    by_cases hj : j = k
    · rw [hj, update_self]
      exact hnodup
    · rw [update_of_ne hj]
      exact h.nodup j
  unique {i j a} hi hj := by
    by_cases hik : i = k <;> by_cases hjk : j = k
    · rw [hik, hjk]
    · rw [hik, update_self] at hi
      rw [update_of_ne hjk] at hj
      exact absurd hj (hnew a hi j hjk)
    · rw [hjk, update_self] at hj
      rw [update_of_ne hik] at hi
      exact absurd hi (hnew a hj i hik)
    · rw [update_of_ne hik] at hi
      rw [update_of_ne hjk] at hj
      exact h.unique hi hj

/-- An owner has only some of its nodes left. -/
theorem Exclusive.keep (h : Exclusive owned) (hsub : l.Sublist (owned k)) :
    Exclusive (update owned k l) :=
  h.set ((h.nodup k).sublist hsub) fun _ ha _ hj ↦ h.notMem (hsub.subset ha) hj

/-- Two owners share out what they have. -/
theorem Exclusive.share (h : Exclusive owned) (hk : k ≠ k') (hnodup : (l ++ l').Nodup)
    (hsub : ∀ a ∈ l ++ l', a ∈ owned k ∨ a ∈ owned k') :
    Exclusive (update (update owned k l) k' l') := by
  obtain ⟨hl, hl', hdisj⟩ := List.nodup_append.mp hnodup
  have hothers : ∀ a ∈ l ++ l', ∀ j, j ≠ k → j ≠ k' → a ∉ owned j := by
    intro a ha j hjk hjk'
    rcases hsub a ha with hak | hak'
    · exact h.notMem hak hjk
    · exact h.notMem hak' hjk'
  -- the first update is made with `k'` already empty, or `k'` would still have what `k` gets
  have hfirst : Exclusive (update (update owned k' []) k l) := by
    refine (h.keep (List.nil_sublist _)).set hl fun a ha j hj ↦ ?_
    by_cases hjk' : j = k'
    · rw [hjk', update_self]
      exact List.not_mem_nil
    · rw [update_of_ne hjk']
      exact hothers a (List.mem_append_left _ ha) j hj hjk'
  have hlast := hfirst.set (k := k') hl' fun a ha j hj ↦ by
    by_cases hjk : j = k
    · rw [hjk, update_self]
      exact fun hal ↦ hdisj a hal a ha rfl
    · rw [update_of_ne hjk, update_of_ne hj]
      exact hothers a (List.mem_append_right _ ha) j hjk hj
  rwa [Function.update_comm hk.symm, Function.update_idem] at hlast

end Exclusive

/-! ## A list that all share, and what belongs to the threads -/

section Ownership

variable {Θ P A : Type} {Owns : (A → Option A) → P → List A → Prop} {next next' : A → Option A}
  {root : Option A} {places : Θ → P} {owned : Option Θ → List A} {l l' : List A} {θ : Θ} {a : A}

/-- The list from `root` belongs to `none`; what belongs to a thread is said by `Owns` and its
place. -/
structure Ownership (Owns : (A → Option A) → P → List A → Prop) (next : A → Option A)
    (root : Option A) (places : Θ → P) (owned : Option Θ → List A) : Prop where
  chain : Chain next root (owned none)
  owns : ∀ θ, Owns next (places θ) (owned (some θ))
  exclusive : Exclusive owned

/-- What belongs to a thread is not on the list. -/
theorem Ownership.notMem_list (h : Ownership Owns next root places owned)
    (ha : a ∈ owned (some θ)) :
    a ∉ owned none :=
  h.exclusive.notMem ha (Option.some_ne_none θ).symm

theorem Ownership.eq_of_mem (h : Ownership Owns next root places owned) {θ' : Θ}
    (ha : a ∈ owned (some θ)) (ha' : a ∈ owned (some θ')) : θ' = θ :=
  Option.some.inj (h.exclusive.unique ha' ha)

/-- A node that is not on the list is written. -/
theorem Ownership.write (h : Ownership Owns next root places owned)
    (hcongr : ∀ {p as}, Owns next p as → (∀ b ∈ as, next' b = next b) → Owns next' p as)
    (hnext : ∀ b, b ≠ a → next' b = next b) (hlist : a ∉ owned none)
    (hown : ∀ θ, a ∈ owned (some θ) → Owns next' (places θ) (owned (some θ))) :
    Ownership Owns next' root places owned where
  chain := h.chain.congr fun b hb ↦ hnext b (ne_of_mem_of_not_mem hb hlist)
  owns θ := by
    by_cases ha : a ∈ owned (some θ)
    · exact hown θ ha
    · exact hcongr (h.owns θ) fun b hb ↦ hnext b (ne_of_mem_of_not_mem hb ha)
  exclusive := h.exclusive

variable [DecidableEq Θ]

/-- The list and a thread have other nodes. -/
def shareOut (owned : Option Θ → List A) (l : List A) (θ : Θ) (l' : List A) : Option Θ → List A :=
  update (update owned none l) (some θ) l'

@[simp]
theorem shareOut_none : shareOut owned l θ l' none = l := by
  rw [shareOut, update_of_ne (Option.some_ne_none θ).symm, update_self]

@[simp]
theorem shareOut_self : shareOut owned l θ l' (some θ) = l' := update_self _ _ _

theorem shareOut_of_ne {θ' : Θ} (h : θ' ≠ θ) :
    shareOut owned l θ l' (some θ') = owned (some θ') := by
  rw [shareOut, update_of_ne ((Option.some_injective Θ).ne h),
    update_of_ne (Option.some_ne_none θ')]

/-- What somebody has now is on the list, or the thread's, or had before. -/
theorem mem_shareOut {k : Option Θ} (h : a ∈ shareOut owned l θ l' k) :
    (k = none ∧ a ∈ l) ∨ (k = some θ ∧ a ∈ l') ∨ (k ≠ some θ ∧ a ∈ owned k) := by
  rcases k with - | θ'
  · rw [shareOut_none] at h
    exact .inl ⟨rfl, h⟩
  · by_cases hθ : θ' = θ
    · subst hθ
      rw [shareOut_self] at h
      exact .inr (.inl ⟨rfl, h⟩)
    · rw [shareOut_of_ne hθ] at h
      exact .inr (.inr ⟨(Option.some_injective Θ).ne hθ, h⟩)

/-- Sharing out loses nothing. -/
theorem exists_mem_shareOut (h : a ∈ l ∨ a ∈ l' ↔ a ∈ owned none ∨ a ∈ owned (some θ)) :
    (∃ k, a ∈ shareOut owned l θ l' k) ↔ ∃ k, a ∈ owned k := by
  constructor
  · rintro ⟨k, hk⟩
    rcases mem_shareOut hk with ⟨-, hl⟩ | ⟨-, hl'⟩ | ⟨-, hk⟩
    · exact (h.mp (.inl hl)).elim (⟨none, ·⟩) (⟨some θ, ·⟩)
    · exact (h.mp (.inr hl')).elim (⟨none, ·⟩) (⟨some θ, ·⟩)
    · exact ⟨k, hk⟩
  · rintro ⟨k, hk⟩
    have hshared : a ∈ owned none ∨ a ∈ owned (some θ) → ∃ k, a ∈ shareOut owned l θ l' k := by
      intro ha
      rcases h.mpr ha with hl | hl'
      · exact ⟨none, by rwa [shareOut_none]⟩
      · exact ⟨some θ, by rwa [shareOut_self]⟩
    rcases k with - | θ'
    · exact hshared (.inl hk)
    · by_cases hθ : θ' = θ
      · exact hshared (.inr (hθ ▸ hk))
      · exact ⟨some θ', by rwa [shareOut_of_ne hθ]⟩

@[simp]
theorem shareOut_eq_self : shareOut owned (owned none) θ (owned (some θ)) = owned := by
  rw [shareOut, Function.update_eq_self, Function.update_eq_self]

/-- A thread, which has nothing else, gets a node that nobody has. -/
theorem Exclusive.add (h : Exclusive owned) (ha : ∀ k, a ∉ owned k) :
    Exclusive (shareOut owned (owned none) θ [a]) := by
  rw [shareOut, Function.update_eq_self]
  exact h.set (List.nodup_singleton a) fun b hb j _ ↦ by
    rw [List.mem_singleton.mp hb]
    exact ha j

/-- A thread has only some of its nodes left. -/
theorem Exclusive.drop (h : Exclusive owned) (hsub : l'.Sublist (owned (some θ))) :
    Exclusive (shareOut owned (owned none) θ l') := by
  rw [shareOut, Function.update_eq_self]
  exact h.keep hsub

theorem Exclusive.shareOut (h : Exclusive owned) (hnodup : (l ++ l').Nodup)
    (hsub : ∀ a ∈ l ++ l', a ∈ owned none ∨ a ∈ owned (some θ)) :
    Exclusive (shareOut owned l θ l') :=
  h.share (Option.some_ne_none θ).symm hnodup hsub

/-- A thread goes on, and what it and the list have is shared out. -/
theorem Ownership.share (h : Ownership Owns next root places owned) {root' : Option A} {p : P}
    (hchain : Chain next root' l) (howns : Owns next p l')
    (hex : Exclusive (shareOut owned l θ l')) :
    Ownership Owns next root' (Function.update places θ p) (shareOut owned l θ l') where
  chain := by
    rw [shareOut_none]
    exact hchain
  owns θ' := by
    by_cases hθ : θ' = θ
    · subst hθ
      rw [update_self, shareOut_self]
      exact howns
    · rw [update_of_ne hθ, shareOut_of_ne hθ]
      exact h.owns θ'
  exclusive := hex

end Ownership

/-! ## Sums -/

section Total

variable {K M : Type} [AddCommMonoid M] {f : K → M} {m : M}

/-- What all of them have together. -/
def Total (f : K → M) (m : M) : Prop :=
  ∃ ks : Finset K, (∀ k ∉ ks, f k = 0) ∧ ∑ k ∈ ks, f k = m

theorem total_zero : Total (fun _ : K ↦ (0 : M)) 0 := ⟨∅, fun _ _ ↦ rfl, rfl⟩

/-- What all the others have, and what they have together if one of them has something else. -/
theorem Total.split [DecidableEq K] (h : Total f m) (k : K) :
    ∃ r, m = r + f k ∧ ∀ x, Total (Function.update f k x) (r + x) := by
  obtain ⟨ks, hzero, rfl⟩ := h
  have hk : k ∉ ks.erase k := Finset.notMem_erase k ks
  refine ⟨∑ j ∈ ks.erase k, f j, ?_, fun x ↦ ⟨insert k (ks.erase k), fun j hj ↦ ?_, ?_⟩⟩
  · by_cases hks : k ∈ ks
    · rw [Finset.sum_erase_add ks f hks]
    · rw [Finset.erase_eq_of_notMem hks, hzero k hks, add_zero]
  · rw [Finset.mem_insert, not_or, Finset.mem_erase, not_and] at hj
    rw [update_of_ne hj.1, hzero j (hj.2 hj.1)]
  · have hrest : ∑ j ∈ ks.erase k, Function.update f k x j = ∑ j ∈ ks.erase k, f j :=
      Finset.sum_congr rfl fun j hj ↦ update_of_ne (Finset.ne_of_mem_erase hj) _ _
    rw [Finset.sum_insert hk, update_self, hrest, add_comm]

end Total

section Balance

variable {K V : Type} {hands : K → List V} {shared : List V} {come gone : Multiset V}

/-- What has come in is gone, in somebody's hands or on the list that all share. -/
def Balance (hands : K → List V) (shared : List V) (come gone : Multiset V) : Prop :=
  ∃ m, Total (fun k ↦ (hands k : Multiset V)) m ∧ come = gone + m + shared

theorem balance_zero : Balance (fun _ : K ↦ ([] : List V)) [] 0 0 := ⟨0, total_zero, rfl⟩

/-- What is gone, and what is shared, has come. -/
theorem Balance.gone_le (h : Balance hands shared come gone) : gone ≤ come := by
  obtain ⟨m, -, rfl⟩ := h
  rw [add_assoc]
  exact Multiset.le_add_right _ _

/-- It is enough that the changes add up. -/
theorem Balance.move [DecidableEq K] (h : Balance hands shared come gone) {k : K}
    {vs shared' : List V} {come' gone' : Multiset V}
    (heq : come' + (gone + hands k + shared) = come + (gone' + vs + shared')) :
    Balance (update hands k vs) shared' come' gone' := by
  obtain ⟨m, hm, rfl⟩ := h
  obtain ⟨r, rfl, htotal⟩ := hm.split k
  refine ⟨r + vs, ?_, ?_⟩
  · have hupdate := Function.comp_update (fun vs : List V ↦ (vs : Multiset V)) hands k vs
    exact (congrArg (Total · (r + (vs : Multiset V))) hupdate).mpr (htotal vs)
  · refine add_right_cancel (b := gone + (hands k : Multiset V) + (shared : Multiset V))
      (heq.trans ?_)
    abel

end Balance

end Lib
end ManyTasks
