import Mathlib.Computability.RegularExpressions

/-!
# Patterns

The constructs of patterns that regular expressions do not have by themselves: a class of letters,
something optional, and something that is repeated at least so many times.

A class of letters that is repeated matches what has only such letters, and enough of them
(`mem_atLeast_oneOf`).
-/

set_option autoImplicit false

namespace ManyTasks
namespace Lib
namespace Pattern

open RegularExpression

variable {α : Type}

/-- One of these letters. -/
def oneOf (letters : List α) : RegularExpression α := (letters.map char).sum

/-- `P?` -/
def opt (P : RegularExpression α) : RegularExpression α := 1 + P

/-- `P{n,}` -/
def atLeast (n : ℕ) (P : RegularExpression α) : RegularExpression α := P ^ n * P.star

/-- `P+` -/
def many (P : RegularExpression α) : RegularExpression α := atLeast 1 P

variable {letters : List α} {P : RegularExpression α} {n : ℕ} {x : List α}

theorem mem_oneOf : x ∈ (oneOf letters).matches' ↔ ∃ c ∈ letters, x = [c] := by
  induction letters with
  | nil => simp [oneOf]
  | cons c letters ih =>
    have hsum : oneOf (c :: letters) = char c + oneOf letters := rfl
    rw [hsum, matches'_add, Language.mem_add, ih, matches'_char, List.exists_mem_cons_iff]
    rfl

theorem mem_opt : x ∈ (opt P).matches' ↔ x = [] ∨ x ∈ P.matches' := by
  rw [opt, matches'_add, Language.mem_add, matches'_epsilon, Language.mem_one]

/-- As many letters as there are parts of one letter. -/
theorem length_flatten_of_oneOf {parts : List (List α)}
    (h : ∀ y ∈ parts, y ∈ (oneOf letters).matches') :
    parts.flatten.length = parts.length ∧ ∀ c ∈ parts.flatten, c ∈ letters := by
  induction parts with
  | nil => simp
  | cons y parts ih =>
    obtain ⟨hy, hparts⟩ := List.forall_mem_cons.mp h
    obtain ⟨hlength, hmem⟩ := ih hparts
    obtain ⟨c, hc, rfl⟩ := mem_oneOf.mp hy
    refine ⟨by simp [hlength], fun d hd ↦ ?_⟩
    rcases List.mem_append.mp hd with hd | hd
    · rw [List.mem_singleton.mp hd]
      exact hc
    · exact hmem d hd

/-- **Repeated letters.** -/
theorem mem_atLeast_oneOf :
    x ∈ (atLeast n (oneOf letters)).matches' ↔ n ≤ x.length ∧ ∀ c ∈ x, c ∈ letters := by
  rw [atLeast, matches'_mul, matches'_pow, matches'_star, Language.mem_mul]
  constructor
  · rintro ⟨a, ha, b, hb, rfl⟩
    obtain ⟨parts, rfl, rfl, hparts⟩ := Language.mem_pow.mp ha
    obtain ⟨parts', rfl, hparts'⟩ := Language.mem_kstar.mp hb
    obtain ⟨hlength, hmem⟩ := length_flatten_of_oneOf hparts
    obtain ⟨-, hmem'⟩ := length_flatten_of_oneOf hparts'
    refine ⟨by rw [List.length_append]; omega, fun c hc ↦ ?_⟩
    exact (List.mem_append.mp hc).elim (hmem c) (hmem' c)
  · rintro ⟨hle, hmem⟩
    have hparts (y : List α) (hy : y ⊆ x) :
        y = (y.map fun c ↦ [c]).flatten ∧ ∀ z ∈ y.map (fun c ↦ [c]),
          z ∈ (oneOf letters).matches' := by
      refine ⟨(List.flatMap_singleton' y).symm, fun z hz ↦ ?_⟩
      obtain ⟨c, hc, rfl⟩ := List.mem_map.mp hz
      exact mem_oneOf.mpr ⟨c, hmem c (hy hc), rfl⟩
    obtain ⟨htake, htake'⟩ := hparts (x.take n) (List.take_subset n x)
    obtain ⟨hdrop, hdrop'⟩ := hparts (x.drop n) (List.drop_subset n x)
    refine ⟨x.take n, Language.mem_pow.mpr ⟨_, htake, ?_, htake'⟩, x.drop n,
      Language.mem_kstar.mpr ⟨_, hdrop, hdrop'⟩, List.take_append_drop n x⟩
    rw [List.length_map, List.length_take]
    omega

theorem mem_many_oneOf :
    x ∈ (many (oneOf letters)).matches' ↔ x ≠ [] ∧ ∀ c ∈ x, c ∈ letters := by
  rw [many, mem_atLeast_oneOf, Nat.one_le_iff_ne_zero, ne_eq, List.length_eq_zero_iff]

end Pattern
end Lib
end ManyTasks
