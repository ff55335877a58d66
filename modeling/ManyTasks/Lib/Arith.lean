import Mathlib.Data.List.Basic
import Mathlib.Data.Nat.Init

/-!
# Arithmetic expressions

`Arith` is the grammar of arithmetic expressions: operands, binary operators with an operand on
each side, a minus in front of an operand, and parentheses.  The grammar is ambiguous, which does
not matter to the question what an expression is.

`scan` answers it from left to right.  It counts the parentheses that are open and knows whether
an operand has just been read, and there is never a choice (`arith_iff`).  A *loose* scan lets
operands be missing, and it finds only two things wrong: parentheses that are not balanced, and two
operands with nothing between them.
-/

set_option autoImplicit false

namespace ManyTasks
namespace Lib

/-- What a token is in an expression. -/
inductive Piece where
  | operand
  | minus
  | operator
  | left
  | right
  | other
deriving DecidableEq, Repr

/-- Is it an operator between two operands? -/
def Piece.isBinary : Piece → Bool
  | .minus | .operator => true
  | _ => false

/-- The arithmetic expressions. -/
inductive Arith : List Piece → Prop
  | operand : Arith [.operand]
  | neg {e : List Piece} (he : Arith e) : Arith (.minus :: e)
  | paren {e : List Piece} (he : Arith e) : Arith (.left :: (e ++ [.right]))
  | binary {l r : List Piece} {op : Piece} (hop : op.isBinary = true) (hl : Arith l)
      (hr : Arith r) : Arith (l ++ op :: r)

/-- Read an expression, `depth` parentheses being open, an operand having just been read or not.
A loose reader does not mind an operand that is missing. -/
def scan (loose : Bool) : Bool → ℕ → List Piece → Bool
  | after, depth, [] => (after || loose) && depth == 0
  | after, depth, .operand :: pieces => !after && scan loose true depth pieces
  | _, depth, .minus :: pieces => scan loose false depth pieces
  | after, depth, .operator :: pieces => (after || loose) && scan loose false depth pieces
  | after, depth, .left :: pieces => !after && scan loose false (depth + 1) pieces
  | _, 0, .right :: _ => false
  | after, depth + 1, .right :: pieces => (after || loose) && scan loose true depth pieces
  | _, _, .other :: _ => false

section

variable {loose after : Bool} {depth : ℕ} {pieces e rest : List Piece}

@[simp] theorem scan_nil (loose after : Bool) (depth : ℕ) :
    scan loose after depth [] = ((after || loose) && depth == 0) := rfl

@[simp] theorem scan_operand (loose after : Bool) (depth : ℕ) (pieces : List Piece) :
    scan loose after depth (.operand :: pieces) = (!after && scan loose true depth pieces) := rfl

@[simp] theorem scan_minus (loose after : Bool) (depth : ℕ) (pieces : List Piece) :
    scan loose after depth (.minus :: pieces) = scan loose false depth pieces := rfl

@[simp] theorem scan_operator (loose after : Bool) (depth : ℕ) (pieces : List Piece) :
    scan loose after depth (.operator :: pieces)
      = ((after || loose) && scan loose false depth pieces) := rfl

@[simp] theorem scan_left (loose after : Bool) (depth : ℕ) (pieces : List Piece) :
    scan loose after depth (.left :: pieces)
      = (!after && scan loose false (depth + 1) pieces) := rfl

@[simp] theorem scan_right_zero (loose after : Bool) (pieces : List Piece) :
    scan loose after 0 (.right :: pieces) = false := rfl

@[simp] theorem scan_right (loose after : Bool) (depth : ℕ) (pieces : List Piece) :
    scan loose after (depth + 1) (.right :: pieces)
      = ((after || loose) && scan loose true depth pieces) := rfl

@[simp] theorem scan_other (loose after : Bool) (depth : ℕ) (pieces : List Piece) :
    scan loose after depth (.other :: pieces) = false := rfl

/-- A binary operator goes on with its second operand. -/
theorem scan_binary {op : Piece} (hop : op.isBinary = true) (loose : Bool) (depth : ℕ)
    (pieces : List Piece) :
    scan loose true depth (op :: pieces) = scan loose false depth pieces := by
  cases op with
  | minus => rfl
  | operator => rfl
  | operand | left | right | other => cases hop

/-- A loose reader takes what a strict one takes. -/
theorem scan_loose (h : scan false after depth pieces = true) :
    scan true after depth pieces = true := by
  induction pieces generalizing after depth with
  | nil =>
    simp only [scan_nil, Bool.or_false, Bool.and_eq_true] at h
    rw [scan_nil, Bool.or_true, Bool.true_and, h.2]
  | cons piece pieces ih =>
    cases piece with
    | operand | left =>
      simp only [scan_operand, scan_left, Bool.and_eq_true] at h ⊢
      exact ⟨h.1, ih h.2⟩
    | minus => exact ih h
    | operator =>
      simp only [scan_operator, Bool.and_eq_true] at h ⊢
      exact ⟨Bool.or_true after, ih h.2⟩
    | right =>
      cases depth with
      | zero => exact h
      | succ depth =>
        simp only [scan_right, Bool.and_eq_true] at h ⊢
        exact ⟨Bool.or_true after, ih h.2⟩
    | other => exact h

/-- **An expression is read as one operand.** -/
theorem scan_append (he : Arith e) (loose : Bool) (depth : ℕ) (rest : List Piece) :
    scan loose false depth (e ++ rest) = scan loose true depth rest := by
  induction he generalizing depth rest with
  | operand => rfl
  | neg he ih => exact ih depth rest
  | paren he ih =>
    rw [List.cons_append, List.append_assoc, scan_left, ih, List.singleton_append, scan_right]
    rfl
  | binary hop hl hr ihl ihr =>
    rw [List.append_assoc, List.cons_append, ihl, scan_binary hop, ihr]

/-- An expression ends here: there is nothing more, or a parenthesis is closed. -/
def AtEnd (rest : List Piece) : Prop := ∀ piece ∈ rest.head?, piece = .right

/-- An expression goes on as far as it can. -/
theorem exists_longest (he : Arith e) (h : scan false true depth rest = true)
    (ih : ∀ pieces : List Piece, pieces.length < rest.length →
      ∀ depth, scan false false depth pieces = true →
        ∃ e rest, pieces = e ++ rest ∧ Arith e ∧ scan false true depth rest = true ∧ AtEnd rest) :
    ∃ e' rest', e ++ rest = e' ++ rest' ∧ Arith e' ∧ scan false true depth rest' = true
      ∧ AtEnd rest' := by
  cases rest with
  | nil => exact ⟨e, [], rfl, he, h, nofun⟩
  | cons piece rest =>
    by_cases hop : piece.isBinary = true
    · rw [scan_binary hop] at h
      obtain ⟨r, rest, rfl, hr, hscan, hends⟩ := ih rest (Nat.lt_succ_self _) depth h
      refine ⟨e ++ piece :: r, rest, ?_, .binary hop he hr, hscan, hends⟩
      rw [List.append_assoc, List.cons_append]
    · cases piece with
      | minus | operator => exact absurd rfl hop
      | operand | left | other => cases h
      | right =>
        refine ⟨e, .right :: rest, rfl, he, h, ?_⟩
        intro piece hpiece
        exact (Option.some.inj hpiece).symm

theorem exists_of_scan (h : scan false false depth pieces = true) :
    ∃ e rest, pieces = e ++ rest ∧ Arith e ∧ scan false true depth rest = true ∧ AtEnd rest := by
  induction hn : pieces.length using Nat.strong_induction_on generalizing pieces depth with
  | _ n ih =>
    subst hn
    replace ih (tail : List Piece) (hlen : tail.length < pieces.length) (depth : ℕ)
        (h : scan false false depth tail = true) := ih tail.length hlen h rfl
    cases pieces with
    | nil => cases h
    | cons piece pieces =>
      cases piece with
      | operand =>
        exact exists_longest .operand h fun tail hlen ↦ ih tail (Nat.lt_succ_of_lt hlen)
      | minus =>
        obtain ⟨e, rest, rfl, he, hscan, hends⟩ := ih pieces (Nat.lt_succ_self _) depth h
        exact ⟨.minus :: e, rest, rfl, .neg he, hscan, hends⟩
      | left =>
        obtain ⟨e, rest, rfl, he, hscan, hends⟩ := ih pieces (Nat.lt_succ_self _) (depth + 1) h
        -- an expression in parentheses ends with the parenthesis
        cases rest with
        | nil => cases hscan
        | cons piece rest =>
          cases hends piece rfl
          have hshorter (tail : List Piece) (hlen : tail.length < rest.length) :
              tail.length < (Piece.left :: (e ++ .right :: rest)).length := by
            simp only [List.length_cons, List.length_append]
            omega
          have hscan : scan false true depth rest = true := hscan
          obtain ⟨e', rest', heq, he'⟩ := exists_longest (.paren he) hscan
            fun tail hlen ↦ ih tail (hshorter tail hlen)
          refine ⟨e', rest', ?_, he'⟩
          rw [← heq, List.cons_append, List.append_assoc]
          rfl
      | operator | other => cases h
      | right =>
        cases depth with
        | zero => cases h
        | succ depth => cases h

/-- **The expressions are what a strict reader takes.** -/
theorem arith_iff (pieces : List Piece) : Arith pieces ↔ scan false false 0 pieces = true := by
  constructor
  · intro h
    rw [← List.append_nil pieces, scan_append h]
    rfl
  · intro h
    obtain ⟨e, rest, rfl, he, hscan, hends⟩ := exists_of_scan h
    cases rest with
    | nil => rwa [List.append_nil]
    | cons piece rest =>
      cases hends piece rfl
      cases hscan

end

end Lib
end ManyTasks
