import ManyTasks.Matrix3.Trees
import Mathlib.Algebra.MvPolynomial.Degrees

/-!
# Linear expressions

An expression is a polynomial in its variables, with coefficients modulo `2 ^ 64`, and an
assignment is meant to assign a linear one.

The interpreter does not look at this polynomial.  It looks at the two factors of each product and
wants one of them to be a constant (`Expression.scales`).  What it accepts is linear
(`isLinear_of_scales`), but what is linear need not be accepted, if products cancel.
-/

set_option autoImplicit false

open scoped UInt64.CommRing

namespace ManyTasks
namespace Matrix3

open Matrix MvPolynomial

/-! ## Polynomials -/

/-- The polynomial of an expression: parentheses expanded, like monomials collected. -/
noncomputable def poly : Expression → MvPolynomial Name UInt64
  | .empty => 0
  | .number number => C number
  | .var var_name => X var_name
  | .neg e => -poly e
  | .paren e => poly e
  | .mul l r => poly l * poly r
  | .add l r => poly l + poly r
  | .sub l r => poly l - poly r

/-- It is a constant. -/
def IsNumber (e : Expression) : Prop := ∃ c, poly e = C c

/-- It is a linear combination of variables and a constant. -/
def IsLinear (e : Expression) : Prop := (poly e).totalDegree ≤ 1

/-- In every product there is a factor that is a constant. -/
def Expression.scales : Expression → Prop
  | .empty | .number _ | .var _ => True
  | .neg e | .paren e => e.scales
  | .add l r | .sub l r => l.scales ∧ r.scales
  | .mul l r => l.scales ∧ r.scales ∧ (IsNumber l ∨ IsNumber r)

section

variable {vars : List Name} {e : Expression} {coeffs : Coeffs vars}

/-- The value is the value of the polynomial. -/
theorem eval_poly (env : Env) (e : Expression) : eval env (poly e) = value env e := by
  induction e with
  | empty => rw [poly, map_zero, value]
  | number number => rw [poly, eval_C, value]
  | var name => rw [poly, eval_X, value]
  | neg e ih => rw [poly, map_neg, ih, value]
  | paren e ih => rw [poly, ih, value]
  | mul l r ihl ihr => rw [poly, map_mul, ihl, ihr, value]
  | add l r ihl ihr => rw [poly, map_add, ihl, ihr, value]
  | sub l r ihl ihr => rw [poly, map_sub, ihl, ihr, value]

/-- The variables as polynomials, then `1`. -/
noncomputable def polyVec (vars : List Name) : Fin (vars.length + 1) → MvPolynomial Name UInt64 :=
  Fin.snoc (fun i ↦ X (vars.get i)) 1

/-- The polynomial that coefficients stand for. -/
noncomputable def affine (vars : List Name) (f : Fin (vars.length + 1) → UInt64) :
    MvPolynomial Name UInt64 :=
  polyVec vars ⬝ᵥ (C ∘ f)

theorem affine_single (i : Fin (vars.length + 1)) (x : UInt64) :
    affine vars (Pi.single i x) = polyVec vars i * C x := by
  have hsingle : (C ∘ Pi.single i x : Fin (vars.length + 1) → MvPolynomial Name UInt64)
      = Pi.single i (C x) := by
    funext j
    rw [Function.comp_apply, Pi.single_apply, Pi.single_apply]
    split_ifs
    · rfl
    · exact C_0
  rw [affine, hsingle, dotProduct_single]

theorem affine_zero : affine vars 0 = 0 := by
  have hzero : (C ∘ 0 : Fin (vars.length + 1) → MvPolynomial Name UInt64) = 0 := funext fun _ ↦ C_0
  rw [affine, hzero, dotProduct_zero]

theorem affine_add (f g : Fin (vars.length + 1) → UInt64) :
    affine vars (f + g) = affine vars f + affine vars g := by
  rw [affine, affine, affine, ← dotProduct_add]
  congr 1
  funext i
  exact C_add

theorem affine_sub (f g : Fin (vars.length + 1) → UInt64) :
    affine vars (f - g) = affine vars f - affine vars g := by
  rw [affine, affine, affine, ← dotProduct_sub]
  congr 1
  funext i
  exact map_sub C _ _

theorem affine_smul (x : UInt64) (f : Fin (vars.length + 1) → UInt64) :
    affine vars (x • f) = C x * affine vars f := by
  rw [affine, affine, ← smul_eq_mul, ← dotProduct_smul]
  congr 1
  funext i
  exact C_mul

theorem polyVec_last : polyVec vars (Fin.last _) = 1 := by
  simp [polyVec]

theorem polyVec_castSucc (i : Fin vars.length) : polyVec vars i.castSucc = X (vars.get i) := by
  simp [polyVec]

theorem affine_of_not_hasVar (h : hasVar coeffs = false) :
    affine vars (words coeffs) = C (words coeffs (Fin.last _)) := by
  rw [words_of_not_hasVar h, affine_single, polyVec_last, one_mul, Pi.single_eq_same]

/-- **Coefficients are the polynomial.** -/
theorem poly_evaluate (h : evaluate vars e = .ok coeffs) : poly e = affine vars (words coeffs) := by
  induction e generalizing coeffs with
  | empty =>
    cases h
    rw [words_zero, affine_zero, poly]
  | number k =>
    cases h
    rw [words_number, affine_single, polyVec_last, one_mul, poly]
  | var name =>
    obtain ⟨j, hj, h⟩ := Lib.bind_eq_ok.1 h
    cases h
    rw [words_var, affine_single, polyVec_castSucc, varAt_get hj, C_1, mul_one, poly]
  | neg e ih =>
    obtain ⟨c, hc, h⟩ := Lib.bind_eq_ok.1 h
    cases h
    have hneg : (-1 : Int64).toUInt64 = -1 := rfl
    rw [words_map_mul, affine_smul, ← ih hc, poly, hneg, map_neg C, C_1, neg_one_mul]
  | paren e ih => exact ih h
  | add l r ihl ihr =>
    obtain ⟨c, hc, h⟩ := Lib.bind_eq_ok.1 h
    obtain ⟨o, ho, h⟩ := Lib.bind_eq_ok.1 h
    cases h
    rw [words_add, affine_add, ← ihl hc, ← ihr ho, poly]
  | sub l r ihl ihr =>
    obtain ⟨c, hc, h⟩ := Lib.bind_eq_ok.1 h
    obtain ⟨o, ho, h⟩ := Lib.bind_eq_ok.1 h
    cases h
    rw [words_sub, affine_sub, ← ihl hc, ← ihr ho, poly]
  | mul l r ihl ihr =>
    obtain ⟨c, hc, -⟩ := Lib.bind_eq_ok.1 h
    obtain ⟨o, ho, -⟩ := Lib.bind_eq_ok.1 (Lib.bind_eq_ok.1 h).choose_spec.2
    rw [evaluate_mul hc ho] at h
    rw [poly, ihl hc, ihr ho]
    split_ifs at h with hl hr
    · cases h
      rw [words_map_mul, affine_smul, mul_comm, affine_of_not_hasVar (by simpa using hr)]
      rfl
    · cases h
      rw [words_map_mul, affine_smul, affine_of_not_hasVar (by simpa using hl)]
      rfl

/-- **A constant has no coefficients.** -/
theorem isNumber_iff (hnd : vars.Nodup) (h : evaluate vars e = .ok coeffs) :
    IsNumber e ↔ hasVar coeffs = false := by
  constructor
  · rintro ⟨c, hc⟩
    refine (hasVar_eq_false_iff hnd h).2 fun env env' ↦ ?_
    rw [← eval_poly, ← eval_poly, hc, eval_C, eval_C]
  · intro hvar
    exact ⟨words coeffs (Fin.last _), (poly_evaluate h).trans (affine_of_not_hasVar hvar)⟩

/-- What has coefficients is linear. -/
theorem totalDegree_affine_le (f : Fin (vars.length + 1) → UInt64) :
    (affine vars f).totalDegree ≤ 1 := by
  refine (totalDegree_finsetSum _ _).trans (Finset.sup_le fun i _ ↦ ?_)
  have hvec : (polyVec vars i).totalDegree ≤ 1 := by
    induction i using Fin.lastCases with
    | last =>
      rw [polyVec_last, totalDegree_one]
      exact Nat.zero_le 1
    | cast i =>
      have hnontrivial : Nontrivial UInt64 := ⟨0, 1, by decide⟩
      rw [polyVec_castSucc]
      exact (totalDegree_X _).le
  have hconst : ((C ∘ f) i : MvPolynomial Name UInt64).totalDegree = 0 := totalDegree_C _
  have hmul := totalDegree_mul (polyVec vars i) ((C ∘ f) i)
  omega

/-- **What the interpreter evaluates.** -/
theorem evaluate_ok_iff (hnd : vars.Nodup) (hknown : ∀ name ∈ e.names, name ∈ vars) :
    (∃ coeffs, evaluate vars e = .ok coeffs) ↔ e.scales := by
  have hboth {l r : Expression} (hknown : ∀ name ∈ l.names ++ r.names, name ∈ vars) :=
    List.forall_mem_append.1 hknown
  induction e with
  | empty | number => exact iff_of_true ⟨_, rfl⟩ trivial
  | var name =>
    obtain ⟨j, hj⟩ := varAt_of_mem (hknown name (List.mem_singleton_self name))
    rw [evaluate, hj]
    exact iff_of_true ⟨_, rfl⟩ trivial
  | neg e ih =>
    have hiff : (∃ coeffs, evaluate vars e = .ok coeffs) ↔ e.scales := ih hknown
    rw [Expression.scales, ← hiff]
    constructor
    · rintro ⟨coeffs, h⟩
      obtain ⟨c, hc, -⟩ := Lib.bind_eq_ok.1 h
      exact ⟨c, hc⟩
    · rintro ⟨coeffs, hc⟩
      rw [evaluate, hc]
      exact ⟨_, rfl⟩
  | paren e ih => exact ih hknown
  | add l r ihl ihr | sub l r ihl ihr =>
    obtain ⟨hknownl, hknownr⟩ := hboth hknown
    have hl : (∃ coeffs, evaluate vars l = .ok coeffs) ↔ l.scales := ihl hknownl
    have hr : (∃ coeffs, evaluate vars r = .ok coeffs) ↔ r.scales := ihr hknownr
    rw [Expression.scales, ← hl, ← hr]
    constructor
    · rintro ⟨coeffs, h⟩
      obtain ⟨c, hc, h⟩ := Lib.bind_eq_ok.1 h
      obtain ⟨o, ho, -⟩ := Lib.bind_eq_ok.1 h
      exact ⟨⟨c, hc⟩, ⟨o, ho⟩⟩
    · rintro ⟨⟨c, hc⟩, ⟨o, ho⟩⟩
      rw [evaluate, hc, ho]
      exact ⟨_, rfl⟩
  | mul l r ihl ihr =>
    obtain ⟨hknownl, hknownr⟩ := hboth hknown
    have hl : (∃ coeffs, evaluate vars l = .ok coeffs) ↔ l.scales := ihl hknownl
    have hr : (∃ coeffs, evaluate vars r = .ok coeffs) ↔ r.scales := ihr hknownr
    rw [Expression.scales, ← hl, ← hr]
    constructor
    · rintro ⟨coeffs, h⟩
      obtain ⟨c, hc, h'⟩ := Lib.bind_eq_ok.1 h
      obtain ⟨o, ho, -⟩ := Lib.bind_eq_ok.1 h'
      refine ⟨⟨c, hc⟩, ⟨o, ho⟩, ?_⟩
      rw [isNumber_iff hnd hc, isNumber_iff hnd ho]
      rw [evaluate_mul hc ho] at h
      split_ifs at h with hcvar hovar
      · exact Or.inr (Bool.eq_false_iff.2 hovar)
      · exact Or.inl (Bool.eq_false_iff.2 hcvar)
    · rintro ⟨⟨c, hc⟩, ⟨o, ho⟩, hnumber⟩
      rw [isNumber_iff hnd hc, isNumber_iff hnd ho] at hnumber
      rw [evaluate_mul hc ho]
      obtain hvar | hvar := hnumber
      · rw [if_neg (Bool.eq_false_iff.1 hvar)]
        exact ⟨_, rfl⟩
      · rw [if_neg (Bool.eq_false_iff.1 hvar)]
        split_ifs
        · exact ⟨_, rfl⟩
        · exact ⟨_, rfl⟩

/-- What is accepted is linear. -/
theorem isLinear_of_scales (h : e.scales) : IsLinear e := by
  obtain ⟨coeffs, hcoeffs⟩ := (evaluate_ok_iff (List.nodup_dedup e.names)
    fun name hname ↦ List.mem_dedup.2 hname).2 h
  rw [IsLinear, poly_evaluate hcoeffs]
  exact totalDegree_affine_le _

end

/-! ## Runs -/

/-- A line of the text is an assignment of an expression, and there is nothing wrong with the other
lines. -/
structure AssignmentIn (text : List UInt8) (source : SourceLine) (op : AssignOp) (e : Expression) :
    Prop where
  mem : source ∈ tokenLines text
  sum : op ≠ .times
  lexemes : ∃ var_name expr, var_name ≠ forWord ∧ Derives .sum expr e
    ∧ source.lexemes = .word var_name :: .assign op :: expr
  others : ∀ other ∈ tokenLines text, other.lexemes ≠ source.lexemes →
    Taken (gatherVars (tokenize text)) other.line
  nested : Nested (.upTo 0) ((tokenLines text).map SourceLine.shape)

section

variable {text : List UInt8} {source : SourceLine} {op : AssignOp} {e : Expression}

/-- The line is read if there is a constant factor in every product. -/
theorem AssignmentIn.taken_iff (h : AssignmentIn text source op e) :
    Taken (gatherVars (tokenize text)) source.line ↔ e.scales := by
  obtain ⟨hmem, htimes, ⟨var_name, expr, hname, hderives, hlexemes⟩, -, -⟩ := h
  have hknown := known_of_mem hmem
  rw [taken_iff_of_derives hlexemes hname htimes hderives hknown]
  refine evaluate_ok_iff (gatherVars_nodup _) fun name hname' ↦ hknown name ?_
  obtain ⟨hfor, hmem'⟩ := mem_names_lineOf.1 (names_of_derives hderives name hname')
  rw [hlexemes]
  exact mem_names_lineOf.2 ⟨hfor, List.mem_cons_of_mem _ (List.mem_cons_of_mem _ hmem')⟩

/-- **The assignments `Run` accepts** are linear, but it wants more: a constant factor in every
product. -/
theorem accepts_iff (h : AssignmentIn text source op e) :
    ((∃ result, run text = .ok result) ↔ e.scales) ∧ (e.scales → IsLinear e) := by
  refine ⟨?_, isLinear_of_scales⟩
  rw [run_ok_iff_tokenLines, and_iff_left h.nested, ← h.taken_iff]
  constructor
  · intro hlines
    exact hlines source h.mem
  · intro hsource other hother
    by_cases hsame : other.lexemes = source.lexemes
    · rw [Taken, content_line] at hsource ⊢
      rwa [hsame]
    · exact h.others other hother hsame

/-- A text of one line, which is not indented. -/
theorem assignmentIn_of_singleton {var_name : Name} {expr : List Lexeme}
    (hsplit : text.splitOn '\n'.toUInt8 = [text]) (hname : var_name ≠ forWord) (hop : op ≠ .times)
    (hderives : Derives .sum expr e)
    (hsource : sourceLine text = ⟨0, .word var_name :: .assign op :: expr⟩) :
    AssignmentIn text (sourceLine text) op e := by
  have hlines : tokenLines text = [sourceLine text] := by
    rw [tokenLines, sourceLines, hsplit, List.map_singleton, hsource]
    rfl
  have hlexemes := congrArg SourceLine.lexemes hsource
  refine ⟨hlines ▸ List.mem_singleton_self _, hop, ⟨var_name, expr, hname, hderives, hlexemes⟩,
    fun other hother hne ↦ ?_, ?_⟩
  · rw [hlines] at hother
    exact absurd (congrArg SourceLine.lexemes (List.mem_singleton.1 hother)) hne
  · have hloop : (sourceLine text).isLoop = false := by
      rw [SourceLine.isLoop, hlexemes]
      exact beq_eq_false_iff_ne.2 fun heq ↦ hname (Lexeme.word.inj (Option.some.inj heq))
    rw [hlines, List.map_singleton, SourceLine.shape, hloop, hsource]
    exact ⟨(Nat.zero_div 4).le, trivial⟩

end

/-- The text `a=(b-b)*c`. -/
def cancelText : List UInt8 := [97, 61, 40, 98, 45, 98, 41, 42, 99]

/-- The tree of `(b-b)*c`. -/
def cancelTree : Expression :=
  .mul (.paren (.sub (.var [98]) (.var [98]))) (.var [99])

theorem assignmentIn_cancelText :
    AssignmentIn cancelText (sourceLine cancelText) .set cancelTree := by
  let b : List Lexeme := [.word [98]]
  have hsource : sourceLine cancelText = ⟨0, .word [97] :: .assign .set
      :: ((.symbol 40 :: (b ++ .symbol 45 :: b ++ [.symbol 41])) ++
        .symbol 42 :: [.word [99]])⟩ := by
    decide +kernel
  have hsplit : cancelText.splitOn '\n'.toUInt8 = [cancelText] := by decide +kernel
  have hb : Derives .factor [.word [98]] (.var [98]) := .var (by decide)
  have hc : Derives .factor [.word [99]] (.var [99]) := .var (by decide)
  exact assignmentIn_of_singleton hsplit (by decide) (by decide)
    (.product (.mul (.factor (.paren (.sub (.product (.factor hb)) (.factor hb)))) hc)) hsource

/-- A factor may have variables, if they cancel in it. -/
theorem accepts_iff_cancelText :
    ((∃ result, run cancelText = .ok result) ↔ cancelTree.scales)
      ∧ (cancelTree.scales → IsLinear cancelTree) :=
  accepts_iff assignmentIn_cancelText

/-- The text `a=b*c-b*c`. -/
def productsText : List UInt8 := [97, 61, 98, 42, 99, 45, 98, 42, 99]

/-- The tree of `b*c-b*c`. -/
def productsTree : Expression :=
  .sub (.mul (.var [98]) (.var [99])) (.mul (.var [98]) (.var [99]))

theorem assignmentIn_productsText :
    AssignmentIn productsText (sourceLine productsText) .set productsTree := by
  let product : List Lexeme := .word [98] :: .symbol 42 :: [.word [99]]
  have hsource : sourceLine productsText =
      ⟨0, .word [97] :: .assign .set :: (product ++ .symbol 45 :: product)⟩ := by
    decide +kernel
  have hsplit : productsText.splitOn '\n'.toUInt8 = [productsText] := by decide +kernel
  have hb : Derives .factor [.word [98]] (.var [98]) := .var (by decide)
  have hc : Derives .factor [.word [99]] (.var [99]) := .var (by decide)
  exact assignmentIn_of_singleton hsplit (by decide) (by decide)
    (.sub (.product (.mul (.factor hb) hc)) (.mul (.factor hb) hc)) hsource

/-- Products that cancel each other are linear, and are not accepted. -/
theorem not_accepts_productsText :
    AssignmentIn productsText (sourceLine productsText) .set productsTree ∧ IsLinear productsTree
      ∧ ¬ ∃ result, run productsText = .ok result := by
  refine ⟨assignmentIn_productsText, ?_, ?_⟩
  · have hzero : poly productsTree = 0 := sub_self _
    rw [IsLinear, hzero, totalDegree_zero]
    exact Nat.zero_le 1
  · rintro ⟨result, h⟩
    have hnone : (run productsText).toOption.isSome = false := by decide +kernel
    rw [h] at hnone
    cases hnone

end Matrix3
end ManyTasks
