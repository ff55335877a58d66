import ManyTasks.Lib.Decimal
import ManyTasks.Matrix3.Linear
import Mathlib.Algebra.MvPolynomial.CommRing

/-!
# Where coefficients overflow

The values of the variables are computed modulo `2 ^ 64`, but the coefficients of an expression are
`int64_t`s, whose overflow is not defined.  `operations` are the results that the additions,
subtractions, products and negations of the three `Evaluate` should have.

An expression is also a polynomial over the integers, with its literals as they are stored.
`operations_fit_iff` says that every result is in the range if and only if the coefficients of the
polynomials of all subexpressions are that `Evaluate` comes to.
-/

set_option autoImplicit false

namespace ManyTasks
namespace Matrix3

open MvPolynomial
open Lib (FitsInt64 toInt_add_of_fits toInt_sub_of_fits toInt_mul_of_fits)

/-! ## The operations -/

/-- What is done when a value has been returned. -/
def after {α : Type} (x : Except Error α) (f : α → List ℤ) : List ℤ :=
  match x with
  | .ok a => f a
  | .error _ => []

section

variable {vars : List Name}

/-- The coefficients as integers. -/
def ints (coeffs : Coeffs vars) : Fin (vars.length + 1) → ℤ := fun i ↦ (coeffs.get i).toInt

/-- The products of `Mul::Evaluate`. -/
def products (coeffs other : Coeffs vars) : List ℤ :=
  let (coeffs, other) := if hasVar coeffs then (other, coeffs) else (coeffs, other)
  if hasVar coeffs then []
  else (List.finRange (vars.length + 1)).map fun i ↦ ints other i * ints coeffs (Fin.last _)

end

/-- The mathematical results of the operations on coefficients that the `Evaluate` methods
perform. -/
def operations (vars : List Name) : Expression → List ℤ
  | .empty => []
  | .number _ => []
  | .var _ => []
  | .neg constant_ =>
    operations vars constant_ ++
      after (evaluate vars constant_) fun coeffs ↦
        (List.finRange (vars.length + 1)).map fun i ↦ ints coeffs i * -1
  | .paren sum_ => operations vars sum_
  | .mul mul_ constant_ =>
    operations vars mul_ ++
      after (evaluate vars mul_) fun coeffs ↦
        operations vars constant_ ++
          after (evaluate vars constant_) fun other ↦ products coeffs other
  | .add sum_ mul_ =>
    operations vars sum_ ++
      after (evaluate vars sum_) fun coeffs ↦
        operations vars mul_ ++
          after (evaluate vars mul_) fun other ↦
            (List.finRange (vars.length + 1)).map fun i ↦ ints coeffs i + ints other i
  | .sub sum_ mul_ =>
    operations vars sum_ ++
      after (evaluate vars sum_) fun coeffs ↦
        operations vars mul_ ++
          after (evaluate vars mul_) fun other ↦
            (List.finRange (vars.length + 1)).map fun i ↦ ints coeffs i - ints other i

/-! ## Polynomials over the integers -/

/-- The polynomial of an expression: parentheses expanded, like monomials collected.  A literal is
the `int64_t` that it is stored as. -/
noncomputable def polyInt : Expression → MvPolynomial Name ℤ
  | .empty => 0
  | .number number => C number.toInt64.toInt
  | .var var_name => X var_name
  | .neg e => -polyInt e
  | .paren e => polyInt e
  | .mul l r => polyInt l * polyInt r
  | .add l r => polyInt l + polyInt r
  | .sub l r => polyInt l - polyInt r

/-- The coefficients are in the range of `int64_t`. -/
def CoeffsFit (p : MvPolynomial Name ℤ) : Prop := ∀ m, FitsInt64 (p.coeff m)

/-- It has no variables. -/
def IsScalar (p : MvPolynomial Name ℤ) : Prop := ∃ k, p = C k

/-- Every product has a factor that is a constant, so that there is no exception. -/
def Expression.evaluates : Expression → Prop
  | .empty => True
  | .number _ => True
  | .var _ => True
  | .neg e => e.evaluates
  | .paren e => e.evaluates
  | .mul l r => l.evaluates ∧ r.evaluates ∧ (IsScalar (polyInt l) ∨ IsScalar (polyInt r))
  | .add l r => l.evaluates ∧ r.evaluates
  | .sub l r => l.evaluates ∧ r.evaluates

/-- The polynomials of the subexpressions have coefficients in the range, as far as the expression
is evaluated: what is on the right is not if there is an exception on the left. -/
def Expression.inRange : Expression → Prop
  | .empty => True
  | .number _ => True
  | .var _ => True
  | .neg e => e.inRange ∧ (e.evaluates → CoeffsFit (polyInt (.neg e)))
  | .paren e => e.inRange
  | .mul l r =>
    l.inRange ∧ (l.evaluates → r.inRange) ∧
      ((Expression.mul l r).evaluates → CoeffsFit (polyInt (.mul l r)))
  | .add l r =>
    l.inRange ∧ (l.evaluates → r.inRange) ∧
      ((Expression.add l r).evaluates → CoeffsFit (polyInt (.add l r)))
  | .sub l r =>
    l.inRange ∧ (l.evaluates → r.inRange) ∧
      ((Expression.sub l r).evaluates → CoeffsFit (polyInt (.sub l r)))

/-! ## The coefficients of a linear polynomial -/

section Represents

variable {vars : List Name} {c d : Fin (vars.length + 1) → ℤ} {p q : MvPolynomial Name ℤ}

/-- The polynomial has these coefficients, the last one without a variable. -/
def Represents (vars : List Name) (c : Fin (vars.length + 1) → ℤ)
    (p : MvPolynomial Name ℤ) : Prop :=
  p = ∑ i : Fin vars.length, C (c i.castSucc) * X (vars.get i) + C (c (Fin.last _))

theorem represents_constant (k : ℤ) :
    Represents vars (fun i ↦ if i = Fin.last _ then k else 0) (C k) := by
  rw [Represents, if_pos rfl, Finset.sum_eq_zero, zero_add]
  intro i _
  rw [if_neg (Fin.castSucc_lt_last i).ne, C_0, zero_mul]

theorem represents_var (j : Fin vars.length) :
    Represents vars (fun i ↦ if i = j.castSucc then 1 else 0) (X (vars.get j)) := by
  rw [Represents, if_neg (Fin.castSucc_lt_last j).ne', C_0, add_zero, Finset.sum_eq_single j]
  · rw [if_pos rfl, C_1, one_mul]
  · intro i _ hij
    rw [if_neg fun h ↦ hij (Fin.castSucc_injective _ h), C_0, zero_mul]
  · exact fun h ↦ absurd (Finset.mem_univ j) h

theorem Represents.add (hp : Represents vars c p) (hq : Represents vars d q) :
    Represents vars (fun i ↦ c i + d i) (p + q) := by
  rw [Represents] at hp hq ⊢
  simp only [C_add, add_mul, Finset.sum_add_distrib]
  rw [hp, hq]
  ring

theorem Represents.mul (hp : Represents vars c p) (k : ℤ) :
    Represents vars (fun i ↦ c i * k) (p * C k) := by
  rw [Represents] at hp ⊢
  simp only [C_mul]
  rw [hp, add_mul, Finset.sum_mul]
  refine congrArg₂ (· + ·) (Finset.sum_congr rfl fun i _ ↦ ?_) rfl
  ring

theorem Represents.neg (hp : Represents vars c p) : Represents vars (fun i ↦ c i * -1) (-p) := by
  have h := hp.mul (-1)
  rwa [C_neg, C_1, mul_neg_one] at h

theorem Represents.sub (hp : Represents vars c p) (hq : Represents vars d q) :
    Represents vars (fun i ↦ c i - d i) (p - q) := by
  have h := hp.add hq.neg
  simp only [mul_neg_one, ← sub_eq_add_neg] at h
  exact h

theorem Represents.coeff_eq (hp : Represents vars c p) (m : Name →₀ ℕ) :
    p.coeff m = ∑ i : Fin vars.length,
      (if Finsupp.single (vars.get i) 1 = m then c i.castSucc else 0) +
      if 0 = m then c (Fin.last _) else 0 := by
  rw [Represents] at hp
  rw [hp, coeff_add, coeff_C, coeff_sum]
  refine congrArg₂ (· + ·) (Finset.sum_congr rfl fun i _ ↦ ?_) rfl
  rw [coeff_C_mul, coeff_X, mul_ite, mul_one, mul_zero]

theorem Represents.coeff_var (hnd : vars.Nodup) (hp : Represents vars c p) (j : Fin vars.length) :
    p.coeff (Finsupp.single (vars.get j) 1) = c j.castSucc := by
  rw [hp.coeff_eq, Finset.sum_eq_single j]
  · rw [if_pos rfl, if_neg, add_zero]
    exact fun h ↦ one_ne_zero (Finsupp.single_eq_zero.mp h.symm)
  · intro i _ hij
    refine if_neg fun h ↦ hij ?_
    have hname := (Finsupp.single_left_inj one_ne_zero).mp h
    exact (List.Nodup.get_inj_iff hnd).mp hname
  · exact fun h ↦ absurd (Finset.mem_univ j) h

theorem Represents.coeff_zero (hp : Represents vars c p) : p.coeff 0 = c (Fin.last _) := by
  rw [hp.coeff_eq, if_pos rfl, Finset.sum_eq_zero, zero_add]
  intro i _
  exact if_neg fun h ↦ one_ne_zero (Finsupp.single_eq_zero.mp h)

/-- There are no other coefficients. -/
theorem Represents.coeffsFit_iff (hnd : vars.Nodup) (hp : Represents vars c p) :
    CoeffsFit p ↔ ∀ i, FitsInt64 (c i) := by
  constructor
  · intro h i
    induction i using Fin.lastCases with
    | last => exact hp.coeff_zero ▸ h 0
    | cast j => exact hp.coeff_var hnd j ▸ h _
  · intro h m
    by_cases hvar : ∃ j, Finsupp.single (vars.get j) 1 = m
    · obtain ⟨j, rfl⟩ := hvar
      rw [hp.coeff_var hnd]
      exact h _
    · rw [hp.coeff_eq, Finset.sum_eq_zero fun i _ ↦ if_neg fun hi ↦ hvar ⟨i, hi⟩, zero_add]
      split
      · exact h _
      · exact ⟨by decide, by decide⟩

theorem Represents.isScalar_iff (hnd : vars.Nodup) (hp : Represents vars c p) :
    IsScalar p ↔ ∀ i : Fin vars.length, c i.castSucc = 0 := by
  constructor
  · rintro ⟨k, hk⟩ i
    have hne : 0 ≠ Finsupp.single (vars.get i) 1 :=
      fun h ↦ one_ne_zero (Finsupp.single_eq_zero.mp h.symm)
    rw [← hp.coeff_var hnd, hk, coeff_C, if_neg hne]
  · intro h
    refine ⟨c (Fin.last _), ?_⟩
    rw [Represents, Finset.sum_eq_zero fun i _ ↦ by rw [h i, C_0, zero_mul], zero_add] at hp
    exact hp

end Represents

/-! ## Evaluation without overflow -/

section Exact

variable {vars : List Name} {e l r : Expression} {coeffs other : Coeffs vars}

theorem forall_mem_after {α : Type} {x : Except Error α} {f : α → List ℤ} {P : ℤ → Prop} :
    (∀ z ∈ after x f, P z) ↔ ∀ a, x = .ok a → ∀ z ∈ f a, P z := by
  cases x with
  | ok a => exact ⟨fun h b hb ↦ Except.ok.inj hb ▸ h, fun h ↦ h a rfl⟩
  | error err => exact iff_of_true (fun z hz ↦ absurd hz List.not_mem_nil) fun a ha ↦ by cases ha

theorem forall_mem_map_finRange {n : ℕ} {f : Fin n → ℤ} {P : ℤ → Prop} :
    (∀ z ∈ (List.finRange n).map f, P z) ↔ ∀ i, P (f i) := by
  simp only [List.mem_map, List.mem_finRange, true_and, forall_exists_index,
    forall_apply_eq_imp_iff]

theorem ints_mk (coeffs : Coeffs vars) {k : ℕ} (h : k < vars.length + 1) :
    ints coeffs ⟨k, h⟩ = coeffs[k].toInt := rfl

theorem hasVar_eq_false_iff_ints :
    hasVar coeffs = false ↔ ∀ i : Fin vars.length, ints coeffs i.castSucc = 0 := by
  rw [hasVar, List.any_eq_false]
  constructor
  · intro h i
    have hi : coeffs[i.castSucc] = 0 := by simpa using h i (List.mem_finRange i)
    exact congrArg Int64.toInt hi
  · intro h i _
    have hi : coeffs[i.castSucc] = 0 := Int64.toInt_inj.mp (h i)
    simp [hi]

/-- The coefficients are those of the polynomial over the integers, or there is an exception. -/
structure Exact (vars : List Name) (e : Expression) : Prop where
  returns : e.evaluates → ∃ coeffs, evaluate vars e = .ok coeffs ∧
    Represents vars (ints coeffs) (polyInt e)
  throws : ¬e.evaluates → ∃ err, evaluate vars e = .error err

theorem Exact.evaluates (h : Exact vars e) (hcoeffs : evaluate vars e = .ok coeffs) :
    e.evaluates := by
  by_contra hnot
  obtain ⟨err, herr⟩ := h.throws hnot
  rw [herr] at hcoeffs
  cases hcoeffs

theorem Exact.represents (h : Exact vars e) (hcoeffs : evaluate vars e = .ok coeffs) :
    Represents vars (ints coeffs) (polyInt e) := by
  obtain ⟨coeffs', hcoeffs', hrep⟩ := h.returns (h.evaluates hcoeffs)
  rw [hcoeffs] at hcoeffs'
  exact Except.ok.inj hcoeffs' ▸ hrep

/-- The operations are in the range if the polynomials are, and then the coefficients are exact. -/
structure Sound (vars : List Name) (e : Expression) : Prop where
  iff : (∀ z ∈ operations vars e, FitsInt64 z) ↔ e.inRange
  exact : e.inRange → Exact vars e

/-- Two operands, and what is done with their coefficients. -/
theorem operands_iff {combine : Coeffs vars → Coeffs vars → List ℤ} {P : Prop} (hl : Sound vars l)
    (hr : Sound vars r)
    (hcombine : l.inRange → r.inRange → ∀ coeffs other, evaluate vars l = .ok coeffs →
      evaluate vars r = .ok other → ((∀ z ∈ combine coeffs other, FitsInt64 z) ↔ P)) :
    (∀ z ∈ operations vars l ++ after (evaluate vars l) fun coeffs ↦
        operations vars r ++ after (evaluate vars r) fun other ↦ combine coeffs other,
          FitsInt64 z) ↔
      l.inRange ∧ (l.evaluates → r.inRange) ∧ (l.evaluates ∧ r.evaluates → P) := by
  rw [List.forall_mem_append, hl.iff, forall_mem_after]
  refine and_congr_right fun hrange ↦ ?_
  have hexact := hl.exact hrange
  constructor
  · intro h
    have hright (hlev : l.evaluates) : r.inRange := by
      obtain ⟨coeffs, hcoeffs, -⟩ := hexact.returns hlev
      exact hr.iff.mp (List.forall_mem_append.mp (h coeffs hcoeffs)).1
    refine ⟨hright, fun hev ↦ ?_⟩
    obtain ⟨hlev, hrev⟩ := hev
    obtain ⟨coeffs, hcoeffs, -⟩ := hexact.returns hlev
    obtain ⟨other, hother, -⟩ := (hr.exact (hright hlev)).returns hrev
    have hrest := (List.forall_mem_append.mp (h coeffs hcoeffs)).2
    refine (hcombine hrange (hright hlev) coeffs other hcoeffs hother).mp ?_
    exact forall_mem_after.mp hrest other hother
  · rintro ⟨hright, hP⟩ coeffs hcoeffs
    have hlev := hexact.evaluates hcoeffs
    refine List.forall_mem_append.mpr
      ⟨hr.iff.mpr (hright hlev), forall_mem_after.mpr fun other hother ↦ ?_⟩
    have hrev := (hr.exact (hright hlev)).evaluates hother
    exact (hcombine hrange (hright hlev) coeffs other hcoeffs hother).mpr (hP ⟨hlev, hrev⟩)

theorem ints_map_mul {x : Int64} (h : ∀ i, FitsInt64 (ints coeffs i * x.toInt)) :
    ints (coeffs.map (· * x) : Coeffs vars) = fun i ↦ ints coeffs i * x.toInt := by
  funext i
  obtain ⟨k, hk⟩ := i
  rw [ints_mk, Vector.getElem_map]
  exact toInt_mul_of_fits (h ⟨k, hk⟩)

theorem ints_add (h : ∀ i, FitsInt64 (ints coeffs i + ints other i)) :
    ints (Vector.zipWith (· + ·) coeffs other : Coeffs vars) = fun i ↦ ints coeffs i +
      ints other i := by
  funext i
  obtain ⟨k, hk⟩ := i
  rw [ints_mk, Vector.getElem_zipWith]
  exact toInt_add_of_fits (h ⟨k, hk⟩)

theorem ints_sub (h : ∀ i, FitsInt64 (ints coeffs i - ints other i)) :
    ints (Vector.zipWith (· - ·) coeffs other : Coeffs vars) = fun i ↦
      ints coeffs i - ints other i := by
  funext i
  obtain ⟨k, hk⟩ := i
  rw [ints_mk, Vector.getElem_zipWith]
  exact toInt_sub_of_fits (h ⟨k, hk⟩)

theorem Sound.neg (hnd : vars.Nodup) (h : Sound vars e) : Sound vars (.neg e) := by
  constructor
  · rw [operations, List.forall_mem_append, h.iff, forall_mem_after, Expression.inRange]
    refine and_congr_right fun hrange ↦ ?_
    have hexact := h.exact hrange
    constructor
    · intro hfits hev
      obtain ⟨coeffs, hcoeffs, hrep⟩ := hexact.returns hev
      exact (hrep.neg.coeffsFit_iff hnd).mpr (forall_mem_map_finRange.mp (hfits coeffs hcoeffs))
    · intro hfits coeffs hcoeffs
      have hrep := (hexact.represents hcoeffs).neg
      exact forall_mem_map_finRange.mpr
        ((hrep.coeffsFit_iff hnd).mp (hfits (hexact.evaluates hcoeffs)))
  · rintro ⟨hrange, hfits⟩
    constructor
    · intro hev
      obtain ⟨coeffs, hcoeffs, hrep⟩ := (h.exact hrange).returns hev
      have hfit := (hrep.neg.coeffsFit_iff hnd).mp (hfits hev)
      have hneg : (-1 : Int64).toInt = -1 := by decide
      refine ⟨coeffs.map (· * -1), by rw [evaluate, hcoeffs]; rfl, ?_⟩
      rw [← hneg] at hfit
      rw [ints_map_mul hfit, hneg]
      exact hrep.neg
    · intro hev
      obtain ⟨err, herr⟩ := (h.exact hrange).throws hev
      exact ⟨err, by rw [evaluate, herr]; rfl⟩

/-- A sum or a difference: one operation for each coefficient. -/
theorem Sound.zipWith (hnd : vars.Nodup) (hl : Sound vars l) (hr : Sound vars r) {op : ℤ → ℤ → ℤ}
    {combine : Coeffs vars → Coeffs vars → Coeffs vars}
    (hops : operations vars e = operations vars l ++ after (evaluate vars l) fun coeffs ↦
      operations vars r ++ after (evaluate vars r) fun other ↦
        (List.finRange (vars.length + 1)).map fun i ↦ op (ints coeffs i) (ints other i))
    (heval : evaluate vars e =
      evaluate vars l >>= fun coeffs ↦ evaluate vars r >>= fun other ↦ .ok (combine coeffs other))
    (hrange : e.inRange ↔
      l.inRange ∧ (l.evaluates → r.inRange) ∧ (l.evaluates ∧ r.evaluates → CoeffsFit (polyInt e)))
    (hev : e.evaluates ↔ l.evaluates ∧ r.evaluates)
    (hcombine : ∀ coeffs other, (∀ i, FitsInt64 (op (ints coeffs i) (ints other i))) →
      ints (combine coeffs other) = fun i ↦ op (ints coeffs i) (ints other i))
    (hrep : ∀ c d, Represents vars c (polyInt l) → Represents vars d (polyInt r) →
      Represents vars (fun i ↦ op (c i) (d i)) (polyInt e)) : Sound vars e := by
  constructor
  · rw [hops, hrange]
    refine operands_iff hl hr fun hlrange hrrange coeffs other hcoeffs hother ↦ ?_
    have hboth := hrep _ _ ((hl.exact hlrange).represents hcoeffs)
        ((hr.exact hrrange).represents hother)
    exact forall_mem_map_finRange.trans (hboth.coeffsFit_iff hnd).symm
  · rw [hrange]
    rintro ⟨hlrange, hrrange, hfits⟩
    have hlexact := hl.exact hlrange
    constructor
    · rw [hev]
      rintro ⟨hlev, hrev⟩
      obtain ⟨coeffs, hcoeffs, hlrep⟩ := hlexact.returns hlev
      obtain ⟨other, hother, hrrep⟩ := (hr.exact (hrrange hlev)).returns hrev
      have hboth := hrep _ _ hlrep hrrep
      refine ⟨combine coeffs other, by rw [heval, hcoeffs, hother]; rfl, ?_⟩
      rw [hcombine _ _ ((hboth.coeffsFit_iff hnd).mp (hfits ⟨hlev, hrev⟩))]
      exact hboth
    · rw [hev, heval]
      intro hnot
      by_cases hlev : l.evaluates
      · obtain ⟨coeffs, hcoeffs, -⟩ := hlexact.returns hlev
        obtain ⟨err, herr⟩ := (hr.exact (hrrange hlev)).throws fun hrev ↦ hnot ⟨hlev, hrev⟩
        exact ⟨err, by rw [hcoeffs, herr]; rfl⟩
      · obtain ⟨err, herr⟩ := hlexact.throws hlev
        exact ⟨err, by rw [herr]; rfl⟩

theorem Sound.add (hnd : vars.Nodup) (hl : Sound vars l) (hr : Sound vars r) :
    Sound vars (.add l r) :=
  hl.zipWith hnd hr (by rw [operations]) (by rw [evaluate]; rfl) Iff.rfl Iff.rfl
    (fun _ _ ↦ ints_add) fun _ _ hp hq ↦ hp.add hq

theorem Sound.sub (hnd : vars.Nodup) (hl : Sound vars l) (hr : Sound vars r) :
    Sound vars (.sub l r) :=
  hl.zipWith hnd hr (by rw [operations]) (by rw [evaluate]; rfl) Iff.rfl Iff.rfl
    (fun _ _ ↦ ints_sub) fun _ _ hp hq ↦ hp.sub hq

theorem eq_C_of_not_hasVar {p : MvPolynomial Name ℤ} (hp : Represents vars (ints coeffs) p)
    (h : hasVar coeffs = false) : p = C (ints coeffs (Fin.last _)) := by
  rw [Represents, Finset.sum_eq_zero
    fun i _ ↦ by rw [hasVar_eq_false_iff_ints.mp h i, C_0, zero_mul], zero_add] at hp
  exact hp

/-- A product either has no constant factor, or is one factor scaled by the other. -/
theorem mul_cases (hnd : vars.Nodup) (hcoeffs : evaluate vars l = .ok coeffs)
    (hother : evaluate vars r = .ok other) (hl : Represents vars (ints coeffs) (polyInt l))
    (hr : Represents vars (ints other) (polyInt r)) :
    (¬(IsScalar (polyInt l) ∨ IsScalar (polyInt r)) ∧ products coeffs other = [] ∧
      ∃ err, evaluate vars (.mul l r) = .error err) ∨
    (IsScalar (polyInt l) ∨ IsScalar (polyInt r)) ∧ ∃ factor scalar : Coeffs vars,
      products coeffs other =
        (List.finRange (vars.length + 1)).map (fun i ↦ ints factor i * ints scalar (Fin.last _)) ∧
      evaluate vars (.mul l r) = .ok (factor.map (· * scalar[Fin.last _])) ∧
      Represents vars (fun i ↦ ints factor i * ints scalar (Fin.last _)) (polyInt (.mul l r)) := by
  have hlscalar := (hl.isScalar_iff hnd).trans hasVar_eq_false_iff_ints.symm
  have hrscalar := (hr.isScalar_iff hnd).trans hasVar_eq_false_iff_ints.symm
  rw [evaluate_mul hcoeffs hother, hlscalar, hrscalar, polyInt]
  by_cases hlvar : hasVar coeffs = true
  · by_cases hrvar : hasVar other = true
    · refine Or.inl ⟨by simp [hlvar, hrvar], by simp [products, hlvar, hrvar],
        .matrixException "Non constant product", ?_⟩
      rw [if_pos hlvar, if_pos hrvar]
    · have hright := Bool.eq_false_iff.mpr hrvar
      refine Or.inr ⟨Or.inr hright, coeffs, other, ?_, ?_, ?_⟩
      · simp [products, hlvar, hright, ints]
      · rw [if_pos hlvar, if_neg hrvar]
      · rw [eq_C_of_not_hasVar hr hright]
        exact hl.mul _
  · have hleft := Bool.eq_false_iff.mpr hlvar
    refine Or.inr ⟨Or.inl hleft, other, coeffs, ?_, ?_, ?_⟩
    · simp [products, hleft, ints]
    · rw [if_neg hlvar]
    · rw [eq_C_of_not_hasVar hl hleft, mul_comm]
      exact hr.mul _

theorem Sound.mul (hnd : vars.Nodup) (hl : Sound vars l) (hr : Sound vars r) :
    Sound vars (.mul l r) := by
  constructor
  · rw [operations, operands_iff hl hr (P := IsScalar (polyInt l) ∨ IsScalar (polyInt r) →
      CoeffsFit (polyInt (.mul l r))), Expression.inRange, Expression.evaluates]
    · simp only [and_imp]
    · intro hlrange hrrange coeffs other hcoeffs hother
      have hlrep := (hl.exact hlrange).represents hcoeffs
      have hrrep := (hr.exact hrrange).represents hother
      obtain ⟨hnot, hnil, -⟩ | ⟨hscalar, factor, scalar, hprods, -, hrep⟩ :=
        mul_cases hnd hcoeffs hother hlrep hrrep
      · rw [hnil]
        exact iff_of_true (List.forall_mem_nil _) fun h ↦ absurd h hnot
      · rw [hprods, forall_mem_map_finRange, ← hrep.coeffsFit_iff hnd]
        exact ⟨fun h _ ↦ h, fun h ↦ h hscalar⟩
  · rintro ⟨hlrange, hrrange, hfits⟩
    have hlexact := hl.exact hlrange
    constructor
    · rintro ⟨hlev, hrev, hscalar⟩
      obtain ⟨coeffs, hcoeffs, hlrep⟩ := hlexact.returns hlev
      obtain ⟨other, hother, hrrep⟩ := (hr.exact (hrrange hlev)).returns hrev
      obtain ⟨hnot, -⟩ | ⟨-, factor, scalar, -, hmul, hrep⟩ :=
        mul_cases hnd hcoeffs hother hlrep hrrep
      · exact absurd hscalar hnot
      · refine ⟨_, hmul, ?_⟩
        rw [ints_map_mul (x := scalar[Fin.last vars.length])
          ((hrep.coeffsFit_iff hnd).mp (hfits ⟨hlev, hrev, hscalar⟩))]
        exact hrep
    · intro hnot
      by_cases hlev : l.evaluates
      · obtain ⟨coeffs, hcoeffs, hlrep⟩ := hlexact.returns hlev
        have hrexact := hr.exact (hrrange hlev)
        by_cases hrev : r.evaluates
        · obtain ⟨other, hother, hrrep⟩ := hrexact.returns hrev
          obtain ⟨-, -, herr⟩ | ⟨hscalar, -⟩ := mul_cases hnd hcoeffs hother hlrep hrrep
          · exact herr
          · exact absurd ⟨hlev, hrev, hscalar⟩ hnot
        · obtain ⟨err, herr⟩ := hrexact.throws hrev
          exact ⟨err, by rw [evaluate, hcoeffs, herr]; rfl⟩
      · obtain ⟨err, herr⟩ := hlexact.throws hlev
        exact ⟨err, by rw [evaluate, herr]; rfl⟩

/-- A constant has its coefficients without an operation. -/
theorem Sound.of_returns (hops : operations vars e = []) (hrange : e.inRange) (hev : e.evaluates)
    (hreturns : ∃ coeffs, evaluate vars e = .ok coeffs ∧
      Represents vars (ints coeffs) (polyInt e)) :
    Sound vars e := by
  refine ⟨?_, fun _ ↦ ⟨fun _ ↦ hreturns, fun hnot ↦ absurd hev hnot⟩⟩
  rw [hops]
  exact iff_of_true (List.forall_mem_nil _) hrange

theorem Sound.var {name : Name} (hname : name ∈ vars) : Sound vars (.var name) := by
  obtain ⟨j, hj⟩ := varAt_of_mem hname
  refine Sound.of_returns (by rw [operations]) trivial trivial ⟨_, by rw [evaluate, hj]; rfl, ?_⟩
  rw [polyInt, ← varAt_get hj]
  convert represents_var j using 1
  funext i
  obtain ⟨k, hk⟩ := i
  rw [ints_mk, Vector.getElem_ofFn, apply_ite Int64.toInt]
  rfl

theorem represents_number (x : Int64) :
    Represents vars (ints (Vector.ofFn fun i ↦ if i = Fin.last _ then x else 0 : Coeffs vars))
      (C x.toInt) := by
  convert represents_constant x.toInt using 1
  funext i
  obtain ⟨k, hk⟩ := i
  rw [ints_mk, Vector.getElem_ofFn, apply_ite Int64.toInt]
  rfl

theorem represents_zero : Represents vars (ints (Vector.replicate _ 0 : Coeffs vars)) 0 := by
  have hzero (i : Fin (vars.length + 1)) : ints (Vector.replicate _ 0 : Coeffs vars) i = 0 := by
    obtain ⟨k, hk⟩ := i
    rw [ints_mk, Vector.getElem_replicate]
    rfl
  rw [Represents, hzero, C_0, add_zero, Finset.sum_eq_zero]
  intro i _
  rw [hzero, C_0, zero_mul]

/-- By induction on the expression. -/
theorem sound (hnd : vars.Nodup) (hknown : ∀ name ∈ e.names, name ∈ vars) : Sound vars e := by
  induction e with
  | empty =>
    refine Sound.of_returns (by rw [operations]) trivial trivial ⟨_, by rw [evaluate], ?_⟩
    exact represents_zero
  | number number =>
    refine Sound.of_returns (by rw [operations]) trivial trivial ⟨_, by rw [evaluate], ?_⟩
    exact represents_number number.toInt64
  | var name => exact Sound.var (hknown name (List.mem_singleton_self name))
  | neg e ih => exact (ih hknown).neg hnd
  | paren e ih =>
    have hsound := ih hknown
    exact ⟨hsound.iff, fun hrange ↦ ⟨(hsound.exact hrange).returns, (hsound.exact hrange).throws⟩⟩
  | mul l r ihl ihr =>
    obtain ⟨hl, hr⟩ := List.forall_mem_append.mp hknown
    exact (ihl hl).mul hnd (ihr hr)
  | add l r ihl ihr =>
    obtain ⟨hl, hr⟩ := List.forall_mem_append.mp hknown
    exact (ihl hl).add hnd (ihr hr)
  | sub l r ihl ihr =>
    obtain ⟨hl, hr⟩ := List.forall_mem_append.mp hknown
    exact (ihl hl).sub hnd (ihr hr)

end Exact

/-! ## What the parser accepts -/

section Known

variable {vars : List Name} {e : Expression} {line rest : Line}

/-- If there is an expression, its variables have a number. -/
def Known (vars : List Name) (x : Except Error (Expression × Line)) : Prop :=
  ∀ e rest, x = .ok (e, rest) → ∀ name ∈ e.names, name ∈ vars

theorem Known.ok (h : ∀ name ∈ e.names, name ∈ vars) (rest : Line) :
    Known vars (.ok (e, rest)) := by
  intro e' rest' heq
  cases heq
  exact h

theorem Known.error (err : Error) : Known vars (.error err) := by
  intro e rest heq
  cases heq

theorem Known.bind {α : Type} {x : Except Error α} {f : α → Except Error (Expression × Line)}
    (hf : ∀ a, x = .ok a → Known vars (f a)) : Known vars (x >>= f) := by
  intro e rest heq
  obtain ⟨a, ha, hfa⟩ := Lib.bind_eq_ok.mp heq
  exact hf a ha e rest hfa

/-- All five parsers, by induction on the fuel. -/
theorem parser_known (vars : List Name) (fuel : ℕ) :
    (∀ line, Known vars (constantFrom vars fuel line)) ∧
    (∀ line, Known vars (mulFrom vars fuel line)) ∧
    (∀ e line, (∀ name ∈ e.names, name ∈ vars) → Known vars (mulLoop vars fuel e line)) ∧
    (∀ line, Known vars (sumFrom vars fuel line)) ∧
    (∀ e line, (∀ name ∈ e.names, name ∈ vars) → Known vars (sumLoop vars fuel e line)) := by
  induction fuel with
  | zero =>
    simp only [constantFrom, mulFrom, mulLoop, sumFrom, sumLoop, Known.error, implies_true,
      and_self]
  | succ fuel ih =>
    obtain ⟨hconst, hmul, hmulLoop, hsum, hsumLoop⟩ := ih
    have hnone : ∀ name ∈ Expression.empty.names, name ∈ vars := List.forall_mem_nil _
    refine ⟨fun line ↦ ?_, fun line ↦ ?_, fun e line he ↦ ?_, fun line ↦ ?_, fun e line he ↦ ?_⟩
    · rw [constantFrom]
      refine Known.bind fun token _ ↦ ?_
      cases token with
      | kNumber number => exact Known.bind fun line _ ↦ Known.ok (List.forall_mem_nil _) line
      | kVar name =>
        refine Known.bind fun j hj ↦ Known.bind fun line _ ↦ Known.ok ?_ line
        rw [Expression.names, List.forall_mem_singleton, ← varAt_get hj]
        exact List.get_mem vars j
      | kFor | kEqv | kTab | kBadToken | kNewLine | kEnd => exact Known.ok hnone _
      | kSymbol symbol =>
        simp only
        split_ifs
        · refine Known.bind fun line _ ↦ Known.bind fun res hres ↦ ?_
          exact Known.ok (e := .neg res.1) (hconst line res.1 res.2 hres) _
        · refine Known.bind fun line _ ↦ Known.bind fun res hres ↦ Known.bind fun token _ ↦ ?_
          split_ifs
          · exact Known.error _
          · exact Known.bind fun line' _ ↦ Known.ok (e :=
              .paren res.1) (hsum line res.1 res.2 hres) line'
        · exact Known.ok hnone _
    · rw [mulFrom]
      exact Known.bind fun res hres ↦ hmulLoop _ _ (hconst line _ _ hres)
    · rw [mulLoop]
      refine Known.bind fun token _ ↦ ?_
      split_ifs
      · refine Known.bind fun line _ ↦ Known.bind fun res hres ↦ hmulLoop _ _ ?_
        exact List.forall_mem_append.mpr ⟨he, hconst line _ _ hres⟩
      · exact Known.ok he _
    · rw [sumFrom]
      exact Known.bind fun res hres ↦ hsumLoop _ _ (hmul line _ _ hres)
    · rw [sumLoop]
      refine Known.bind fun token _ ↦ ?_
      split_ifs
      · refine Known.bind fun line _ ↦ Known.bind fun res hres ↦ hsumLoop _ _ ?_
        exact List.forall_mem_append.mpr ⟨he, hmul line _ _ hres⟩
      · refine Known.bind fun line _ ↦ Known.bind fun res hres ↦ hsumLoop _ _ ?_
        exact List.forall_mem_append.mpr ⟨he, hmul line _ _ hres⟩
      · exact Known.ok he _

/-- **No coefficient overflows** if and only if no polynomial that is come to has a coefficient out
of range. -/
theorem operations_fit_iff (hnd : vars.Nodup) (hparse : sumCtor vars line = .ok (e, rest)) :
    (∀ z ∈ operations vars e, FitsInt64 z) ↔ e.inRange := by
  have hknown := (parser_known vars (3 * line.length + 3)).2.2.2.1 line e rest hparse
  exact (sound hnd hknown).iff

/-- `x * 2 - 1` -/
theorem operations_fit_iff_linear :
    (Expression.sub (.mul (.var ['x'.toUInt8]) (.number 2)) (.number 1)).inRange := by
  have hparse : sumCtor [['x'.toUInt8]] [.kVar ['x'.toUInt8], .kSymbol '*'.toUInt8, .kNumber 2,
      .kSymbol '-'.toUInt8, .kNumber 1, .kNewLine] =
      .ok (.sub (.mul (.var ['x'.toUInt8]) (.number 2)) (.number 1), [.kNewLine]) := by
        decide +kernel
  exact (operations_fit_iff (List.nodup_singleton _) hparse).mp (by decide +kernel)

/-- `a = 9223372036854775807 + 1` -/
theorem sum_overflows :
    sumCtor [['a'.toUInt8]] [.kNumber 9223372036854775807, .kSymbol '+'.toUInt8, .kNumber 1,
      .kNewLine] =
        .ok (.add (.number 9223372036854775807) (.number 1), [.kNewLine]) ∧
      ¬∀ z ∈ operations [['a'.toUInt8]] (.add (.number 9223372036854775807) (.number 1)),
        FitsInt64 z := by
  decide +kernel

end Known

end Matrix3
end ManyTasks
