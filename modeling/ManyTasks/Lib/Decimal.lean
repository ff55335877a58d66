import Mathlib.Algebra.Group.Int.Defs
import Mathlib.Algebra.Group.Nat.Defs
import Mathlib.Data.Int.Order.Basic
import Mathlib.Data.List.TakeWhile
import Mathlib.Tactic.Push

/-!
# Decimal text

Integers printed in decimal and read back, as bytes.  `printInt` is what `std::to_string` prints:
no leading zero, a minus sign for a negative number and no other sign.  `stoll` is `std::stoll`
in the C locale: it skips leading white space, takes an optional sign and as many digits as there
are, fails if there are none or if the number does not fit in 64 bits, and otherwise returns the
number together with how many bytes it read.

Printing is one text for each number, reading accepts many:

* `stoll_printInt`: what was printed is read back, in full;
* `stoll_eq_ok_length_iff`: a text is read in full exactly when it is an `IsIntText`, white space,
  sign and digits;
* `isCanonical_iff`: a text is printed for some number exactly when it `IsCanonical`.
-/

set_option autoImplicit false

namespace ManyTasks
namespace Lib

/-! ## Digits -/

/-- The byte of a decimal digit. -/
def digitByte (d : ℕ) : UInt8 := UInt8.ofNat (48 + d)

/-- Is this byte a decimal digit? -/
def isDigit (b : UInt8) : Bool := 48 ≤ b && b ≤ 57

/-- The value of a digit. -/
def digitVal (b : UInt8) : ℕ := b.toNat - 48

/-- `isspace` in the C locale. -/
def isSpace (b : UInt8) : Bool := b == 32 || (9 ≤ b && b ≤ 13)

theorem isDigit_iff {b : UInt8} : isDigit b = true ↔ 48 ≤ b.toNat ∧ b.toNat ≤ 57 := by
  simp [isDigit, UInt8.le_iff_toNat_le]

theorem toNat_digitByte {d : ℕ} (h : d < 10) : (digitByte d).toNat = 48 + d := by
  rw [digitByte, UInt8.toNat_ofNat']
  omega

theorem isDigit_digitByte {d : ℕ} (h : d < 10) : isDigit (digitByte d) = true := by
  rw [isDigit_iff, toNat_digitByte h]
  omega

theorem digitVal_digitByte {d : ℕ} (h : d < 10) : digitVal (digitByte d) = d := by
  rw [digitVal, toNat_digitByte h]
  omega

theorem digitByte_digitVal {b : UInt8} (h : isDigit b = true) : digitByte (digitVal b) = b := by
  rw [isDigit_iff] at h
  apply UInt8.toNat_inj.1
  rw [toNat_digitByte (by rw [digitVal]; omega), digitVal]
  omega

theorem digitVal_lt {b : UInt8} (h : isDigit b = true) : digitVal b < 10 := by
  rw [isDigit_iff] at h
  rw [digitVal]
  omega

/-- A digit is no white space, and no sign either. -/
theorem isDigit_ne {b : UInt8} (h : isDigit b = true) : isSpace b = false ∧ b ≠ 43 ∧ b ≠ 45 := by
  rw [isDigit_iff] at h
  refine ⟨?_, ?_, ?_⟩
  · simp only [isSpace, Bool.or_eq_false_iff, beq_eq_false_iff_ne, Bool.and_eq_false_iff,
      decide_eq_false_iff_not, UInt8.le_iff_toNat_le]
    exact ⟨by rintro rfl; simp at h, Or.inr (by simp; omega)⟩
  · rintro rfl; simp at h
  · rintro rfl; simp at h

/-! ## Numerals -/

/-- The number a sequence of digits continues to, read after `acc`. -/
def numeral (acc : ℕ) (ds : List UInt8) : ℕ := ds.foldl (fun n d ↦ n * 10 + digitVal d) acc

/-- The decimal digits of a natural number. -/
def printNat (n : ℕ) : List UInt8 :=
  if n < 10 then [digitByte n] else printNat (n / 10) ++ [digitByte (n % 10)]

/-- `std::to_string` of a signed integer. -/
def printInt (z : ℤ) : List UInt8 :=
  if z < 0 then 45 :: printNat z.natAbs else printNat z.natAbs

theorem numeral_append (acc : ℕ) (ds es : List UInt8) :
    numeral acc (ds ++ es) = numeral (numeral acc ds) es := by
  simp [numeral]

theorem numeral_printNat (n : ℕ) : numeral 0 (printNat n) = n := by
  fun_induction printNat n with
  | case1 n h => simp [numeral, digitVal_digitByte h]
  | case2 n h ih =>
    rw [numeral_append, ih]
    simp only [numeral, List.foldl_cons, List.foldl_nil,
      digitVal_digitByte (Nat.mod_lt n (by simp))]
    omega

theorem isDigit_of_mem_printNat {n : ℕ} {b : UInt8} (h : b ∈ printNat n) : isDigit b = true := by
  fun_induction printNat n with
  | case1 n hn =>
    rw [List.mem_singleton] at h
    rw [h]
    exact isDigit_digitByte hn
  | case2 n hn ih =>
    rcases List.mem_append.1 h with h | h
    · exact ih h
    · rw [List.mem_singleton] at h
      rw [h]
      exact isDigit_digitByte (Nat.mod_lt n (by simp))

theorem printNat_ne_nil (n : ℕ) : printNat n ≠ [] := by
  rw [printNat]
  split <;> simp

theorem length_printNat_le {n k : ℕ} (h : n < 10 ^ (k + 1)) : (printNat n).length ≤ k + 1 := by
  induction k generalizing n with
  | zero => rw [printNat, if_pos (by simpa using h)]; rfl
  | succ k ih =>
    rw [printNat]
    split
    · simp
    · have hdiv : n / 10 < 10 ^ (k + 1) := by
        rw [Nat.div_lt_iff_lt_mul (by simp), ← Nat.pow_succ]
        exact h
      have := ih hdiv
      rw [List.length_append, List.length_singleton]
      omega

theorem mem_printInt {z : ℤ} {b : UInt8} (h : b ∈ printInt z) : b = 45 ∨ isDigit b = true := by
  rw [printInt] at h
  split at h
  · rcases List.mem_cons.1 h with h | h
    · exact .inl h
    · exact .inr (isDigit_of_mem_printNat h)
  · exact .inr (isDigit_of_mem_printNat h)

theorem length_printInt_le {z : ℤ} {k : ℕ} (h : z.natAbs < 10 ^ (k + 1)) :
    (printInt z).length ≤ k + 2 := by
  have := length_printNat_le h
  rw [printInt]
  split
  · rw [List.length_cons]; omega
  · omega

/-- Printing undoes reading, from a number that is not zero: a digit read after it is the last
digit printed. -/
theorem printNat_numeral {acc : ℕ} (hacc : 0 < acc) {ds : List UInt8}
    (hds : ∀ d ∈ ds, isDigit d = true) : printNat (numeral acc ds) = printNat acc ++ ds := by
  induction ds generalizing acc with
  | nil => rw [numeral, List.foldl_nil, List.append_nil]
  | cons d ds ih =>
    have hd := hds d (by simp)
    have hlt := digitVal_lt hd
    have hstep : printNat (acc * 10 + digitVal d) = printNat acc ++ [d] := by
      rw [printNat, if_neg (by omega), show (acc * 10 + digitVal d) / 10 = acc by omega,
        show (acc * 10 + digitVal d) % 10 = digitVal d by omega, digitByte_digitVal hd]
    have hrest := ih (show 0 < acc * 10 + digitVal d by omega) fun e he ↦ hds e (by simp [he])
    calc printNat (numeral acc (d :: ds)) = printNat (numeral (acc * 10 + digitVal d) ds) := rfl
      _ = printNat acc ++ [d] ++ ds := by rw [hrest, hstep]
      _ = printNat acc ++ d :: ds := by simp

/-- A numeral without a leading zero is the text printed for its number. -/
theorem printNat_numeral_cons {d : UInt8} {ds : List UInt8} (hd : isDigit d = true) (hne : d ≠ 48)
    (hds : ∀ e ∈ ds, isDigit e = true) : printNat (numeral 0 (d :: ds)) = d :: ds := by
  have hval : 0 < digitVal d := by
    rw [isDigit_iff] at hd
    have : d.toNat ≠ 48 := fun h ↦ hne (UInt8.toNat_inj.1 h)
    rw [digitVal]
    omega
  have hone : printNat (digitVal d) = [d] := by
    rw [printNat, if_pos (digitVal_lt hd), digitByte_digitVal hd]
  calc printNat (numeral 0 (d :: ds)) = printNat (numeral (digitVal d) ds) := by
        rw [numeral, List.foldl_cons, Nat.zero_mul, Nat.zero_add]; rfl
    _ = d :: ds := by rw [printNat_numeral hval hds, hone]; rfl

/-! ## Reading -/

/-- The exceptions of `std::stoll`. -/
inductive StollError where
  /-- No digit where the number should be. -/
  | invalidArgument
  /-- The number does not fit in `long long`. -/
  | outOfRange
deriving DecidableEq, Repr

/-- Does the number fit in `int64_t`? -/
def FitsInt64 (z : ℤ) : Prop := -2 ^ 63 ≤ z ∧ z < 2 ^ 63

instance (z : ℤ) : Decidable (FitsInt64 z) := inferInstanceAs (Decidable (_ ∧ _))

/-- An optional sign: whether it was a minus, and what follows it. -/
def takeSign : List UInt8 → Bool × List UInt8
  | [] => (false, [])
  | b :: s => if b = 45 then (true, s) else if b = 43 then (false, s) else (false, b :: s)

/-- A sign applied to a magnitude. -/
def signed (neg : Bool) (n : ℕ) : ℤ := if neg then -n else n

/-- `std::stoll(s, &pos)`: the number and `pos`. -/
def stoll (s : List UInt8) : Except StollError (Int64 × ℕ) :=
  let (neg, body) := takeSign (s.dropWhile isSpace)
  let digits := body.takeWhile isDigit
  if digits = [] then .error .invalidArgument
  else if FitsInt64 (signed neg (numeral 0 digits)) then
    .ok (Int64.ofInt (signed neg (numeral 0 digits)),
      s.length - (body.dropWhile isDigit).length)
  else .error .outOfRange

/-- White space, an optional sign and at least one digit, denoting a number that fits: the texts
`std::stoll` reads from end to end. -/
def IsIntText (s : List UInt8) : Prop :=
  ∃ ws sign ds, s = ws ++ (sign ++ ds) ∧ (∀ b ∈ ws, isSpace b = true) ∧
    (sign = [] ∨ sign = [43] ∨ sign = [45]) ∧ ds ≠ [] ∧ (∀ b ∈ ds, isDigit b = true) ∧
    FitsInt64 (signed (sign = [45]) (numeral 0 ds))

/-- The digits of a number without leading zero, or a lone zero, after an optional minus sign that
only a number other than zero may have. -/
def IsCanonical (s : List UInt8) : Prop :=
  s = [48] ∨ ∃ sign d ds, s = sign ++ d :: ds ∧ (sign = [] ∨ sign = [45]) ∧
    isDigit d = true ∧ d ≠ 48 ∧ ∀ b ∈ ds, isDigit b = true

/-- `takeSign` on a sign followed by a digit. -/
theorem takeSign_append {sign ds : List UInt8} (hsign : sign = [] ∨ sign = [43] ∨ sign = [45])
    (hne : ds ≠ []) (hds : ∀ b ∈ ds, isDigit b = true) :
    takeSign (sign ++ ds) = (decide (sign = [45]), ds) := by
  rcases hsign with rfl | rfl | rfl
  · cases ds with
    | nil => exact absurd rfl hne
    | cons d ds =>
      obtain ⟨-, h43, h45⟩ := isDigit_ne (hds d (by simp))
      simp [takeSign, h43, h45]
  · rfl
  · rfl

/-- A sign followed by a digit does not begin with white space. -/
theorem dropWhile_isSpace {ws sign ds : List UInt8} (hws : ∀ b ∈ ws, isSpace b = true)
    (hsign : sign = [] ∨ sign = [43] ∨ sign = [45]) (hne : ds ≠ [])
    (hds : ∀ b ∈ ds, isDigit b = true) :
    (ws ++ (sign ++ ds)).dropWhile isSpace = sign ++ ds := by
  rw [List.dropWhile_append_of_pos hws]
  rcases hsign with rfl | rfl | rfl
  · cases ds with
    | nil => exact absurd rfl hne
    | cons d ds => simp [(isDigit_ne (hds d (by simp))).1]
  · rfl
  · rfl

/-- **Reading in full.**  On white space, a sign and digits `stoll` reads everything. -/
theorem stoll_text {ws sign ds : List UInt8} (hws : ∀ b ∈ ws, isSpace b = true)
    (hsign : sign = [] ∨ sign = [43] ∨ sign = [45]) (hne : ds ≠ [])
    (hds : ∀ b ∈ ds, isDigit b = true) :
    stoll (ws ++ (sign ++ ds)) =
      if FitsInt64 (signed (sign = [45]) (numeral 0 ds)) then
        .ok (Int64.ofInt (signed (sign = [45]) (numeral 0 ds)), (ws ++ (sign ++ ds)).length)
      else .error .outOfRange := by
  have htake : ds.takeWhile isDigit = ds := List.takeWhile_eq_self_iff.2 hds
  have hdrop : ds.dropWhile isDigit = [] := List.dropWhile_eq_nil_iff.2 hds
  simp only [stoll, dropWhile_isSpace hws hsign hne hds, takeSign_append hsign hne hds, htake,
    hdrop, if_neg hne, List.length_nil, Nat.sub_zero]

theorem takeSign_split (s : List UInt8) : ∃ sign, s = sign ++ (takeSign s).2 ∧
    (sign = [] ∨ sign = [43] ∨ sign = [45]) ∧ (takeSign s).1 = decide (sign = [45]) := by
  cases s with
  | nil => exact ⟨[], rfl, .inl rfl, rfl⟩
  | cons b s =>
    rw [takeSign]
    split
    · rename_i h; exact ⟨[45], by rw [h]; rfl, .inr (.inr rfl), rfl⟩
    · split
      · rename_i h; exact ⟨[43], by rw [h]; rfl, .inr (.inl rfl), rfl⟩
      · exact ⟨[], rfl, .inl rfl, rfl⟩

/-- What `stoll` reads in full is an integer text. -/
theorem isIntText_of_stoll {s : List UInt8} {x : Int64} (h : stoll s = .ok (x, s.length)) :
    IsIntText s := by
  obtain ⟨sign, hsplit, hsign, hneg⟩ := takeSign_split (s.dropWhile isSpace)
  simp only [stoll, hneg] at h
  generalize hbody : (takeSign (s.dropWhile isSpace)).2 = body at hsplit h
  split_ifs at h with hne hfits
  rw [Except.ok.injEq, Prod.mk.injEq] at h
  have hall : body.dropWhile isDigit = [] := by
    have hlen : (body.dropWhile isDigit).length ≤ s.length := by
      have h1 := (List.dropWhile_sublist isDigit (l := body)).length_le
      have h2 := (List.dropWhile_sublist isSpace (l := s)).length_le
      have h3 := congrArg List.length hsplit
      rw [List.length_append] at h3
      omega
    exact List.eq_nil_of_length_eq_zero (by omega)
  have htake : body.takeWhile isDigit = body := by
    conv_rhs => rw [← List.takeWhile_append_dropWhile (p := isDigit) (l := body), hall,
      List.append_nil]
  rw [htake] at hne hfits
  refine ⟨s.takeWhile isSpace, sign, body, ?_, ?_, hsign, hne, ?_, hfits⟩
  · rw [← hsplit, List.takeWhile_append_dropWhile]
  · exact fun b hb ↦ List.mem_takeWhile_imp hb
  · exact List.dropWhile_eq_nil_iff.1 hall

theorem stoll_eq_ok_length_iff {s : List UInt8} :
    (∃ x, stoll s = .ok (x, s.length)) ↔ IsIntText s := by
  constructor
  · rintro ⟨x, h⟩
    exact isIntText_of_stoll h
  · rintro ⟨ws, sign, ds, rfl, hws, hsign, hne, hds, hfits⟩
    exact ⟨_, by rw [stoll_text hws hsign hne hds, if_pos hfits]⟩

/-! ## Printing and reading back -/

/-- The printed text of a number as a sign and digits. -/
theorem printInt_eq (z : ℤ) : ∃ sign, printInt z = sign ++ printNat z.natAbs ∧
    (sign = [] ∨ sign = [43] ∨ sign = [45]) ∧ signed (sign = [45]) z.natAbs = z := by
  rw [printInt]
  split
  · exact ⟨[45], rfl, .inr (.inr rfl), by rw [signed, decide_eq_true rfl, if_pos rfl]; omega⟩
  · exact ⟨[], rfl, .inl rfl, by rw [signed, decide_eq_false (by simp), if_neg (by simp)]; omega⟩

/-- **What was printed is read back**, number and length, if the number fits. -/
theorem stoll_printInt (z : ℤ) : stoll (printInt z) =
    if FitsInt64 z then .ok (Int64.ofInt z, (printInt z).length) else .error .outOfRange := by
  obtain ⟨sign, heq, hsign, hval⟩ := printInt_eq z
  have htext := stoll_text (List.forall_mem_nil fun b ↦ isSpace b = true) hsign
    (printNat_ne_nil z.natAbs) (fun _ ↦ isDigit_of_mem_printNat)
  rw [numeral_printNat, hval, List.nil_append, ← heq] at htext
  exact htext

theorem fitsInt64_toInt (x : Int64) : FitsInt64 x.toInt :=
  ⟨x.le_toInt, x.toInt_lt⟩

theorem FitsInt64.bmod_eq {z : ℤ} (h : FitsInt64 z) : z.bmod (2 ^ 64) = z := by
  obtain ⟨hlo, hhi⟩ := h
  rw [Int.bmod_eq_of_le]
  · omega
  · omega

theorem toInt_add_of_fits {a b : Int64} (h : FitsInt64 (a.toInt + b.toInt)) :
    (a + b).toInt = a.toInt + b.toInt := by
  rw [Int64.toInt_add, h.bmod_eq]

theorem toInt_sub_of_fits {a b : Int64} (h : FitsInt64 (a.toInt - b.toInt)) :
    (a - b).toInt = a.toInt - b.toInt := by
  rw [Int64.toInt_sub, h.bmod_eq]

theorem toInt_mul_of_fits {a b : Int64} (h : FitsInt64 (a.toInt * b.toInt)) :
    (a * b).toInt = a.toInt * b.toInt := by
  rw [Int64.toInt_mul, h.bmod_eq]

/-- The text of a positive number begins with a digit other than zero. -/
theorem printNat_pos {n : ℕ} (hn : 0 < n) : ∃ d ds, printNat n = d :: ds ∧ isDigit d = true ∧
    d ≠ 48 ∧ ∀ b ∈ ds, isDigit b = true := by
  fun_induction printNat n with
  | case1 n h =>
    refine ⟨_, [], rfl, isDigit_digitByte h, fun h0 ↦ ?_, by simp⟩
    have := congrArg UInt8.toNat h0
    rw [toNat_digitByte h] at this
    simp at this
    omega
  | case2 n h ih =>
    obtain ⟨d, ds, heq, hd, hne, hds⟩ := ih (by omega)
    refine ⟨d, ds ++ [digitByte (n % 10)], by rw [heq]; rfl, hd, hne, fun b hb ↦ ?_⟩
    rcases List.mem_append.1 hb with hb | hb
    · exact hds b hb
    · rw [List.mem_singleton.1 hb]
      exact isDigit_digitByte (Nat.mod_lt n (by simp))

theorem isCanonical_printInt (z : ℤ) : IsCanonical (printInt z) := by
  rcases Nat.eq_zero_or_pos z.natAbs with h | h
  · rw [Int.natAbs_eq_zero] at h
    exact .inl (by rw [h]; decide +kernel)
  · obtain ⟨d, ds, heq, hd, hne, hds⟩ := printNat_pos h
    rw [printInt, heq]
    split
    · exact .inr ⟨[45], d, ds, rfl, .inr rfl, hd, hne, hds⟩
    · exact .inr ⟨[], d, ds, rfl, .inl rfl, hd, hne, hds⟩

/-- A canonical text is the one printed for the number it denotes. -/
theorem eq_printInt_of_isCanonical {s : List UInt8} (h : IsCanonical s) : ∃ z, s = printInt z := by
  rcases h with rfl | ⟨sign, d, ds, rfl, hsign, hd, hne, hds⟩
  · exact ⟨0, by decide +kernel⟩
  · have hprint := printNat_numeral_cons hd hne hds
    have hpos : 0 < numeral 0 (d :: ds) := by
      rw [Nat.pos_iff_ne_zero]
      intro h0
      rw [h0, printNat, if_pos (by omega)] at hprint
      exact hne (List.cons.inj hprint).1.symm
    rcases hsign with rfl | rfl
    · refine ⟨numeral 0 (d :: ds), ?_⟩
      rw [printInt, if_neg (by omega), Int.natAbs_natCast, hprint, List.nil_append]
    · refine ⟨-numeral 0 (d :: ds), ?_⟩
      rw [printInt, if_pos (by omega), Int.natAbs_neg, Int.natAbs_natCast, hprint]
      rfl

/-- **Canonical texts are the printed ones.** -/
theorem isCanonical_iff {s : List UInt8} : IsCanonical s ↔ ∃ z, s = printInt z :=
  ⟨eq_printInt_of_isCanonical, by rintro ⟨z, rfl⟩; exact isCanonical_printInt z⟩

/-- Of the texts `stoll` reads in full, the canonical ones are those that printing gives back. -/
theorem printInt_eq_iff {s : List UInt8} {x : Int64} (h : stoll s = .ok (x, s.length)) :
    printInt x.toInt = s ↔ IsCanonical s := by
  constructor
  · intro hs
    rw [← hs]
    exact isCanonical_printInt _
  · intro hs
    obtain ⟨z, rfl⟩ := isCanonical_iff.1 hs
    rw [stoll_printInt] at h
    split at h
    · rename_i hz
      rw [Except.ok.injEq, Prod.mk.injEq] at h
      rw [← h.1, Int64.toInt_ofInt_of_le hz.1 hz.2]
    · cases h

end Lib
end ManyTasks
