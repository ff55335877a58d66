import ManyTasks.Lib.Except
import ManyTasks.Redis.Numbers

/-!
# The bounds of a bulk string

`ReadBulkString` adds `2` to a length that comes from the other side, makes a string of that size,
reads it full and looks for the end of the message at its last two places.  Everything that is
thrown in between becomes a `RedisError`, but an overflow of `int64_t` is not thrown, and neither is
a place outside the string.

`readBulkStringToBuf` works on the string itself and stops at the first of these.  `bulkRead_iff`
says which headers it is safe for: all but the two greatest numbers there are.  There it does what
`readBulkString` does (`readBulkStringToBuf_eq`).
-/

set_option autoImplicit false

namespace ManyTasks
namespace Redis

open Lib (Prog FitsInt64 stoll toInt_add_of_fits)
open Lib.Prog

variable {σ : Type}

/-! ## The string -/

/-- What `ReadBulkString` comes to if it does not return. -/
inductive BulkFailure where
  | exc (e : Exc)
  /-- `std::bad_alloc`. -/
  | badAlloc
  /-- A sum is not in the range of `int64_t`. -/
  | overflow
  /-- A byte is looked for at a place that is not in the string. -/
  | outOfBounds
deriving DecidableEq, Repr

def Failure.toBulk : Failure → BulkFailure
  | .exc e => .exc e
  | .outOfBounds => .outOfBounds

/-- A sum of `int64_t`s. -/
def addInt64 (a b : Int64) : Except BulkFailure Int64 :=
  if FitsInt64 (a.toInt + b.toInt) then .ok (a + b) else .error .overflow

/-- `std::string(n, '\0')`, if there is memory for it. -/
def newString (available : ℕ → Bool) (n : ℕ) : Except BulkFailure Bytes :=
  if maxSize < n then .error (.exc .lengthError)
  else if available n = true then .ok (zeros n)
  else .error .badAlloc

/-- `buf_[i]`, where `i` is converted to `size_t`. -/
def byteAt (buf_ : Bytes) (i : Int64) : Except BulkFailure UInt8 :=
  match buf_[i.toUInt64.toNat]? with
  | some b => .ok b
  | none => .error .outOfBounds

/-! ## The reader -/

/-- The header, which is a line. -/
def readLengthToBuf : Prog UInt8 σ BulkFailure Int64 := do
  let buf_ ← readBasicStringToBuf.mapError Failure.toBulk
  let (length, pos) ← lift ((stoll buf_).mapError fun e ↦ .exc (.stoll e))
  if pos ≠ buf_.length ∨ length < -1 then
    throw (.exc (.redisError (ascii "Wrong unsigned integer string format")))
  else return length

/-- The string that is made for a length, read full. -/
def fillBulk (available : ℕ → Bool) (length : Int64) : Prog UInt8 σ BulkFailure Bytes := do
  let size ← lift (addInt64 length 2)
  let buf_ ← lift (newString available size.toUInt64.toNat)
  readFull (.exc .eof) buf_.length

/-- The end of the message is taken off the string.  The second place is looked at only if the first
one is right. -/
def endBulk (length : Int64) (buf_ : Bytes) : Except BulkFailure Bytes := do
  let c ← byteAt buf_ length
  if c ≠ 13 then throw (.exc (.redisError (ascii "Wrong string ending symbol")))
  else
    let i ← addInt64 length 1
    let c ← byteAt buf_ i
    if c ≠ 10 then throw (.exc (.redisError (ascii "Wrong string ending symbol")))
    else return resize buf_ length.toUInt64.toNat

/-- `catch (...)`.  It is for exceptions. -/
def rethrow : BulkFailure → BulkFailure
  | .overflow => .overflow
  | .outOfBounds => .outOfBounds
  | _ => .exc (.redisError (ascii "Error parsing bulk string"))

/-- `ReadBulkString`. -/
def readBulkStringToBuf (available : ℕ → Bool) : Prog UInt8 σ BulkFailure (Option Bytes) :=
  tryCatch (do
    let length ← readLengthToBuf
    if length = -1 then return none
    else
      let buf_ ← fillBulk available length
      let buf_ ← lift (endBulk length buf_)
      return some buf_)
    fun failure ↦ throw (rethrow failure)

/-! ## What it is to come to -/

/-- The first line of the stream is read in full as this number. -/
def HasHeader (inp : Bytes) (length : Int64) (rest : Bytes) : Prop :=
  ∃ line, IsLine line ∧ inp = line ++ 13 :: 10 :: rest ∧ stoll line = .ok (length, line.length)

/-- **What reading a bulk string is to come to.**  For every length but `-1` that is accepted, the
sums are in the range, the string is two bytes longer, and both places are in it.  The result is the
null string, a string of that length, or a `RedisError`. -/
structure BulkRead (available : ℕ → Bool) (s : σ) (inp : Bytes) : Prop where
  sums {length : Int64} {rest : Bytes} (h : HasHeader inp length rest) (hlow : -1 < length) :
    FitsInt64 (length.toInt + 2) ∧ FitsInt64 (length.toInt + 1)
  filled {length : Int64} {rest : Bytes} (h : HasHeader inp length rest) (hlow : -1 < length)
    {buf_ : Bytes} (hfill : ((fillBulk available length).run s rest).result = .ok buf_) :
    buf_.length = length.toInt + 2 ∧ length.toUInt64.toNat < buf_.length ∧
      (length + 1).toUInt64.toNat < buf_.length
  outcome : (∃ rest, HasHeader inp (-1) rest ∧
      (readBulkStringToBuf available).run s inp = ⟨.ok none, s, rest, []⟩) ∨
    (∃ length payload rest, HasHeader inp length (payload ++ 13 :: 10 :: rest) ∧
      payload.length = length.toInt ∧
      (readBulkStringToBuf available).run s inp = ⟨.ok (some payload), s, rest, []⟩) ∨
    ∃ what rest, (readBulkStringToBuf available).run s inp =
      ⟨.error (.exc (.redisError what)), s, rest, []⟩

/-! ## The header -/

section

variable {inp rest rest' line : Bytes} {length length' : Int64}

theorem readLengthToBuf_eq :
    (readLengthToBuf : Prog UInt8 σ BulkFailure Int64) = readLength.mapError .exc := by
  rw [readLengthToBuf, readBasicStringToBuf_eq, mapError_mapError, readLength, readStoll,
    mapError_bind, mapError_bind, bind_assoc]
  refine congrArg _ (funext fun buf_ ↦ ?_)
  rw [mapError_bind, mapError_lift, bind_assoc]
  cases stoll buf_ with
  | error e => rfl
  | ok r =>
    obtain ⟨length, pos⟩ := r
    change (if pos ≠ buf_.length ∨ length < -1 then _ else _ : Prog UInt8 σ BulkFailure Int64) =
      (if pos ≠ buf_.length ∨ length < -1 then _ else _ : Io σ Int64).mapError .exc
    split_ifs
    · rfl
    · rfl

theorem HasHeader.unique (h : HasHeader inp length rest) (h' : HasHeader inp length' rest') :
    length = length' ∧ rest = rest' := by
  obtain ⟨line, hline, rfl, hstoll⟩ := h
  obtain ⟨line', hline', heq, hstoll'⟩ := h'
  obtain ⟨rfl, hrest⟩ := hline.unique hline' heq
  rw [hstoll] at hstoll'
  exact ⟨(Prod.mk.inj (Except.ok.inj hstoll')).1, (List.cons.inj hrest).2⟩

/-- A header is accepted if its number is at least `-1`. -/
theorem readLength_cases (inp : Bytes) :
    (∃ length rest, HasHeader inp length rest ∧ -1 ≤ length ∧
      Reads (readLength : Io σ Int64) inp length rest) ∨
    (∀ length rest, HasHeader inp length rest → length < -1) ∧
      ∃ e rest, Fails (readLength : Io σ Int64) inp e rest := by
  obtain ⟨line, rest, hline, rfl, hreads⟩ | ⟨hnot, e, taken, rest, -, -, hfails⟩ :=
    readBasicString_cases (σ := σ) inp
  · have hheader {length : Int64} {rest' : Bytes}
        (h : HasHeader (line ++ 13 :: 10 :: rest) length rest') :
        stoll line = .ok (length, line.length) := by
      obtain ⟨line', hline', heq, hstoll⟩ := h
      rwa [(hline.unique hline' heq).1]
    cases hstoll : stoll line with
    | error e =>
      refine Or.inr ⟨fun length rest' h ↦ ?_, .stoll e, rest, (hreads.bind_fails ?_).bind _⟩
      · rw [hheader h] at hstoll
        cases hstoll
      · rw [hstoll]
        exact (Fails.throw (Exc.stoll e) rest).bind _
    | ok r =>
      obtain ⟨length, pos⟩ := r
      have hnumber : Reads (readStoll : Io σ _) (line ++ 13 :: 10 :: rest)
          (line, length, pos) rest := by
        refine hreads.bind ?_
        rw [hstoll]
        exact Reads.pure _ rest
      by_cases hbad : pos ≠ line.length ∨ length < -1
      · refine Or.inr ⟨fun length' rest' h ↦ ?_,
          .redisError (ascii "Wrong unsigned integer string format"), rest, hnumber.bind_fails ?_⟩
        · obtain ⟨rfl, rfl⟩ := Prod.mk.inj (Except.ok.inj (hstoll.symm.trans (hheader h)))
          exact hbad.resolve_left fun hne ↦ hne rfl
        · dsimp only
          rw [if_pos hbad]
          exact (Fails.throw _ rest).bind _
      · obtain ⟨hpos, hlow⟩ := not_or.mp hbad
        refine Or.inl ⟨length, rest, ⟨line, hline, rfl, ?_⟩, Int64.not_lt.mp hlow, hnumber.bind ?_⟩
        · rw [hstoll, not_not.mp hpos]
        · dsimp only
          rw [if_neg hbad]
          exact Reads.pure length rest
  · refine Or.inr ⟨fun length rest' h ↦ ?_, e, rest, (hfails.bind _).bind _⟩
    obtain ⟨line, hline, heq, -⟩ := h
    exact absurd ⟨line, rest', hline, heq⟩ hnot

/-- The string and the line in it are read in the same way. -/
theorem readLengthToBuf_cases (inp : Bytes) :
    (∃ length rest, HasHeader inp length rest ∧ -1 ≤ length ∧
      Reads (readLength : Io σ Int64) inp length rest ∧
      Reads (readLengthToBuf : Prog UInt8 σ BulkFailure Int64) inp length rest) ∨
    (∀ length rest, HasHeader inp length rest → length < -1) ∧ ∃ e rest,
      Fails (readLength : Io σ Int64) inp e rest ∧
      Fails (readLengthToBuf : Prog UInt8 σ BulkFailure Int64) inp (.exc e) rest := by
  rw [readLengthToBuf_eq]
  obtain ⟨length, rest, hheader, hlow, hreads⟩ | ⟨hbad, e, rest, hfails⟩ :=
    readLength_cases (σ := σ) inp
  · exact Or.inl ⟨length, rest, hheader, hlow, hreads, hreads.mapError _⟩
  · exact Or.inr ⟨hbad, e, rest, hfails, hfails.mapError _⟩

end

/-! ## The body -/

/-- A handler makes a `RedisError` of it. -/
def BulkFailure.IsException : BulkFailure → Prop
  | .exc _ => True
  | .badAlloc => True
  | .overflow => False
  | .outOfBounds => False

theorem rethrow_of_isException {failure : BulkFailure} (h : failure.IsException) :
    rethrow failure = .exc (.redisError (ascii "Error parsing bulk string")) := by
  cases failure with
  | exc e => rfl
  | badAlloc => rfl
  | overflow => exact h.elim
  | outOfBounds => exact h.elim

theorem toNat_toUInt64 {x : Int64} (hx : 0 ≤ x.toInt) : (x.toUInt64.toNat : ℤ) = x.toInt := by
  rw [Int64.toNat_toUInt64_of_le (Int64.le_iff_toInt_le.mpr hx), Int64.toNatClampNeg,
    Int.toNat_of_nonneg hx]

theorem toInt_neg_one : (-1 : Int64).toInt = -1 := by decide

theorem toInt_one : (1 : Int64).toInt = 1 := by decide

theorem toInt_two : (2 : Int64).toInt = 2 := by decide

/-- A sum that is in the range is the number it is to be, also as a `size_t`. -/
theorem addInt64_of_lt {a b : Int64} (ha : 0 ≤ a.toInt) (hb : 0 ≤ b.toInt)
    (hlt : a.toInt + b.toInt < 2 ^ 63) :
    addInt64 a b = .ok (a + b) ∧ ((a + b).toUInt64.toNat : ℤ) = a.toInt + b.toInt := by
  have hfits : FitsInt64 (a.toInt + b.toInt) := ⟨by omega, hlt⟩
  have hsum := toInt_add_of_fits hfits
  refine ⟨if_pos hfits, ?_⟩
  rw [toNat_toUInt64 (by omega), hsum]

theorem newString_cases (available : ℕ → Bool) (n : ℕ) : newString available n = .ok (zeros n) ∨
    ∃ failure : BulkFailure, failure.IsException ∧ newString available n = .error failure := by
  rw [newString]
  split_ifs
  · exact Or.inr ⟨.exc .lengthError, trivial, rfl⟩
  · exact Or.inl rfl
  · exact Or.inr ⟨.badAlloc, trivial, rfl⟩

section

variable {available : ℕ → Bool} {length : Int64} {buf_ inp : Bytes}

/-- With room for the two bytes in `int64_t`, the string has them. -/
theorem fillBulk_eq (available : ℕ → Bool) (hlow : 0 ≤ length.toInt)
    (hhigh : length.toInt < 2 ^ 63 - 2) :
    ((length + 2).toUInt64.toNat : ℤ) = length.toInt + 2 ∧
      (fillBulk available length : Prog UInt8 σ BulkFailure Bytes) =
        lift (newString available (length + 2).toUInt64.toNat) >>= fun buf_ ↦
          readFull (.exc .eof) buf_.length := by
  obtain ⟨hadd, hsize⟩ := addInt64_of_lt (b := 2) hlow (by decide) (by rw [toInt_two]; omega)
  rw [toInt_two] at hsize
  refine ⟨hsize, ?_⟩
  rw [fillBulk, hadd]
  rfl

theorem fillBulk_cases (available : ℕ → Bool) (hlow : 0 ≤ length.toInt)
    (hhigh : length.toInt < 2 ^ 63 - 2) (inp : Bytes) :
    (∃ buf_ rest, inp = buf_ ++ rest ∧ buf_.length = length.toInt + 2 ∧
      Reads (fillBulk available length : Prog UInt8 σ BulkFailure Bytes) inp buf_ rest) ∨
    ∃ failure rest, failure.IsException ∧
      Fails (fillBulk available length : Prog UInt8 σ BulkFailure Bytes) inp failure rest := by
  obtain ⟨hsize, hfill⟩ := fillBulk_eq (σ := σ) available hlow hhigh
  rw [hfill]
  obtain hnew | ⟨failure, hfailure, hnew⟩ := newString_cases available (length + 2).toUInt64.toNat
  · rw [hnew]
    obtain ⟨buf_, rest, heq, hlength, hreads⟩ | ⟨-, hfails⟩ :=
      readFull_cases (σ := σ) (.exc .eof : BulkFailure)
        (zeros (length + 2).toUInt64.toNat).length inp
    · rw [zeros, List.length_replicate] at hlength
      exact Or.inl ⟨buf_, rest, heq, by rw [hlength, hsize], (Reads.pure _ inp).bind hreads⟩
    · exact Or.inr ⟨.exc .eof, [], trivial, (Reads.pure _ inp).bind_fails hfails⟩
  · refine Or.inr ⟨failure, inp, hfailure, ?_⟩
    rw [hnew]
    exact (Fails.throw failure inp).bind _

theorem byteAt_eq {i : Int64} {b : UInt8} (h : buf_[i.toUInt64.toNat]? = some b) :
    byteAt buf_ i = .ok b := by
  rw [byteAt, h]

/-- Both places are in a string that is two bytes longer. -/
theorem endBulk_eq (hlow : 0 ≤ length.toInt) (hhigh : length.toInt < 2 ^ 63 - 2)
    (hbuf : buf_.length = length.toInt + 2) :
    endBulk length buf_ =
      if buf_[length.toUInt64.toNat]? ≠ some 13 ∨ buf_[length.toUInt64.toNat + 1]? ≠ some 10 then
        .error (.exc (.redisError (ascii "Wrong string ending symbol")))
      else .ok (buf_.take length.toUInt64.toNat) := by
  have hplace := toNat_toUInt64 hlow
  obtain ⟨hadd, hnext⟩ := addInt64_of_lt (b := 1) hlow (by decide) (by rw [toInt_one]; omega)
  rw [toInt_one] at hnext
  have hsucc : (length + 1).toUInt64.toNat = length.toUInt64.toNat + 1 := by omega
  have hfirst : length.toUInt64.toNat < buf_.length := by omega
  have hsecond : length.toUInt64.toNat + 1 < buf_.length := by omega
  have hresize : resize buf_ length.toUInt64.toNat = buf_.take length.toUInt64.toNat := by
    rw [resize, zeros, Nat.sub_eq_zero_of_le (Nat.le_of_lt hfirst), List.replicate_zero,
      List.append_nil]
  have hcr := byteAt_eq (List.getElem?_eq_getElem hfirst)
  have hlf : byteAt buf_ (length + 1) = .ok buf_[length.toUInt64.toNat + 1] := by
    refine byteAt_eq ?_
    rw [hsucc, List.getElem?_eq_getElem hsecond]
  rw [endBulk, hcr, Lib.ok_bind, hadd, Lib.ok_bind, hlf, Lib.ok_bind, hresize,
    List.getElem?_eq_getElem hfirst, List.getElem?_eq_getElem hsecond]
  simp only [ne_eq, Option.some_inj]
  by_cases hfirst : buf_[length.toUInt64.toNat] = 13
  · by_cases hsecond : buf_[length.toUInt64.toNat + 1] = 10
    · simp [hfirst, hsecond]
    · simp [hfirst, hsecond]
  · simp [hfirst]

theorem endBulk_cases (hlow : 0 ≤ length.toInt) (hhigh : length.toInt < 2 ^ 63 - 2)
    (hbuf : buf_.length = length.toInt + 2) :
    (∃ payload : Bytes, buf_ = payload ++ [13, 10] ∧ payload.length = length.toInt ∧
      endBulk length buf_ = .ok payload) ∨
    ∃ failure : BulkFailure, failure.IsException ∧ endBulk length buf_ = .error failure := by
  have hplace := toNat_toUInt64 hlow
  rw [endBulk_eq hlow hhigh hbuf]
  split_ifs with hwrong
  · have hexc : BulkFailure.IsException (.exc (.redisError (ascii "Wrong string ending symbol"))) :=
      trivial
    exact Or.inr ⟨_, hexc, rfl⟩
  · obtain ⟨hcr, hlf⟩ := not_or.mp hwrong
    refine Or.inl ⟨buf_.take length.toUInt64.toNat, ?_, ?_, rfl⟩
    · obtain ⟨c, d, hdrop⟩ : ∃ c d, buf_.drop length.toUInt64.toNat = [c, d] :=
        List.length_eq_two.mp (by rw [List.length_drop]; omega)
      have hc : (buf_.drop length.toUInt64.toNat)[0]? = some 13 := by
        rw [List.getElem?_drop, Nat.add_zero]
        exact not_not.mp hcr
      have hd : (buf_.drop length.toUInt64.toNat)[1]? = some 10 := by
        rw [List.getElem?_drop]
        exact not_not.mp hlf
      rw [hdrop] at hc hd
      obtain rfl : c = 13 := Option.some_inj.mp hc
      obtain rfl : d = 10 := Option.some_inj.mp hd
      rw [← hdrop, List.take_append_drop]
    · rw [List.length_take_of_le (by omega), hplace]

end

/-! ## All streams -/

section

variable {available : ℕ → Bool} {length : Int64} {inp rest : Bytes}

theorem toInt_nonneg_of_neg_one_lt (h : -1 < length) : 0 ≤ length.toInt := by
  have hlt := Int64.lt_iff_toInt_lt.mp h
  rw [toInt_neg_one] at hlt
  omega

theorem reads_readLengthToBuf (hheader : HasHeader inp length rest) (hlow : -1 ≤ length) :
    Reads (readLengthToBuf : Prog UInt8 σ BulkFailure Int64) inp length rest := by
  obtain ⟨length', rest', hheader', -, -, hreads⟩ | ⟨hbad, -⟩ := readLengthToBuf_cases (σ := σ) inp
  · obtain ⟨rfl, rfl⟩ := hheader.unique hheader'
    exact hreads
  · exact absurd (hbad length rest hheader) (Int64.not_lt.mpr hlow)

/-- There is no handler for an overflow. -/
theorem fails_overflow (available : ℕ → Bool) (hheader : HasHeader inp length rest)
    (hhigh : 2 ^ 63 - 2 ≤ length.toInt) :
    Fails (readBulkStringToBuf available : Prog UInt8 σ BulkFailure (Option Bytes))
      inp .overflow rest := by
  have hlow : -1 ≤ length := Int64.le_iff_toInt_le.mpr (by rw [toInt_neg_one]; omega)
  have hne : length ≠ -1 := by
    rintro rfl
    rw [toInt_neg_one] at hhigh
    omega
  have hadd : addInt64 length 2 = .error .overflow := by
    refine if_neg fun hfits ↦ ?_
    obtain ⟨-, hlt⟩ := hfits
    rw [toInt_two] at hlt
    omega
  refine Fails.handle (e := .overflow) ((reads_readLengthToBuf hheader hlow).bind_fails ?_)
    (Fails.throw _ rest)
  rw [if_neg hne, fillBulk, hadd]
  exact ((Fails.throw BulkFailure.overflow rest).bind _).bind _

/-- Whatever else is thrown becomes a `RedisError`. -/
theorem fails_redisError (failure : BulkFailure) (h : failure.IsException)
    {p : Prog UInt8 σ BulkFailure (Option Bytes)} (hfails : Fails p inp failure rest) :
    Fails (tryCatch p fun failure ↦ throw (rethrow failure)) inp
      (.exc (.redisError (ascii "Error parsing bulk string"))) rest := by
  refine hfails.handle ?_
  rw [rethrow_of_isException h]
  exact Fails.throw _ rest

theorem bulkRead_of_lt (available : ℕ → Bool) (s : σ)
    (h : ∀ length rest, HasHeader inp length rest → length.toInt < 2 ^ 63 - 2) :
    BulkRead available s inp := by
  refine ⟨fun {length rest} hheader hlow ↦ ?_, fun {length rest} hheader hlow buf_ hfill ↦ ?_, ?_⟩
  · have hnonneg := toInt_nonneg_of_neg_one_lt hlow
    have hhigh := h length rest hheader
    exact ⟨⟨by omega, by omega⟩, ⟨by omega, by omega⟩⟩
  · have hnonneg := toInt_nonneg_of_neg_one_lt hlow
    have hhigh := h length rest hheader
    have hlength : buf_.length = length.toInt + 2 := by
      obtain ⟨buf', rest', -, hlength, hreads⟩ | ⟨failure, rest', -, hfails⟩ :=
        fillBulk_cases (σ := σ) available hnonneg hhigh rest
      · rw [hreads s] at hfill
        exact Except.ok.inj hfill ▸ hlength
      · rw [hfails s] at hfill
        cases hfill
    have hplace := toNat_toUInt64 hnonneg
    have hnext := (addInt64_of_lt (b := 1) hnonneg (by decide) (by rw [toInt_one]; omega)).2
    rw [toInt_one] at hnext
    exact ⟨hlength, by omega, by omega⟩
  · obtain ⟨length, rest, hheader, hlow, -, hreads⟩ | ⟨-, e, rest, -, hfails⟩ :=
      readLengthToBuf_cases (σ := σ) inp
    · by_cases hnull : length = -1
      · refine Or.inl ⟨rest, hnull ▸ hheader, Reads.handle (hreads.bind ?_) s⟩
        rw [if_pos hnull]
        exact Reads.pure none rest
      have hnonneg := toInt_nonneg_of_neg_one_lt (Int64.lt_of_le_of_ne hlow (Ne.symm hnull))
      have hhigh := h length rest hheader
      refine Or.inr ?_
      obtain ⟨buf_, rest', rfl, hlength, hfill⟩ | ⟨failure, rest', hfailure, hfails⟩ :=
        fillBulk_cases (σ := σ) available hnonneg hhigh rest
      · obtain ⟨payload, rfl, hpayload, hend⟩ | ⟨failure, hfailure, hend⟩ :=
          endBulk_cases hnonneg hhigh hlength
        · refine Or.inl ⟨length, payload, rest', by simpa using hheader, hpayload, ?_⟩
          refine Reads.handle (hreads.bind ?_) s
          rw [if_neg hnull]
          refine hfill.bind ?_
          rw [hend]
          exact (Reads.pure payload rest').bind (Reads.pure (some payload) rest')
        · refine Or.inr ⟨_, rest', fails_redisError failure hfailure (hreads.bind_fails ?_) s⟩
          rw [if_neg hnull]
          refine hfill.bind_fails ?_
          rw [hend]
          exact (Fails.throw failure rest').bind _
      · refine Or.inr ⟨_, rest', fails_redisError failure hfailure (hreads.bind_fails ?_) s⟩
        rw [if_neg hnull]
        exact hfails.bind _
    · exact Or.inr (Or.inr ⟨_, rest, fails_redisError (.exc e) trivial (hfails.bind _) s⟩)

/-- **Bulk strings are safe for all headers but `2 ^ 63 - 2` and `2 ^ 63 - 1`.** -/
theorem bulkRead_iff (available : ℕ → Bool) (s : σ) (inp : Bytes) : BulkRead available s inp ↔
    ∀ length rest, HasHeader inp length rest → length.toInt < 2 ^ 63 - 2 := by
  refine ⟨fun h length rest hheader ↦ ?_, bulkRead_of_lt available s⟩
  by_contra hhigh
  have hlow : -1 < length := Int64.lt_iff_toInt_lt.mpr (by rw [toInt_neg_one]; omega)
  obtain ⟨-, hfits⟩ := (h.sums hheader hlow).1
  omega

/-- `9223372036854775807` -/
theorem bulk_overflows :
    ((readBulkStringToBuf fun _ ↦ true).run () (ascii "9223372036854775807" ++ [13, 10])).result =
        .error .overflow ∧
      ¬BulkRead (fun _ ↦ true) () (ascii "9223372036854775807" ++ [13, 10]) := by
  have hheader : HasHeader (ascii "9223372036854775807" ++ [13, 10]) 9223372036854775807 [] :=
    ⟨ascii "9223372036854775807", ⟨by decide +kernel, by decide +kernel⟩, rfl, by decide +kernel⟩
  constructor
  · rw [fails_overflow (fun _ ↦ true) hheader (by decide) ()]
  · intro h
    obtain ⟨hsum, -⟩ := h.sums hheader (by decide)
    exact absurd hsum (by decide)

end

/-! ## The string and what is read -/

section

variable {inp : Bytes} {p : Prog UInt8 σ BulkFailure (Option Bytes)} {q : Io σ (Option Bytes)}

theorem run_eq_of_reads (res : Option Bytes) (rest : Bytes) (hp : Reads p inp res rest)
    (hq : Reads q inp res rest) (s : σ) :
    (tryCatch p fun failure ↦ throw (rethrow failure)).run s inp =
      ((tryCatch q fun _ ↦ throw (.redisError (ascii "Error parsing bulk string"))).mapError
        BulkFailure.exc).run s inp :=
  (hp.handle s).trans (hq.handle.mapError BulkFailure.exc s).symm

theorem run_eq_of_fails (failure : BulkFailure) (h : failure.IsException) (e : Exc) (rest : Bytes)
    (hp : Fails p inp failure rest) (hq : Fails q inp e rest) (s : σ) :
    (tryCatch p fun failure ↦ throw (rethrow failure)).run s inp =
      ((tryCatch q fun _ ↦ throw (.redisError (ascii "Error parsing bulk string"))).mapError
        BulkFailure.exc).run s inp := by
  have hthrow : Fails (tryCatch q fun _ ↦ throw (.redisError (ascii "Error parsing bulk string")))
      inp (.redisError (ascii "Error parsing bulk string")) rest := hq.handle (Fails.throw _ rest)
  exact (fails_redisError failure h hp s).trans (hthrow.mapError BulkFailure.exc s).symm

/-- **The string is what `readBulkString` reads**, if there is memory for it. -/
theorem readBulkStringToBuf_eq (s : σ)
    (h : ∀ length rest, HasHeader inp length rest → length.toInt < 2 ^ 63 - 2) :
    (readBulkStringToBuf fun _ ↦ true).run s inp =
    (readBulkString.mapError BulkFailure.exc).run s inp := by
  obtain ⟨length, rest, hheader, hlow, hline, hreads⟩ | ⟨-, e, rest, hline, hfails⟩ :=
    readLengthToBuf_cases (σ := σ) inp
  · by_cases hnull : length = -1
    · refine run_eq_of_reads none rest (hreads.bind ?_) (hline.bind ?_) s
      · rw [if_pos hnull]
        exact Reads.pure none rest
      · rw [if_pos hnull]
        exact Reads.pure none rest
    have hnonneg := toInt_nonneg_of_neg_one_lt (Int64.lt_of_le_of_ne hlow (Ne.symm hnull))
    have hhigh := h length rest hheader
    obtain ⟨hsize, hfill⟩ := fillBulk_eq (σ := σ) (fun _ ↦ true) hnonneg hhigh
    by_cases hmax : maxSize < (length + 2).toUInt64.toNat
    · refine run_eq_of_fails (.exc .lengthError) trivial .lengthError rest (hreads.bind_fails ?_)
        (hline.bind_fails ?_) s
      · rw [if_neg hnull, hfill, newString, if_pos hmax]
        exact ((Fails.throw _ rest).bind _).bind _
      · rw [if_neg hnull, if_pos hmax]
        exact (Fails.throw _ rest).bind _
    replace hfill : (fillBulk (fun _ ↦ true) length : Prog UInt8 σ BulkFailure Bytes) =
        (readFull (.eof : Exc) (length + 2).toUInt64.toNat).mapError BulkFailure.exc := by
      rw [hfill, newString, if_neg hmax, if_pos rfl, mapError_readFull]
      change readFull (BulkFailure.exc .eof) (zeros (length + 2).toUInt64.toNat).length = _
      rw [zeros, List.length_replicate]
    obtain ⟨buf_, rest', rfl, hlength, hfull⟩ | ⟨-, hfull⟩ :=
      readFull_cases (σ := σ) (.eof : Exc) (length + 2).toUInt64.toNat rest
    · have hbuf : (buf_.length : ℤ) = length.toInt + 2 := by rw [hlength, hsize]
      have hend := endBulk_eq hnonneg hhigh hbuf
      by_cases hwrong : buf_[length.toUInt64.toNat]? ≠ some 13 ∨
        buf_[length.toUInt64.toNat + 1]? ≠ some 10
      · refine run_eq_of_fails (.exc (.redisError (ascii "Wrong string ending symbol"))) trivial
          (.redisError (ascii "Wrong string ending symbol")) rest' (hreads.bind_fails ?_)
          (hline.bind_fails ?_) s
        · rw [if_neg hnull, hfill]
          refine (hfull.mapError _).bind_fails ?_
          rw [hend, if_pos hwrong]
          exact (Fails.throw _ rest').bind _
        · rw [if_neg hnull, if_neg hmax]
          refine hfull.bind_fails ?_
          rw [if_pos hwrong]
          exact (Fails.throw _ rest').bind _
      · refine run_eq_of_reads (some (buf_.take length.toUInt64.toNat)) rest' (hreads.bind ?_)
          (hline.bind ?_) s
        · rw [if_neg hnull, hfill]
          refine (hfull.mapError _).bind ?_
          rw [hend, if_neg hwrong]
          exact (Reads.pure _ rest').bind (Reads.pure _ rest')
        · rw [if_neg hnull, if_neg hmax]
          refine hfull.bind ?_
          rw [if_neg hwrong]
          exact Reads.pure _ rest'
    · refine run_eq_of_fails (.exc .eof) trivial .eof [] (hreads.bind_fails ?_)
        (hline.bind_fails ?_) s
      · rw [if_neg hnull, hfill]
        exact (hfull.mapError _).bind _
      · rw [if_neg hnull, if_neg hmax]
        exact hfull.bind _
  · exact run_eq_of_fails (.exc e) trivial e rest (hfails.bind _) (hline.bind _) s

end

end Redis
end ManyTasks
