import ManyTasks.Redis.Lines

/-!
# Numbers of the protocol

A number is a line that is an optional sign and digits.  `ReadInt` returns the numbers that fit in
64 bits, and the headers of bulk strings and arrays are those that are at least -1, as long as the
line fits in the buffer (`numberRead`).

`std::stoll` skips white space before a number.  `ReadInt` looks for a blank there, and for nothing
else; the other two do not look (`reads_spaced`).
-/

set_option autoImplicit false

namespace ManyTasks
namespace Redis

open Lib (Prog isDigit isSpace numeral signed stoll)
open Lib.Prog

variable {σ : Type}

/-! ## Texts of numbers -/

/-- An optional sign and digits, which denote this number. -/
def Denotes (text : Bytes) (v : Int64) : Prop :=
  ∃ sign ds, text = sign ++ ds ∧ (sign = [] ∨ sign = [43] ∨ sign = [45]) ∧ ds ≠ []
    ∧ (∀ b ∈ ds, isDigit b = true) ∧ v.toInt = signed (sign = [45]) (numeral 0 ds)

/-- White space that does not end a line, or make it bad. -/
def isInnerSpace (b : UInt8) : Bool := isSpace b && b != 13 && b != 10

/-- The first line of the stream is white space, `b` first, and the text of a number. -/
def Spaced (inp : Bytes) (b : UInt8) (v : Int64) : Prop :=
  ∃ ws text rest, inp = b :: ws ++ text ++ 13 :: 10 :: rest
    ∧ (∀ c ∈ b :: ws, isInnerSpace c = true) ∧ Denotes text v

/-- The stream begins with the text of a number and the end of its line, and the text fits in the
buffer. -/
def BeginsWithNumber (inp : Bytes) (v : Int64) (rest : Bytes) : Prop :=
  ∃ text, Denotes text v ∧ text.length ≤ 65471 ∧ inp = text ++ 13 :: 10 :: rest

section

variable {text line inp rest rest' : Bytes} {v v' : Int64}

theorem Denotes.stoll (h : Denotes text v) : stoll text = .ok (v, text.length) := by
  obtain ⟨sign, ds, rfl, hsign, hne, hds, hv⟩ := h
  have hread := Lib.stoll_text (List.forall_mem_nil fun b ↦ isSpace b = true) hsign hne hds
  rw [← hv, if_pos (Lib.fitsInt64_toInt v), Int64.ofInt_toInt] at hread
  exact hread

/-- What is read in full is a number after white space, if there is any. -/
theorem exists_denotes_of_stoll (h : stoll text = .ok (v, text.length)) :
    ∃ ws number, text = ws ++ number ∧ (∀ b ∈ ws, isSpace b = true) ∧ Denotes number v := by
  obtain ⟨ws, sign, ds, rfl, hws, hsign, hne, hds, hfits⟩ := Lib.isIntText_of_stoll h
  have hread := Lib.stoll_text hws hsign hne hds
  rw [if_pos hfits, h] at hread
  have hv : v = Int64.ofInt (signed (sign = [45]) (numeral 0 ds)) := by
    cases hread
    rfl
  refine ⟨ws, sign ++ ds, rfl, hws, sign, ds, rfl, hsign, hne, hds, ?_⟩
  rw [hv, Int64.toInt_ofInt_of_le hfits.1 hfits.2]

/-- A number is signs and digits. -/
theorem Denotes.mem (h : Denotes text v) {b : UInt8} (hb : b ∈ text) :
    b = 43 ∨ b = 45 ∨ isDigit b = true := by
  obtain ⟨sign, ds, rfl, hsign, -, hds, -⟩ := h
  obtain hb | hb := List.mem_append.1 hb
  · obtain rfl | rfl | rfl := hsign
    · cases hb
    · exact Or.inl (List.mem_singleton.1 hb)
    · exact Or.inr (Or.inl (List.mem_singleton.1 hb))
  · exact Or.inr (Or.inr (hds b hb))

theorem Denotes.not_mem (h : Denotes text v) {b : UInt8}
    (hb : ¬ (b = 43 ∨ b = 45 ∨ isDigit b = true)) : b ∉ text :=
  fun hmem ↦ hb (h.mem hmem)

theorem Denotes.isLine (h : Denotes text v) (hlen : text.length ≤ 65471) : IsLine text := by
  refine ⟨hlen, fun b hb ↦ ⟨?_, ?_⟩⟩
  · rintro rfl
    exact h.not_mem (by decide) hb
  · rintro rfl
    exact h.not_mem (by decide) hb

/-- White space in a line. -/
theorem isInnerSpace_of_isLine (hline : IsLine line) {b : UInt8} (hb : b ∈ line)
    (hspace : isSpace b = true) : isInnerSpace b = true := by
  obtain ⟨hreturn, hfeed⟩ := hline.2 b hb
  simp [isInnerSpace, hspace, hreturn, hfeed]

/-- There is one line, so that there is at most one number. -/
theorem BeginsWithNumber.of_line (h : BeginsWithNumber inp v rest') (hline : IsLine line)
    (heq : inp = line ++ 13 :: 10 :: rest) : Denotes line v ∧ rest' = rest := by
  obtain ⟨text, hdenotes, hlen, hinp⟩ := h
  obtain ⟨rfl, hrest⟩ := (hdenotes.isLine hlen).unique hline (hinp.symm.trans heq)
  exact ⟨hdenotes, (List.cons.inj hrest).2⟩

end

/-! ## The readers -/

/-- **What a reader of numbers is to come to.**  It wants those with `P`. -/
structure NumberRead (p : Io σ Int64) (P : Int64 → Prop) (s : σ) (inp : Bytes) : Prop where
  returns (v : Int64) (rest : Bytes) :
    p.run s inp = ⟨.ok v, s, rest, []⟩ ↔ P v ∧ BeginsWithNumber inp v rest
  throws (h : ∀ v rest, P v → ¬ BeginsWithNumber inp v rest) :
    ∃ what rest, p.run s inp = ⟨.error (.redisError what), s, rest, []⟩

/-- The header of a bulk string. -/
def readBulkHeader : Io σ Int64 :=
  tryCatch readLength fun _ ↦ throw (.redisError (ascii "Error parsing bulk string"))

/-- A bulk string, after a header that has been accepted. -/
def readBulkBody (length : Int64) : Io σ (Option Bytes) :=
  tryCatch (do
    if length = -1 then return none
    let size := (length + 2).toUInt64.toNat
    if maxSize < size then throw .lengthError
    let buf ← readFull .eof size
    let length := length.toUInt64.toNat
    if buf[length]? ≠ some 13 ∨ buf[length + 1]? ≠ some 10 then
      throw (.redisError (ascii "Wrong string ending symbol"))
    return some (buf.take length))
    fun _ ↦ throw (.redisError (ascii "Error parsing bulk string"))

theorem readBulkString_eq :
    (readBulkString : Io σ (Option Bytes)) = readBulkHeader >>= readBulkBody :=
  tryCatch_throw_bind _ _ _

/-- What the three readers have in common: a line, `stoll`, and a check that refuses the numbers
that are `bad`. -/
def checkNumber (bad : Bytes → Int64 → Prop) [∀ buf v, Decidable (bad buf v)] (inner : Exc) :
    Io σ Int64 := do
  let (buf, v, pos) ← readStoll
  if pos ≠ buf.length ∨ bad buf v then throw inner
  return v

def readChecked (bad : Bytes → Int64 → Prop) [∀ buf v, Decidable (bad buf v)] (inner outer : Exc) :
    Io σ Int64 :=
  tryCatch (checkNumber bad inner) fun _ ↦ throw outer

/-- What is read up to the check. -/
theorem readStoll_cases (inp : Bytes) :
    (∃ line rest v pos, IsLine line ∧ inp = line ++ 13 :: 10 :: rest ∧ stoll line = .ok (v, pos)
        ∧ Reads (readStoll : Io σ _) inp (line, v, pos) rest)
      ∨ (∀ v rest, ¬ BeginsWithNumber inp v rest) ∧
        ∃ e rest, Fails (readStoll : Io σ _) inp e rest := by
  obtain ⟨line, rest, hline, heq, hreads⟩ | ⟨hnot, e, taken, rest, heq, hle, hfails⟩ :=
    readBasicString_cases (σ := σ) inp
  · cases hstoll : stoll line with
    | ok r =>
      refine Or.inl ⟨line, rest, r.1, r.2, hline, heq, hstoll, hreads.bind ?_⟩
      rw [hstoll]
      exact Reads.pure _ rest
    | error e =>
      refine Or.inr ⟨fun v rest' hnumber ↦ ?_, Exc.stoll e, rest, hreads.bind_fails ?_⟩
      · have hok := (hnumber.of_line hline heq).1.stoll
        rw [hstoll] at hok
        cases hok
      · rw [hstoll]
        exact (Fails.throw (Exc.stoll e) rest).bind _
  · refine Or.inr ⟨fun v rest' hnumber ↦ hnot ?_, e, rest, hfails.bind _⟩
    obtain ⟨text, hdenotes, hlen, hinp⟩ := hnumber
    exact ⟨text, rest', hdenotes.isLine hlen, hinp⟩

section

variable {inner : Exc} {outer : Bytes} {P : Int64 → Prop} {inp : Bytes}

theorem numberRead_of_fails {p : Io σ Int64} {what rest : Bytes}
    (hfails : Fails p inp (.redisError what) rest)
    (hnone : ∀ v rest, P v → ¬ BeginsWithNumber inp v rest) (s : σ) : NumberRead p P s inp where
  returns v rest := by
    rw [hfails s]
    refine iff_of_false (fun h ↦ ?_) fun h ↦ hnone v rest h.1 h.2
    cases congrArg Outcome.result h
  throws _ := ⟨what, rest, hfails s⟩

/-- **What is read is a number that is wanted**, if no number after white space passes the check. -/
theorem numberRead_readChecked (bad : Bytes → Int64 → Prop) [∀ buf v, Decidable (bad buf v)]
    (hbad : ∀ text v, Denotes text v → (¬ bad text v ↔ P v))
    (hspace : ∀ b ws text rest v, inp = b :: ws ++ text ++ 13 :: 10 :: rest →
      Spaced inp b v → bad (b :: ws ++ text) v) (s : σ) :
    NumberRead (readChecked bad inner (.redisError outer)) P s inp := by
  obtain ⟨line, rest, v, pos, hline, heq, hstoll, hreads⟩ | ⟨hnone, e, rest, hfails⟩ :=
    readStoll_cases (σ := σ) inp
  · by_cases hcheck : pos ≠ line.length ∨ bad line v
    · have hthrow : Fails (readChecked bad inner (.redisError outer) : Io σ Int64) inp
          (.redisError outer) rest := by
        have hinner : Fails (checkNumber bad inner : Io σ Int64) inp inner rest := by
          refine hreads.bind_fails ?_
          dsimp only
          rw [if_pos hcheck]
          exact (Fails.throw inner rest).bind _
        exact hinner.handle (Fails.throw _ rest)
      refine numberRead_of_fails hthrow (fun v' rest' hwanted hnumber ↦ ?_) s
      have hdenotes := (hnumber.of_line hline heq).1
      have hok := hdenotes.stoll
      rw [hstoll] at hok
      cases hok
      exact (hbad line v hdenotes).2 hwanted (hcheck.resolve_left fun hne ↦ hne rfl)
    · obtain ⟨hpos, hgood⟩ := not_or.1 hcheck
      obtain rfl := not_not.1 hpos
      have hdenotes : Denotes line v := by
        obtain ⟨ws, text, rfl, hws, hdenotes⟩ := exists_denotes_of_stoll hstoll
        cases ws with
        | nil => exact hdenotes
        | cons b ws =>
          have hinner : ∀ c ∈ b :: ws, isInnerSpace c = true := fun c hc ↦
            isInnerSpace_of_isLine hline (List.mem_append_left text hc) (hws c hc)
          have hspaced : Spaced inp b v := ⟨ws, text, rest, heq, hinner, hdenotes⟩
          exact absurd (hspace b ws text rest v heq hspaced) hgood
      have hreturns :
          Reads (readChecked bad inner (.redisError outer) : Io σ Int64) inp v rest := by
        refine Reads.handle (hreads.bind ?_)
        dsimp only
        rw [if_neg hcheck]
        exact Reads.pure v rest
      have hnumber : BeginsWithNumber inp v rest := ⟨line, hdenotes, hline.1, heq⟩
      have hwanted := (hbad line v hdenotes).1 hgood
      refine ⟨fun v' rest' ↦ ?_, fun h ↦ absurd hnumber (h v rest hwanted)⟩
      rw [hreturns s]
      constructor
      · intro h
        cases h
        exact ⟨hwanted, hnumber⟩
      · rintro ⟨-, hnumber'⟩
        obtain ⟨hdenotes', rfl⟩ := hnumber'.of_line hline heq
        have hok := hdenotes'.stoll
        rw [hstoll] at hok
        cases hok
        rfl
  · exact numberRead_of_fails ((hfails.bind _).handle (Fails.throw _ rest))
      (fun v rest _ ↦ hnone v rest) s

end

/-- **Numbers are read as they are written**, if no white space comes before them, or a blank that
`ReadInt` looks for. -/
theorem numberRead (s : σ) (inp : Bytes) :
    ((∀ b v, Spaced inp b v → b = 32) → NumberRead readInt (fun _ ↦ True) s inp)
      ∧ ((∀ b v, Spaced inp b v → v < -1) →
        NumberRead readBulkHeader (-1 ≤ ·) s inp ∧ NumberRead readArrayLength (-1 ≤ ·) s inp)
      ∧ (readBulkString : Io σ (Option Bytes)) = readBulkHeader >>= readBulkBody := by
  have hlow (text : Bytes) (v : Int64) (_ : Denotes text v) : ¬ v < -1 ↔ -1 ≤ v := Int64.not_lt
  refine ⟨fun hspaced ↦ ?_, fun hspaced ↦ ⟨?_, ?_⟩, readBulkString_eq⟩
  · refine numberRead_readChecked (fun buf _ ↦ buf[0]? = some 32) ?_ ?_ s
    · intro text v hdenotes
      exact iff_of_true (fun h ↦ hdenotes.not_mem (by decide) (List.mem_of_getElem? h)) trivial
    · intro b ws text rest v heq h
      rw [hspaced b v h]
      rfl
  · exact numberRead_readChecked (fun _ v ↦ v < -1) hlow
      (fun b ws text rest v _ h ↦ hspaced b v h) s
  · exact numberRead_readChecked (fun _ v ↦ v < -1) hlow
      (fun b ws text rest v _ h ↦ hspaced b v h) s

/-- A five is read, and a line with nothing on it is refused, whatever comes after it. -/
theorem numberRead_five :
    (readInt : Io Unit Int64).run () [53, 13, 10] = ⟨.ok 5, (), [], []⟩
      ∧ ∃ what rest,
        (readInt : Io Unit Int64).run () [13, 10, 53, 13, 10]
          = ⟨.error (.redisError what), (), rest, []⟩ := by
  have hfive : ∀ b v, Spaced [53, 13, 10] b v → b = 32 := by
    rintro b v ⟨ws, text, rest, heq, hinner, -⟩
    obtain rfl : 53 = b := (List.cons.inj heq).1
    exact absurd (hinner 53 List.mem_cons_self) (by decide)
  have hblank : ∀ b v, Spaced [13, 10, 53, 13, 10] b v → b = 32 := by
    rintro b v ⟨ws, text, rest, heq, hinner, -⟩
    obtain rfl : 13 = b := (List.cons.inj heq).1
    exact absurd (hinner 13 List.mem_cons_self) (by decide)
  refine ⟨?_, ?_⟩
  · refine (((numberRead () [53, 13, 10]).1 hfive).returns 5 []).2 ⟨trivial, [53], ?_, ?_, rfl⟩
    · refine ⟨[], [53], rfl, Or.inl rfl, List.cons_ne_nil _ _, ?_, rfl⟩
      exact List.forall_mem_singleton.2 rfl
    · decide
  · refine ((numberRead () [13, 10, 53, 13, 10]).1 hblank).throws ?_
    rintro v rest - ⟨text, hdenotes, hlen, heq⟩
    have hnil : IsLine [] := ⟨by decide, List.forall_mem_nil _⟩
    obtain ⟨rfl, -⟩ := (hdenotes.isLine hlen).unique hnil heq.symm
    obtain ⟨sign, ds, htext, -, hne, -⟩ := hdenotes
    exact hne (List.append_eq_nil_iff.1 htext.symm).2

/-! ## What is not read as it is written -/

theorem denotes_zeros {n : ℕ} (hn : 0 < n) : Denotes (List.replicate n 48) 0 := by
  have hzero (k : ℕ) : numeral 0 (List.replicate k 48) = 0 := by
    induction k with
    | zero => rfl
    | succ k ih => exact ih
  refine ⟨[], List.replicate n 48, rfl, Or.inl rfl, ?_, ?_, ?_⟩
  · rw [ne_eq, List.replicate_eq_nil_iff]
    exact Nat.ne_of_gt hn
  · intro b hb
    rw [List.eq_of_mem_replicate hb]
    rfl
  · rw [hzero]
    rfl

/-- A number that is too long is refused. -/
theorem fails_readInt_zeros {n : ℕ} (hn : 65471 < n) (rest : Bytes) :
    ∃ rest', Fails (readInt : Io σ Int64) (List.replicate n 48 ++ 13 :: 10 :: rest)
      (.redisError (ascii "Error parsing integer")) rest' := by
  obtain ⟨line, rest', v, pos, hline, heq, -⟩ | ⟨-, e, rest', hfails⟩ :=
    readStoll_cases (σ := σ) (List.replicate n 48 ++ 13 :: 10 :: rest)
  · have hzeros : ∀ b ∈ List.replicate n (48 : UInt8), b ≠ 13 := by
      intro b hb
      rw [List.eq_of_mem_replicate hb]
      decide
    have hsame := (line_unique (fun b hb ↦ (hline.2 b hb).1) hzeros heq.symm).1
    have hlen := hline.1
    rw [hsame, List.length_replicate] at hlen
    omega
  · exact ⟨rest', (hfails.bind _).handle (Fails.throw _ rest')⟩

/-- A number after a tab is read. -/
theorem reads_spaced (rest : Bytes) :
    Reads (readInt : Io σ Int64) (9 :: 53 :: 13 :: 10 :: rest) 5 rest := by
  have hline : IsLine [9, 53] := by
    refine ⟨by decide, List.forall_mem_cons.2 ⟨⟨by decide, by decide⟩, ?_⟩⟩
    exact List.forall_mem_singleton.2 ⟨by decide, by decide⟩
  have hstoll : Reads (readStoll : Io σ _) (9 :: 53 :: 13 :: 10 :: rest) ([9, 53], 5, 2) rest := by
    refine (reads_readBasicString hline rest).bind ?_
    have hfive : stoll [9, 53] = .ok (5, 2) := by decide
    rw [hfive]
    exact Reads.pure _ rest
  exact Reads.handle (hstoll.bind (Reads.pure 5 rest))

/-- A number of 65472 digits is refused, and one after a tab is not. -/
theorem not_numberRead :
    (Denotes (List.replicate 65472 48) 0 ∧ ∀ v rest,
        (readInt : Io Unit Int64).run () (List.replicate 65472 48 ++ [13, 10])
          ≠ ⟨.ok v, (), rest, []⟩)
      ∧ ¬ Denotes [9, 53] 5
        ∧ (readInt : Io Unit Int64).run () [9, 53, 13, 10] = ⟨.ok 5, (), [], []⟩ := by
  refine ⟨⟨denotes_zeros (by decide), fun v rest h ↦ ?_⟩, fun h ↦ ?_, reads_spaced [] ()⟩
  · obtain ⟨rest', hfails⟩ := fails_readInt_zeros (σ := Unit) (by decide : 65471 < 65472) []
    rw [hfails ()] at h
    cases congrArg Outcome.result h
  · exact h.not_mem (by decide) List.mem_cons_self

end Redis
end ManyTasks
