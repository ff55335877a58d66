import ManyTasks.Redis.Codec

/-!
# The line reader

`ReadBasicStringToBuf` reads a line of unknown length into a string, one byte at a time.  The string
has 1023 bytes at first and is doubled whenever it is full, unless it would be longer than `2 ^ 16`
bytes then; so a line has at most 65471 bytes.

`readBasicStringToBuf` works on the string itself, where a byte may be read to a place that is not
there.  It does what `readBasicString` does on a `LineBuf`, of which only the line is of interest
(`readBasicStringToBuf_eq`), and what that does is known on every stream (`readBasicString_cases`).
-/

set_option autoImplicit false

namespace ManyTasks
namespace Redis

open Lib (Prog)
open Lib.Prog

variable {σ : Type}

/-! ## The string -/

/-- What reading into a string comes to if it does not return. -/
inductive Failure where
  | exc (e : Exc)
  /-- A byte is read to a place that is not in the string. -/
  | outOfBounds
deriving DecidableEq, Repr

/-- `std::string(n, '\0')`. -/
def zeros (n : ℕ) : Bytes := List.replicate n 0

/-- `resize`. -/
def resize (buf_ : Bytes) (n : ℕ) : Bytes := buf_.take n ++ zeros (n - buf_.length)

theorem length_resize (buf_ : Bytes) (n : ℕ) : (resize buf_ n).length = n := by
  rw [resize, zeros, List.length_append, List.length_take, List.length_replicate]
  omega

/-- The `while` loop of `ReadBasicStringToBuf`: the string and `size` when a `\r` is read. -/
def fillLoop (buf_ : Bytes) (size : ℕ) : Prog UInt8 σ Failure (Bytes × ℕ) :=
  if hlt : size < buf_.length then do
    let c ← readOne (.exc .eof)
    let read := buf_.set size c
    if read[size]? = some 13 then return (read, size)
    else if read[size]? = some 10 then
      throw (.exc (.redisError (ascii "Wrong string ending symbol")))
    else if read.length = size + 1 then
      if hbig : 2 ^ 16 < (size + 1) * 2 then
        throw (.exc (.redisError (ascii "Wrong string ending symbol")))
      else fillLoop (resize read ((size + 1) * 2)) (size + 1)
    else fillLoop read (size + 1)
  else throw .outOfBounds
termination_by max buf_.length (2 ^ 16) - size
decreasing_by
  · rw [length_resize]
    omega
  · rw [List.length_set]
    omega

/-- `ReadBasicStringToBuf`: what `buf_` is then. -/
def readBasicStringToBuf : Prog UInt8 σ Failure Bytes := do
  let (buf_, size) ← fillLoop (zeros 1023) 0
  if size < buf_.length then do
    let c ← readOne (.exc .eof)
    let buf_ := buf_.set size c
    if buf_[size]? ≠ some 10 then
      throw (.exc (.redisError (ascii "Wrong string ending symbol")))
    return resize buf_ size
  else throw .outOfBounds

/-! ## The string and the line in it -/

/-- The line is at the beginning of the string. -/
def Represents (buf_ : Bytes) (buf : LineBuf) : Prop :=
  buf_.length = buf.cap ∧ buf_.take buf.line.length = buf.line

theorem represents_init : Represents (zeros 1023) LineBuf.init :=
  ⟨List.length_replicate, List.take_zero⟩

section

variable {buf_ : Bytes} {buf buf' : LineBuf} {b : UInt8}

theorem Represents.lt (h : Represents buf_ buf) : buf.line.length < buf_.length :=
  h.1.symm ▸ buf.size_lt

/-- The byte that is read is the first one after the line. -/
theorem Represents.take_set (h : Represents buf_ buf) (b : UInt8) :
    (buf_.set buf.line.length b).take (buf.line.length + 1) = buf.line ++ [b] := by
  rw [List.take_add_one, List.take_set_of_le (Nat.le_refl _), h.2, List.getElem?_set_self h.lt]
  rfl

theorem cap_of_push (hpush : buf.push b = some buf') :
    buf'.cap = if buf.line.length + 1 = buf.cap then (buf.line.length + 1) * 2 else buf.cap := by
  rw [LineBuf.push] at hpush
  split_ifs at hpush with hfull hbig
  · cases hpush
    rw [if_pos hfull]
  · cases hpush
    rw [if_neg hfull]

theorem push_eq_none_iff : buf.push b = none
    ↔ buf.line.length + 1 = buf.cap ∧ 2 ^ 16 < (buf.line.length + 1) * 2 := by
  rw [LineBuf.push]
  split_ifs with hfull hbig
  · exact iff_of_true rfl ⟨hfull, hbig⟩
  · exact iff_of_false (by simp) fun h ↦ hbig h.2
  · exact iff_of_false (by simp) fun h ↦ hfull h.1

/-- The loop, with nothing in it that says why it ends. -/
theorem lineLoop_eq (buf : LineBuf) : (lineLoop buf : Io σ LineBuf) = (do
    let b ← readOne .eof
    if b = 13 then return buf
    else if b = 10 then throw (.redisError (ascii "Wrong string ending symbol"))
    else
      match buf.push b with
      | none => throw (.redisError (ascii "Wrong string ending symbol"))
      | some buf' => lineLoop buf') := by
  rw [lineLoop]
  refine congrArg _ (funext fun b ↦ ?_)
  split_ifs
  · rfl
  · rfl
  · split
    · rename_i hpush
      rw [hpush]
    · rename_i hpush
      dsimp only
      rw [hpush]

/-- What the loop makes of the string after a byte of the line. -/
theorem Represents.push (h : Represents buf_ buf) (hpush : buf.push b = some buf') :
    Represents
      (if buf_.length = buf.line.length + 1
        then resize (buf_.set buf.line.length b) ((buf.line.length + 1) * 2)
        else buf_.set buf.line.length b) buf' := by
  have hcap := cap_of_push hpush
  have hline := LineBuf.line_of_push hpush
  have hlength : buf'.line.length = buf.line.length + 1 := (LineBuf.length_of_push hpush).1
  rw [Represents, hcap, hlength, hline, ← h.1]
  split_ifs with hfull hfull'
  · refine ⟨length_resize _ _, ?_⟩
    have hset : (buf_.set buf.line.length b).length = buf.line.length + 1 :=
      List.length_set.trans hfull
    have htake : (buf_.set buf.line.length b).take ((buf.line.length + 1) * 2)
        = buf_.set buf.line.length b := List.take_of_length_le (by omega)
    rw [resize, htake, List.take_append_of_le_length (Nat.le_of_eq hset.symm), h.take_set]
  · exact absurd hfull.symm hfull'
  · exact absurd (Eq.symm ‹_›) hfull
  · exact ⟨List.length_set, h.take_set b⟩

/-- **The loop is the loop on a `LineBuf`**, whatever comes after it. -/
theorem Represents.fillLoop_bind (h : Represents buf_ buf) {α : Type}
    {k : Bytes × ℕ → Prog UInt8 σ Failure α} {k' : LineBuf → Prog UInt8 σ Failure α}
    (hk : ∀ buf_ buf, Represents buf_ buf → k (buf_, buf.line.length) = k' buf) :
    fillLoop buf_ buf.line.length >>= k = (lineLoop buf).mapError .exc >>= k' := by
  induction hn : 2 ^ 16 - buf.line.length using Nat.strong_induction_on generalizing buf_ buf with
  | _ n ih =>
    subst hn
    rw [fillLoop, dif_pos h.lt, lineLoop_eq, bind_def, bind_def]
    refine congrArg Prog.read (funext fun o ↦ ?_)
    cases o with
    | none => rfl
    | some b =>
      have hplace : (buf_.set buf.line.length b)[buf.line.length]? = some b :=
        List.getElem?_set_self h.lt
      have hlength : (buf_.set buf.line.length b).length = buf_.length := List.length_set
      dsimp only [Option.elim, Prog.bind]
      rw [hplace, hlength]
      simp only [Option.some_inj]
      by_cases hcr : b = 13
      · subst hcr
        rw [if_pos rfl, if_pos rfl]
        refine hk _ buf ⟨hlength.trans h.1, ?_⟩
        rw [List.take_set_of_le (Nat.le_refl _), h.2]
      rw [if_neg hcr, if_neg hcr]
      by_cases hlf : b = 10
      · rw [if_pos hlf, if_pos hlf]
        rfl
      rw [if_neg hlf, if_neg hlf]
      cases hpush : buf.push b with
      | none =>
        obtain ⟨hfull, hbig⟩ := push_eq_none_iff.1 hpush
        rw [if_pos (h.1.trans hfull.symm), dif_pos hbig]
        rfl
      | some buf' =>
        obtain ⟨hnext, hlt⟩ := LineBuf.length_of_push hpush
        have hrest := ih (2 ^ 16 - buf'.line.length) (by omega) (h.push hpush) rfl
        rw [hnext] at hrest
        dsimp only
        rw [← bind_def, ← bind_def, ← hrest]
        split_ifs with hfull hbig
        · have hnone : buf.push b = none := push_eq_none_iff.2 ⟨hfull.symm.trans h.1, hbig⟩
          rw [hnone] at hpush
          cases hpush
        · rfl
        · rfl

end

/-- **The string is what the line is in**: a byte is never read to a place that is not there. -/
theorem readBasicStringToBuf_eq :
    (readBasicStringToBuf : Prog UInt8 σ Failure Bytes) = readBasicString.mapError .exc := by
  rw [readBasicString, mapError_bind, readBasicStringToBuf]
  refine represents_init.fillLoop_bind fun buf_ buf h ↦ ?_
  dsimp only
  rw [if_pos h.lt, mapError_bind]
  refine congrArg Prog.read (funext fun o ↦ ?_)
  cases o with
  | none => rfl
  | some b =>
    have hplace : (buf_.set buf.line.length b)[buf.line.length]? = some b :=
      List.getElem?_set_self h.lt
    have hresize : resize (buf_.set buf.line.length b) buf.line.length = buf.line := by
      have hle : buf.line.length - buf_.length = 0 := Nat.sub_eq_zero_of_le (Nat.le_of_lt h.lt)
      rw [resize, List.length_set, hle, zeros, List.replicate_zero, List.append_nil,
        List.take_set_of_le (Nat.le_refl _), h.2]
    dsimp only [Option.elim, Prog.bind]
    rw [hplace, hresize]
    simp only [ne_eq, Option.some_inj]
    by_cases hlf : b = 10
    · subst hlf
      rfl
    · rw [if_pos hlf, mapError, Prog.bind, if_pos hlf]
      rfl

/-! ## All streams -/

/-- A line and its end. -/
def BeginsWithLine (inp : Bytes) : Prop := ∃ line rest, IsLine line ∧ inp = line ++ 13 :: 10 :: rest

/-- A buffer never has more than 65472 bytes. -/
theorem cap_le (buf : LineBuf) : buf.cap ≤ 65472 := by
  obtain ⟨k, hk⟩ := buf.cap_eq
  have hcap := buf.cap_le
  have hlt : k < 7 := by
    by_contra hge
    have hpow : 2 ^ 7 ≤ 2 ^ k := Nat.pow_le_pow_right (by norm_num) (by omega)
    omega
  interval_cases k <;> omega

section

variable {buf buf' : LineBuf} {b : UInt8}

/-- A byte of the line is put into the buffer. -/
theorem run_lineLoop_cons (hcr : b ≠ 13) (hlf : b ≠ 10) (hpush : buf.push b = some buf') (s : σ)
    (inp : Bytes) : (lineLoop buf : Io σ LineBuf).run s (b :: inp) = (lineLoop buf').run s inp := by
  rw [lineLoop_eq]
  change (if b = 13 then _ else _ : Io σ LineBuf).run s inp = _
  rw [if_neg hcr, if_neg hlf, hpush]

theorem fails_lineLoop_cons (hcr : b ≠ 13) (h : b = 10 ∨ buf.push b = none) (inp : Bytes) :
    Fails (lineLoop buf : Io σ LineBuf) (b :: inp)
      (.redisError (ascii "Wrong string ending symbol")) inp := by
  rw [lineLoop_eq]
  refine (reads_readOne _ _ _).bind_fails ?_
  rw [if_neg hcr]
  by_cases hlf : b = 10
  · rw [if_pos hlf]
    exact Fails.throw _ _
  · rw [if_neg hlf, h.resolve_left hlf]
    exact Fails.throw _ _

end

/-- What the loop does with what has not been read yet. -/
theorem lineLoop_cases (buf : LineBuf) (inp : Bytes) :
    (∃ line rest buf', (∀ b ∈ line, b ≠ 13 ∧ b ≠ 10) ∧ inp = line ++ 13 :: rest
        ∧ buf'.line = buf.line ++ line ∧ Reads (lineLoop buf : Io σ LineBuf) inp buf' rest)
      ∨ (∀ line rest, (∀ b ∈ line, b ≠ 13 ∧ b ≠ 10) → buf.line.length + line.length ≤ 65471 →
          inp ≠ line ++ 13 :: rest)
        ∧ ∃ e taken rest, inp = taken ++ rest ∧ buf.line.length + taken.length ≤ 65472
          ∧ Fails (lineLoop buf : Io σ LineBuf) inp e rest := by
  induction inp generalizing buf with
  | nil =>
    have hlt := buf.size_lt.trans_le (cap_le buf)
    refine Or.inr ⟨fun line rest _ _ heq ↦ by simp at heq, .eof, [], [], rfl, Nat.le_of_lt hlt, ?_⟩
    rw [lineLoop_eq]
    exact (fails_readOne _).bind _
  | cons b inp ih =>
    have hlt := buf.size_lt.trans_le (cap_le buf)
    by_cases hcr : b = 13
    · subst hcr
      refine Or.inl ⟨[], inp, buf, by simp, rfl, (List.append_nil _).symm, ?_⟩
      rw [lineLoop_eq]
      exact (reads_readOne _ _ _).bind (Reads.pure buf inp)
    by_cases hstop : b = 10 ∨ buf.push b = none
    · refine Or.inr ⟨fun line rest hline hlen heq ↦ ?_, _, [b], inp, rfl, hlt,
        fails_lineLoop_cons hcr hstop inp⟩
      cases line with
      | nil => exact hcr (List.cons.inj heq).1
      | cons c line =>
        obtain rfl := (List.cons.inj heq).1
        have hnone := hstop.resolve_left (hline b List.mem_cons_self).2
        obtain ⟨buf', hpush⟩ := buf.push_of_le b (by rw [List.length_cons] at hlen; omega)
        rw [hnone] at hpush
        cases hpush
    · obtain ⟨hlf, hsome⟩ := not_or.1 hstop
      obtain ⟨buf', hpush⟩ := Option.ne_none_iff_exists'.1 hsome
      have hnext := (LineBuf.length_of_push hpush).1
      have hline' := LineBuf.line_of_push hpush
      have hrun := fun s ↦ run_lineLoop_cons hcr hlf hpush (s : σ) inp
      obtain ⟨line, rest, buf'', hclean, heq, hline, hreads⟩ |
        ⟨hnot, e, taken, rest, heq, hle, hfails⟩
        := ih buf'
      · refine Or.inl ⟨b :: line, rest, buf'', List.forall_mem_cons.2 ⟨⟨hcr, hlf⟩, hclean⟩,
          congrArg _ heq, ?_, fun s ↦ (hrun s).trans (hreads s)⟩
        rw [hline, hline', List.append_assoc, List.singleton_append]
      · refine Or.inr ⟨fun line rest' hclean hlen hwhole ↦ ?_, e, b :: taken, rest, congrArg _ heq,
          ?_, fun s ↦ (hrun s).trans (hfails s)⟩
        · cases line with
          | nil => exact hcr (List.cons.inj hwhole).1
          | cons c line =>
            rw [List.length_cons] at hlen
            exact hnot line rest' (fun d hd ↦ hclean d (List.mem_cons_of_mem c hd)) (by omega)
              (List.cons.inj hwhole).2
        · rw [List.length_cons]
          omega

/-- A stream begins with one line. -/
theorem line_unique {line line' rest rest' : Bytes} (hline : ∀ b ∈ line, b ≠ 13)
    (hline' : ∀ b ∈ line', b ≠ 13) (heq : line ++ 13 :: rest = line' ++ 13 :: rest') :
    line = line' ∧ rest = rest' := by
  induction line generalizing line' with
  | nil =>
    cases line' with
    | nil => exact ⟨rfl, (List.cons.inj heq).2⟩
    | cons c line' => exact absurd (List.cons.inj heq).1.symm (hline' c List.mem_cons_self)
  | cons b line ih =>
    cases line' with
    | nil => exact absurd (List.cons.inj heq).1 (hline b List.mem_cons_self)
    | cons c line' =>
      obtain ⟨hhead, htail⟩ := List.cons.inj heq
      obtain ⟨hsame, hrest⟩ := ih (fun d hd ↦ hline d (List.mem_cons_of_mem b hd))
        (fun d hd ↦ hline' d (List.mem_cons_of_mem c hd)) htail
      exact ⟨congrArg₂ List.cons hhead hsame, hrest⟩

theorem IsLine.unique {line line' rest rest' : Bytes} (h : IsLine line) (h' : IsLine line')
    (heq : line ++ 13 :: rest = line' ++ 13 :: rest') : line = line' ∧ rest = rest' :=
  line_unique (fun b hb ↦ (h.2 b hb).1) (fun b hb ↦ (h'.2 b hb).1) heq

/-- **Every stream begins with a line, which is read, or does not, and is refused.** -/
theorem readBasicString_cases (inp : Bytes) :
    (∃ line rest, IsLine line ∧ inp = line ++ 13 :: 10 :: rest
        ∧ Reads (readBasicString : Io σ Bytes) inp line rest)
      ∨ ¬ BeginsWithLine inp ∧ ∃ e taken rest, inp = taken ++ rest ∧ taken.length ≤ 65473
          ∧ Fails (readBasicString : Io σ Bytes) inp e rest := by
  obtain ⟨line, rest, buf, hclean, rfl, hline, hreads⟩ | ⟨hnot, e, taken, rest, heq, hle, hfails⟩ :=
    lineLoop_cases (σ := σ) LineBuf.init inp
  · have hline : buf.line = line := hline
    have hlen : line.length ≤ 65471 := by
      have hlt := buf.size_lt.trans_le (cap_le buf)
      rw [hline] at hlt
      exact Nat.le_of_lt_succ hlt
    have hlist : IsLine line := ⟨hlen, hclean⟩
    by_cases hend : ∃ rest', rest = 10 :: rest'
    · obtain ⟨rest, rfl⟩ := hend
      exact Or.inl ⟨line, rest, hlist, rfl, reads_readBasicString hlist rest⟩
    · refine Or.inr ⟨?_, ?_⟩
      · rintro ⟨line', rest', hline', heq⟩
        exact hend ⟨rest', (hlist.unique hline' heq).2⟩
      · cases rest with
        | nil =>
          refine ⟨.eof, line ++ [13], [], by simp, by simp; omega, hreads.bind_fails ?_⟩
          exact (fails_readOne _).bind _
        | cons c rest =>
          have hlf : c ≠ 10 := fun hlf ↦ hend ⟨rest, by rw [hlf]⟩
          refine ⟨.redisError (ascii "Wrong string ending symbol"), line ++ [13, c], rest, by simp,
            by simp; omega, hreads.bind_fails ((reads_readOne _ _ _).bind_fails ?_)⟩
          rw [if_pos hlf]
          exact (Fails.throw _ _).bind _
  · refine Or.inr ⟨?_, e, taken, rest, heq, ?_, hfails.bind _⟩
    · rintro ⟨line, rest', hline, hwhole⟩
      refine hnot line (10 :: rest') hline.2 ?_ hwhole
      exact (Nat.zero_add _).trans_le hline.1
    · have hle : 0 + taken.length ≤ 65472 := hle
      omega

/-- **What reading a line is to come to.** -/
structure LineRead (inp : Bytes) (o : Outcome UInt8 σ Failure Bytes) : Prop where
  accepts : (∃ buf_, o.result = .ok buf_) ↔ BeginsWithLine inp
  line {buf_ : Bytes} (h : o.result = .ok buf_) :
    IsLine buf_ ∧ inp = buf_ ++ 13 :: 10 :: o.rest
  throws (h : ¬ BeginsWithLine inp) : (∃ e, o.result = .error (.exc e))
    ∧ ∃ taken, inp = taken ++ o.rest ∧ taken.length ≤ 65473
  in_bounds : o.result ≠ .error .outOfBounds

/-- **A line is read from every stream that begins with one**, and no byte is read to a place that
is not in the string. -/
theorem lineRead_readBasicStringToBuf (s : σ) (inp : Bytes) :
    LineRead inp (readBasicStringToBuf.run s inp) := by
  rw [readBasicStringToBuf_eq, run_mapError]
  obtain ⟨line, rest, hline, heq, hreads⟩ | ⟨hnot, e, taken, rest, heq, hle, hfails⟩ :=
    readBasicString_cases (σ := σ) inp
  · rw [hreads s]
    have hbegins : BeginsWithLine inp := ⟨line, rest, hline, heq⟩
    refine ⟨iff_of_true ⟨line, rfl⟩ hbegins, ?_, fun h ↦ absurd hbegins h, nofun⟩
    intro buf_ hbuf
    cases hbuf
    exact ⟨hline, heq⟩
  · rw [hfails s]
    refine ⟨iff_of_false ?_ hnot, ?_, fun _ ↦ ⟨⟨e, rfl⟩, taken, heq, hle⟩, ?_⟩
    · rintro ⟨buf_, hbuf⟩
      cases hbuf
    · intro buf_ hbuf
      cases hbuf
    · intro hbounds
      cases hbounds

end Redis
end ManyTasks
