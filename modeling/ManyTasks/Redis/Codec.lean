import ManyTasks.Redis.Resp

/-!
# Reading back what was written

`Msg` is a message of the protocol as a tree: arrays hold messages.  `writeMessage` sends one by
the calls of `RespWriter`, an array by `StartArray` and then its elements; `readMessage` receives
one by `ReadType` and the call of `RespReader` that goes with the type.  `readMessage` nests as
deep as the message does, so it is given a fuel that bounds the nesting.

`read_write_message` is the round trip: a valid message that was written is read back as it was,
from any stream that begins with it, and what comes after it stays unread.  It rests on one lemma
for each call of the reader, which says what that call returns on the output of the writer's
(`reads_readInt`, `reads_readBulkString` and so on).
-/

set_option autoImplicit false

namespace ManyTasks
namespace Redis

open Lib (Prog)
open Lib.Prog

variable {σ : Type}

/-! ## Lines -/

/-- A line that fits in the buffer of `ReadBasicStringToBuf`. -/
def IsLine (s : Bytes) : Prop := s.length ≤ 65471 ∧ ∀ b ∈ s, b ≠ 13 ∧ b ≠ 10

theorem reads_lineLoop (buf : LineBuf) (s rest : Bytes) (hs : ∀ b ∈ s, b ≠ 13 ∧ b ≠ 10)
    (hlen : buf.line.length + s.length ≤ 65471) :
    ∃ buf', Reads (lineLoop buf : Io σ LineBuf) (s ++ 13 :: rest) buf' rest ∧
      buf'.line = buf.line ++ s := by
  induction s generalizing buf with
  | nil =>
    refine ⟨buf, ?_, (List.append_nil _).symm⟩
    rw [lineLoop]
    exact (reads_readOne _ _ _).bind (Reads.pure buf rest)
  | cons b s ih =>
    rw [List.length_cons] at hlen
    obtain ⟨buf₁, hpush⟩ := buf.push_of_le b (by omega)
    obtain ⟨hne, hnl⟩ := hs b (by simp)
    obtain ⟨buf', hreads, hline⟩ := ih buf₁ (fun c hc ↦ hs c (by simp [hc]))
      (by rw [(LineBuf.length_of_push hpush).1]; omega)
    refine ⟨buf', ?_, by rw [hline, LineBuf.line_of_push hpush]; simp⟩
    rw [lineLoop]
    refine (reads_readOne _ _ _).bind ?_
    rw [if_neg hne, if_neg hnl]
    split
    · rename_i h; rw [hpush] at h; cases h
    · rename_i buf₂ h; rw [hpush] at h; cases h; exact hreads

theorem reads_readBasicString {s : Bytes} (hs : IsLine s) (rest : Bytes) :
    Reads (readBasicString : Io σ Bytes) (s ++ 13 :: 10 :: rest) s rest := by
  obtain ⟨buf, hreads, hline⟩ := reads_lineLoop LineBuf.init s (10 :: rest) hs.2 (by simpa
    [LineBuf.init] using hs.1)
  refine hreads.bind ((reads_readOne _ _ _).bind ?_)
  rw [if_neg (by simp), hline]
  exact Reads.pure s rest

theorem reads_readType (type : ERespType) (rest : Bytes) :
    Reads (readType : Io σ ERespType) (respTypeToChar type :: rest) type rest := by
  refine Reads.handle ((reads_readOne _ _ _).bind ?_)
  rw [charToRespType_respTypeToChar]
  exact Reads.pure type rest

/-! ## Numbers -/

theorem isLine_printInt {z : ℤ} (hz : Lib.FitsInt64 z) : IsLine (Lib.printInt z) := by
  constructor
  · have hlen : (Lib.printInt z).length ≤ 18 + 2 := Lib.length_printInt_le (by
      obtain ⟨hlo, hhi⟩ := hz
      norm_num at hlo hhi ⊢
      omega)
    omega
  · intro b hb
    rcases Lib.mem_printInt hb with rfl | hd
    · decide
    · rw [Lib.isDigit_iff] at hd
      exact ⟨by rintro rfl; simp at hd, by rintro rfl; simp at hd⟩

theorem reads_readStoll {z : ℤ} (hz : Lib.FitsInt64 z) (rest : Bytes) :
    Reads (readStoll : Io σ _) (Lib.printInt z ++ 13 :: 10 :: rest)
      (Lib.printInt z, Int64.ofInt z, (Lib.printInt z).length) rest := by
  refine (reads_readBasicString (isLine_printInt hz) rest).bind ?_
  rw [Lib.stoll_printInt, if_pos hz]
  exact Reads.pure _ rest

theorem reads_readInt (n : Int64) (rest : Bytes) :
    Reads (readInt : Io σ Int64) (Lib.printInt n.toInt ++ 13 :: 10 :: rest) n rest := by
  have hhead : (Lib.printInt n.toInt)[0]? ≠ some 32 := by
    intro h
    rcases Lib.mem_printInt (List.mem_of_getElem? h) with h | h
    · exact absurd h (by decide)
    · exact absurd h (by decide)
  refine Reads.handle ((reads_readStoll (Lib.fitsInt64_toInt n) rest).bind ?_)
  simp only [hhead, ne_eq, not_true_eq_false, or_self, if_false, Int64.ofInt_toInt]
  exact Reads.pure n rest

/-- A header that announces `n ≥ -1`. -/
theorem reads_readLength {z : ℤ} (hz : Lib.FitsInt64 z) (hlow : -1 ≤ z) (rest : Bytes) :
    Reads (readLength : Io σ Int64) (Lib.printInt z ++ 13 :: 10 :: rest) (Int64.ofInt z) rest := by
  have hge : ¬ Int64.ofInt z < -1 := by
    rw [Int64.lt_iff_toInt_lt, Int64.toInt_ofInt_of_le hz.1 hz.2]
    exact Int.not_lt.2 hlow
  refine (reads_readStoll hz rest).bind ?_
  simp only [hge, ne_eq, not_true_eq_false, or_self, if_false]
  exact Reads.pure _ rest

/-- A length is not taken for the `-1` of a null string or array. -/
theorem ofInt_natCast_ne_neg_one {n : ℕ} (hn : Lib.FitsInt64 n) : Int64.ofInt n ≠ -1 := by
  intro h
  have hint := congrArg Int64.toInt h
  rw [Int64.toInt_ofInt_of_le hn.1 hn.2] at hint
  simp at hint

/-! ## Bulk strings and arrays -/

/-- A string that the reader has room for, together with the `\r\n` after it. -/
def FitsBuffer (s : Bytes) : Prop := s.length + 2 ≤ maxSize

theorem FitsBuffer.fitsInt64 {s : Bytes} (hs : FitsBuffer s) : Lib.FitsInt64 s.length := by
  simp only [FitsBuffer, maxSize, Lib.FitsInt64] at hs ⊢
  omega

/-- The length of the buffer, computed from the header. -/
theorem toNat_ofInt_add_two {s : Bytes} (hs : FitsBuffer s) :
    (Int64.ofInt s.length + 2).toUInt64.toNat = s.length + 2 ∧
      (Int64.ofInt s.length).toUInt64.toNat = s.length := by
  simp only [FitsBuffer, maxSize] at hs
  rw [Int64.ofInt_eq_ofNat, Int64.toUInt64_add, Int64.toUInt64_ofNat', UInt64.toNat_add,
    UInt64.toNat_ofNat']
  constructor
  · rw [show (Int64.toUInt64 2).toNat = 2 from rfl]
    omega
  · omega

theorem reads_readBulkString {s : Bytes} (hs : FitsBuffer s) (rest : Bytes) :
    Reads (readBulkString : Io σ (Option Bytes))
      (Lib.printInt s.length ++ 13 :: 10 :: (s ++ 13 :: 10 :: rest)) (some s) rest := by
  obtain ⟨hsize, hlength⟩ := toNat_ofInt_add_two hs
  have hne := ofInt_natCast_ne_neg_one hs.fitsInt64
  have hbuf : (s ++ 13 :: 10 :: rest) = (s ++ [13, 10]) ++ rest := by simp
  refine Reads.handle ((reads_readLength hs.fitsInt64 (by omega) _).bind ?_)
  rw [if_neg hne, hsize, if_neg (Nat.not_lt.2 hs), hbuf,
    show s.length + 2 = (s ++ [13, 10]).length by simp]
  refine (reads_readFull _ _ _).bind ?_
  rw [hlength, if_neg (by simp), List.take_left]
  exact Reads.pure _ rest

theorem printInt_neg_one : Lib.printInt (-1) = ascii "-1" := by decide +kernel

theorem reads_readBulkString_null (rest : Bytes) :
    Reads (readBulkString : Io σ (Option Bytes)) (ascii "-1" ++ 13 :: 10 :: rest) none rest := by
  rw [← printInt_neg_one]
  refine Reads.handle ((reads_readLength (by decide) (by decide) _).bind ?_)
  exact Reads.pure none rest

theorem reads_readArrayLength {z : ℤ} (hz : Lib.FitsInt64 z) (hlow : -1 ≤ z) (rest : Bytes) :
    Reads (readArrayLength : Io σ Int64) (Lib.printInt z ++ 13 :: 10 :: rest) (Int64.ofInt z)
      rest :=
  (reads_readLength hz hlow rest).handle

/-! ## What the writer writes -/

theorem writes_writeSimpleString (s : Bytes) : Writes (writeSimpleString s : Io σ Unit)
    (respTypeToChar .SimpleString :: (s ++ [13, 10])) :=
  (writes_writeAll _).bind ((writes_writeAll _).bind (writes_writeAll _))

theorem writes_writeError (s : Bytes) : Writes (writeError s : Io σ Unit)
    (respTypeToChar .Error :: (s ++ [13, 10])) :=
  (writes_writeAll _).bind ((writes_writeAll _).bind (writes_writeAll _))

theorem writes_writeInt (n : Int64) : Writes (writeInt n : Io σ Unit)
    (respTypeToChar .Int :: (Lib.printInt n.toInt ++ [13, 10])) :=
  (writes_writeAll _).bind ((writes_writeAll _).bind (writes_writeAll _))

theorem writes_writeBulkString (s : Bytes) : Writes (writeBulkString s : Io σ Unit)
    (respTypeToChar .BulkString :: (Lib.printInt s.length ++ ([13, 10] ++ (s ++ [13, 10])))) :=
  (writes_writeAll _).bind ((writes_writeAll _).bind
    ((writes_writeAll _).bind ((writes_writeAll _).bind (writes_writeAll _))))

theorem writes_writeNullBulkString : Writes (writeNullBulkString : Io σ Unit)
    (respTypeToChar .BulkString :: (ascii "-1" ++ [13, 10])) :=
  (writes_writeAll _).bind ((writes_writeAll _).bind (writes_writeAll _))

theorem writes_startArray (size : ℕ) : Writes (startArray size : Io σ Unit)
    (respTypeToChar .Array :: (Lib.printInt size ++ [13, 10])) :=
  (writes_writeAll _).bind ((writes_writeAll _).bind (writes_writeAll _))

theorem writes_writeNullArray : Writes (writeNullArray : Io σ Unit)
    (respTypeToChar .Array :: (ascii "-1" ++ [13, 10])) :=
  (writes_writeAll _).bind ((writes_writeAll _).bind (writes_writeAll _))

/-! ## Messages -/

/-- A message of the protocol. -/
inductive Msg where
  | simple (s : Bytes)
  | error (s : Bytes)
  | int (n : Int64)
  | bulk (s : Bytes)
  | nullBulk
  | array (elems : List Msg)
  | nullArray

namespace Msg

mutual

/-- The texts of simple strings and errors are lines, bulk strings fit in the reader's buffer and
arrays have no more elements than an `int64_t` counts. -/
def Valid : Msg → Prop
  | simple s => IsLine s
  | error s => IsLine s
  | int _ => True
  | bulk s => FitsBuffer s
  | nullBulk => True
  | array elems => elems.length < 2 ^ 63 ∧ ValidAll elems
  | nullArray => True

/-- Every message of a list is valid. -/
def ValidAll : List Msg → Prop
  | [] => True
  | m :: ms => m.Valid ∧ ValidAll ms

end

mutual

/-- How deep arrays are nested. -/
def depth : Msg → ℕ
  | array elems => depthAll elems + 1
  | _ => 0

/-- The depth of the deepest message of a list. -/
def depthAll : List Msg → ℕ
  | [] => 0
  | m :: ms => max m.depth (depthAll ms)

end

end Msg

mutual

/-- Send a message by the calls of `RespWriter`. -/
def writeMessage : Msg → Io σ Unit
  | .simple s => writeSimpleString s
  | .error s => writeError s
  | .int n => writeInt n
  | .bulk s => writeBulkString s
  | .nullBulk => writeNullBulkString
  | .array elems => do
    startArray elems.length
    writeMessages elems
  | .nullArray => writeNullArray

/-- Send the elements of an array, one after the other. -/
def writeMessages : List Msg → Io σ Unit
  | [] => return ()
  | m :: ms => do
    writeMessage m
    writeMessages ms

end

/-- Receive `n` messages, each of them by `readOneMessage`. -/
def readMessages (readOneMessage : Io σ Msg) : ℕ → Io σ (List Msg)
  | 0 => return []
  | n + 1 => do
    let m ← readOneMessage
    let ms ← readMessages readOneMessage n
    return m :: ms

/-- Receive a message by the calls of `RespReader`; arrays may nest as deep as the fuel lasts. -/
def readMessage : ℕ → Io σ Msg
  | 0 => throw (.redisError (ascii "Nested too deep"))
  | fuel + 1 => do
    match ← readType with
    | .SimpleString => return .simple (← readSimpleString)
    | .Error => return .error (← readError)
    | .Int => return .int (← readInt)
    | .BulkString =>
      match ← readBulkString with
      | some s => return .bulk s
      | none => return .nullBulk
    | .Array =>
      let length ← readArrayLength
      if length = -1 then return .nullArray
      return .array (← readMessages (readMessage fuel) length.toUInt64.toNat)

/-! ## The round trip -/

/-- `bytes` is read back as `m`: whatever comes after it stays unread, and any fuel above the depth
of `m` will do. -/
def ReadsBack (bytes : Bytes) (m : Msg) : Prop :=
  ∀ (τ : Type) (fuel : ℕ) (rest : Bytes), m.depth < fuel →
    Reads (readMessage fuel : Io τ Msg) (bytes ++ rest) m rest

/-- `bytes` is read back as the elements `ms` of an array. -/
def ReadsBackAll (bytes : Bytes) (ms : List Msg) : Prop :=
  ∀ (τ : Type) (fuel : ℕ) (rest : Bytes), Msg.depthAll ms < fuel →
    Reads (readMessages (readMessage fuel : Io τ Msg) ms.length) (bytes ++ rest) ms rest

/-- After the type byte, `readMessage` goes on with the call for the type. -/
theorem readsBack_of_type {type : ERespType} {body : Bytes} {m : Msg}
    (h : ∀ (τ : Type) (fuel : ℕ) (rest : Bytes), m.depth < fuel + 1 →
      ∀ mid, mid = body ++ rest → Reads (do
        match type with
        | .SimpleString => return .simple (← readSimpleString)
        | .Error => return .error (← readError)
        | .Int => return .int (← readInt)
        | .BulkString =>
          match ← readBulkString with
          | some s => return .bulk s
          | none => return .nullBulk
        | .Array =>
          let length ← readArrayLength
          if length = -1 then return .nullArray
          return .array (← readMessages (readMessage fuel) length.toUInt64.toNat) : Io τ Msg)
        mid m rest) :
    ReadsBack (respTypeToChar type :: body) m := by
  intro τ fuel rest hfuel
  obtain ⟨fuel, rfl⟩ : ∃ k, fuel = k + 1 := ⟨fuel - 1, by omega⟩
  exact (reads_readType type (body ++ rest)).bind (h τ fuel rest hfuel _ rfl)

theorem readsBack_simple {s : Bytes} (hs : IsLine s) :
    ReadsBack (respTypeToChar .SimpleString :: (s ++ [13, 10])) (.simple s) := by
  refine readsBack_of_type fun τ fuel rest _ mid hmid ↦ ?_
  rw [hmid, List.append_assoc]
  exact (reads_readBasicString hs rest).handle.bind (Reads.pure _ rest)

theorem readsBack_error {s : Bytes} (hs : IsLine s) :
    ReadsBack (respTypeToChar .Error :: (s ++ [13, 10])) (.error s) := by
  refine readsBack_of_type fun τ fuel rest _ mid hmid ↦ ?_
  rw [hmid, List.append_assoc]
  exact (reads_readBasicString hs rest).handle.bind (Reads.pure _ rest)

theorem readsBack_int (n : Int64) :
    ReadsBack (respTypeToChar .Int :: (Lib.printInt n.toInt ++ [13, 10])) (.int n) := by
  refine readsBack_of_type fun τ fuel rest _ mid hmid ↦ ?_
  rw [hmid, List.append_assoc]
  exact (reads_readInt n rest).bind (Reads.pure _ rest)

theorem readsBack_bulk {s : Bytes} (hs : FitsBuffer s) :
    ReadsBack (respTypeToChar .BulkString ::
      (Lib.printInt s.length ++ ([13, 10] ++ (s ++ [13, 10])))) (.bulk s) := by
  refine readsBack_of_type fun τ fuel rest _ mid hmid ↦ ?_
  have hbytes : mid = Lib.printInt s.length ++ 13 :: 10 :: (s ++ 13 :: 10 :: rest) := by
    simp [hmid]
  rw [hbytes]
  exact (reads_readBulkString hs rest).bind (Reads.pure _ rest)

theorem readsBack_nullBulk :
    ReadsBack (respTypeToChar .BulkString :: (ascii "-1" ++ [13, 10])) .nullBulk := by
  refine readsBack_of_type fun τ fuel rest _ mid hmid ↦ ?_
  rw [hmid, List.append_assoc]
  exact (reads_readBulkString_null rest).bind (Reads.pure _ rest)

theorem readsBack_nullArray :
    ReadsBack (respTypeToChar .Array :: (ascii "-1" ++ [13, 10])) .nullArray := by
  refine readsBack_of_type fun τ fuel rest _ mid hmid ↦ ?_
  rw [hmid, List.append_assoc, ← printInt_neg_one]
  exact (reads_readArrayLength (by decide) (by decide) rest).bind (Reads.pure _ rest)

theorem readsBack_array {bytes : Bytes} {elems : List Msg} (hlen : elems.length < 2 ^ 63)
    (h : ReadsBackAll bytes elems) :
    ReadsBack (respTypeToChar .Array :: (Lib.printInt elems.length ++ [13, 10] ++ bytes))
      (.array elems) := by
  have hfits : Lib.FitsInt64 elems.length := by
    simp only [Lib.FitsInt64]
    omega
  have hne := ofInt_natCast_ne_neg_one hfits
  have hcount : (Int64.ofInt elems.length).toUInt64.toNat = elems.length := by
    rw [Int64.ofInt_eq_ofNat, Int64.toUInt64_ofNat', UInt64.toNat_ofNat']
    omega
  refine readsBack_of_type fun τ fuel rest hfuel mid hmid ↦ ?_
  rw [hmid, List.append_assoc, List.append_assoc]
  refine (reads_readArrayLength hfits (by omega) _).bind ?_
  rw [if_neg hne, hcount]
  refine (h τ fuel rest ?_).bind (Reads.pure _ rest)
  simpa [Msg.depth] using hfuel

theorem readsBackAll_cons {bytes bytes' : Bytes} {m : Msg} {ms : List Msg}
    (h : ReadsBack bytes m) (hs : ReadsBackAll bytes' ms) :
    ReadsBackAll (bytes ++ bytes') (m :: ms) := by
  intro τ fuel rest hfuel
  rw [Msg.depthAll, Nat.max_lt] at hfuel
  rw [List.append_assoc]
  exact (h τ fuel _ hfuel.1).bind ((hs τ fuel rest hfuel.2).bind (Reads.pure _ rest))

mutual

/-- What is written of a valid message is read back as that message. -/
theorem exists_readsBack : (m : Msg) → m.Valid →
    ∃ bytes, Writes (writeMessage m : Io σ Unit) bytes ∧ ReadsBack bytes m
  | .simple s, hm => by
    rw [Msg.Valid] at hm
    exact ⟨_, writes_writeSimpleString s, readsBack_simple hm⟩
  | .error s, hm => by
    rw [Msg.Valid] at hm
    exact ⟨_, writes_writeError s, readsBack_error hm⟩
  | .int n, _ => ⟨_, writes_writeInt n, readsBack_int n⟩
  | .bulk s, hm => by
    rw [Msg.Valid] at hm
    exact ⟨_, writes_writeBulkString s, readsBack_bulk hm⟩
  | .nullBulk, _ => ⟨_, writes_writeNullBulkString, readsBack_nullBulk⟩
  | .nullArray, _ => ⟨_, writes_writeNullArray, readsBack_nullArray⟩
  | .array elems, hm => by
    rw [Msg.Valid] at hm
    obtain ⟨bytes, hwrites, hreads⟩ := exists_readsBackAll elems hm.2
    rw [writeMessage]
    exact ⟨_, (writes_startArray elems.length).bind hwrites, readsBack_array hm.1 hreads⟩

/-- What is written of the elements of an array is read back as those elements. -/
theorem exists_readsBackAll : (ms : List Msg) → Msg.ValidAll ms →
    ∃ bytes, Writes (writeMessages ms : Io σ Unit) bytes ∧ ReadsBackAll bytes ms
  | [], _ => ⟨[], fun _ _ ↦ rfl, fun _ _ rest _ ↦ Reads.pure [] rest⟩
  | m :: ms, hms => by
    rw [Msg.ValidAll] at hms
    obtain ⟨bytes, hwrites, hreads⟩ := exists_readsBack m hms.1
    obtain ⟨bytes', hwrites', hreads'⟩ := exists_readsBackAll ms hms.2
    rw [writeMessages]
    exact ⟨_, hwrites.bind hwrites', readsBackAll_cons hreads hreads'⟩

end

/-- **The round trip.**  A valid message is written without reading anything or touching the state,
and from any stream that begins with what was written the reader gets the same message back and
leaves exactly the rest, given any fuel above the depth of the message. -/
theorem read_write_message (m : Msg) (hm : m.Valid) (s : σ) (inp : Bytes) :
    ∃ bytes, (writeMessage m).run s inp = ⟨.ok (), s, inp, bytes⟩ ∧
      ∀ (τ : Type) (t : τ) (rest : Bytes) (fuel : ℕ), m.depth < fuel →
        (readMessage fuel).run t (bytes ++ rest) = ⟨.ok m, t, rest, []⟩ := by
  obtain ⟨bytes, hwrites, hreads⟩ := exists_readsBack (σ := σ) m hm
  exact ⟨bytes, hwrites s inp, fun τ t rest fuel hfuel ↦ hreads τ fuel rest hfuel t⟩

/-- `[-2^63, [null, "\r\n"], "+OK"]`, nested arrays with a line break in a payload. -/
theorem read_write_message_nested :
    let m := Msg.array [.int Int64.minValue, .array [.nullBulk, .bulk [13, 10]], .simple [79, 75]]
    m.Valid ∧ ∃ bytes, (writeMessage m).run () [] = ⟨.ok (), (), [], bytes⟩ ∧
      ∀ (τ : Type) (t : τ) (rest : Bytes) (fuel : ℕ), m.depth < fuel →
        (readMessage fuel).run t (bytes ++ rest) = ⟨.ok m, t, rest, []⟩ := by
  intro m
  have hm : m.Valid := by
    simp [m, Msg.Valid, Msg.ValidAll, IsLine, FitsBuffer, maxSize]
  exact ⟨hm, read_write_message m hm () []⟩

end Redis
end ManyTasks
