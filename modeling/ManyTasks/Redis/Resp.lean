import ManyTasks.Lib.Decimal
import ManyTasks.Lib.Stream
import ManyTasks.Redis.Storage
import Mathlib.Tactic.IntervalCases
import Mathlib.Tactic.Ring

/-!
# The RESP protocol: writing and reading

A message of the protocol starts with a type byte and ends with `\r\n`.  `RespWriter` sends
messages, `RespReader` receives them; both work on a connection, so both are programs over a
stream of bytes.

The reader takes a line one byte at a time into a buffer that starts with 1023 bytes and doubles
when it is full, as long as the doubled size is at most `2 ^ 16`.  `LineBuf` is that buffer, with
the fact that the next byte has a place in it.  A bulk string is then read by its length, so that
it may contain any bytes at all.

Everything a reader can throw it turns into a `RedisError` of its own; the catch-all handlers of
the source are the `tryCatch` of the model.
-/

set_option autoImplicit false

namespace ManyTasks
namespace Redis

open Lib (Prog)
open Lib.Prog

/-! ## Types and exceptions -/

/-- The bytes of an ASCII text. -/
def ascii (s : String) : Bytes := s.toList.map Char.toUInt8

/-- The exceptions of the client and the server, all of them derived from `std::exception`. -/
inductive Exc where
  /-- `redis::RedisError` with its message. -/
  | redisError (what : Bytes)
  /-- `cactus::EOFException`. -/
  | eof
  /-- What `std::stoll` throws. -/
  | stoll (e : Lib.StollError)
  /-- `std::length_error`, from a string longer than `max_size()`. -/
  | lengthError
  /-- What the storage throws. -/
  | storage (e : StorageError)
deriving DecidableEq, Repr

/-- `ERespType`. -/
inductive ERespType where
  | SimpleString
  | Int
  | Error
  | BulkString
  | Array
deriving DecidableEq, Repr

/-- `RespTypeToChar`. -/
def respTypeToChar : ERespType → UInt8
  | .SimpleString => '+'.toUInt8
  | .Int => ':'.toUInt8
  | .Error => '-'.toUInt8
  | .BulkString => '$'.toUInt8
  | .Array => '*'.toUInt8

/-- `CharToRespType`. -/
def charToRespType (c : UInt8) : Except Exc ERespType :=
  if c = '+'.toUInt8 then .ok .SimpleString
  else if c = ':'.toUInt8 then .ok .Int
  else if c = '-'.toUInt8 then .ok .Error
  else if c = '$'.toUInt8 then .ok .BulkString
  else if c = '*'.toUInt8 then .ok .Array
  else .error (.redisError (ascii "Unknown type byte '" ++ [c] ++ ascii "'"))

theorem charToRespType_respTypeToChar (type : ERespType) :
    charToRespType (respTypeToChar type) = .ok type := by
  cases type <;> decide

/-- `std::string::max_size()`: a longer string throws `std::length_error`. -/
def maxSize : ℕ := 2 ^ 62 - 1

/-- Programs on a connection, with a shared state of type `σ`. -/
abbrev Io (σ : Type) := Prog UInt8 σ Exc

variable {σ : Type}

/-! ## `RespWriter` -/

/-- `FinishMessageField`. -/
def finishMessageField : Io σ Unit := writeAll [13, 10]

/-- `WriteSimpleString`. -/
def writeSimpleString (s : Bytes) : Io σ Unit := do
  writeAll [respTypeToChar .SimpleString]
  writeAll s
  finishMessageField

/-- `WriteError`. -/
def writeError (s : Bytes) : Io σ Unit := do
  writeAll [respTypeToChar .Error]
  writeAll s
  finishMessageField

/-- `WriteInt`. -/
def writeInt (n : Int64) : Io σ Unit := do
  writeAll [respTypeToChar .Int]
  writeAll (Lib.printInt n.toInt)
  finishMessageField

/-- `WriteBulkString`. -/
def writeBulkString (s : Bytes) : Io σ Unit := do
  writeAll [respTypeToChar .BulkString]
  writeAll (Lib.printInt s.length)
  finishMessageField
  writeAll s
  finishMessageField

/-- `WriteNullBulkString`. -/
def writeNullBulkString : Io σ Unit := do
  writeAll [respTypeToChar .BulkString]
  writeAll (ascii "-1")
  finishMessageField

/-- `StartArray`. -/
def startArray (size : ℕ) : Io σ Unit := do
  writeAll [respTypeToChar .Array]
  writeAll (Lib.printInt size)
  finishMessageField

/-- `WriteNullArray`. -/
def writeNullArray : Io σ Unit := do
  writeAll [respTypeToChar .Array]
  writeAll (ascii "-1")
  finishMessageField

/-! ## The line buffer -/

/-- `buf_` while `ReadBasicStringToBuf` fills it. -/
structure LineBuf where
  /-- The first `size` bytes. -/
  line : Bytes
  /-- `buf_.size()`. -/
  cap : ℕ
  /-- The next byte has a place in the buffer. -/
  size_lt : line.length < cap
  /-- The buffer was doubled some number of times. -/
  cap_eq : ∃ k, cap = 1023 * 2 ^ k
  /-- It never outgrows the limit. -/
  cap_le : cap ≤ 2 ^ 16

namespace LineBuf

/-- The buffer `ReadBasicStringToBuf` starts with. -/
def init : LineBuf := ⟨[], 1023, by simp, ⟨0, rfl⟩, by norm_num⟩

/-- Keep the byte just read, doubling the buffer if that filled it; `none` if it may not be
doubled any more. -/
def push (buf : LineBuf) (b : UInt8) : Option LineBuf :=
  if hfull : buf.line.length + 1 = buf.cap then
    if hbig : 2 ^ 16 < (buf.line.length + 1) * 2 then none
    else some
      { line := buf.line ++ [b]
        cap := (buf.line.length + 1) * 2
        size_lt := by rw [List.length_append, List.length_singleton]; omega
        cap_eq := by
          obtain ⟨k, hk⟩ := buf.cap_eq
          exact ⟨k + 1, by rw [hfull, hk, pow_succ]; ring⟩
        cap_le := by omega }
  else some
    { line := buf.line ++ [b]
      cap := buf.cap
      size_lt := by have := buf.size_lt; rw [List.length_append, List.length_singleton]; omega
      cap_eq := buf.cap_eq
      cap_le := buf.cap_le }

theorem line_of_push {buf buf' : LineBuf} {b : UInt8} (h : buf.push b = some buf') :
    buf'.line = buf.line ++ [b] := by
  rw [push] at h
  split_ifs at h
  · cases h; rfl
  · cases h; rfl

theorem length_lt (buf : LineBuf) : buf.line.length < 2 ^ 16 := buf.size_lt.trans_le buf.cap_le

theorem length_of_push {buf buf' : LineBuf} {b : UInt8} (h : buf.push b = some buf') :
    buf'.line.length = buf.line.length + 1 ∧ buf'.line.length < 2 ^ 16 :=
  ⟨by rw [line_of_push h, List.length_append, List.length_singleton], buf'.length_lt⟩

/-- The buffer refuses no byte as long as the line stays within 65471 bytes. -/
theorem push_of_le (buf : LineBuf) (b : UInt8) (h : buf.line.length + 1 ≤ 65471) :
    ∃ buf', buf.push b = some buf' := by
  rw [push]
  split_ifs with hfull hbig
  · obtain ⟨k, hk⟩ := buf.cap_eq
    have hlt : k < 6 := by
      by_contra hge
      have hpow : 2 ^ 6 ≤ 2 ^ k := Nat.pow_le_pow_right (by norm_num) (by omega)
      omega
    interval_cases k <;> omega
  · exact ⟨_, rfl⟩
  · exact ⟨_, rfl⟩

end LineBuf

/-! ## `RespReader` -/

/-- The `while` loop of `ReadBasicStringToBuf`: the buffer when a `\r` is read. -/
def lineLoop (buf : LineBuf) : Io σ LineBuf := do
  let b ← readOne .eof
  if b = 13 then return buf
  else if b = 10 then throw (.redisError (ascii "Wrong string ending symbol"))
  else
    match h : buf.push b with
    | none => throw (.redisError (ascii "Wrong string ending symbol"))
    | some buf' =>
      have := LineBuf.length_of_push h
      lineLoop buf'
termination_by 2 ^ 16 - buf.line.length
decreasing_by omega

/-- `ReadBasicStringToBuf`: the line, without the `\r\n` that ends it. -/
def readBasicString : Io σ Bytes := do
  let buf ← lineLoop LineBuf.init
  if (← readOne .eof) ≠ 10 then throw (.redisError (ascii "Wrong string ending symbol"))
  return buf.line

/-- `ReadType`. -/
def readType : Io σ ERespType :=
  tryCatch (do
    let type ← readOne .eof
    lift (charToRespType type))
    fun _ ↦ throw (.redisError (ascii "Error parsing simple string"))

/-- `ReadSimpleString`. -/
def readSimpleString : Io σ Bytes :=
  tryCatch readBasicString fun _ ↦ throw (.redisError (ascii "Error parsing simple string"))

/-- `ReadError`. -/
def readError : Io σ Bytes :=
  tryCatch readBasicString fun _ ↦ throw (.redisError (ascii "Error parsing error"))

/-- A line read as a number by `std::stoll`, with the number of bytes that took. -/
def readStoll : Io σ (Bytes × Int64 × ℕ) := do
  let buf ← readBasicString
  let (res, pos) ← lift ((Lib.stoll buf).mapError .stoll)
  return (buf, res, pos)

/-- `ReadInt`. -/
def readInt : Io σ Int64 :=
  tryCatch (do
    let (buf, res, pos) ← readStoll
    if pos ≠ buf.length ∨ buf[0]? = some 32 then
      throw (.redisError (ascii "Wrong integer string format"))
    return res)
    fun _ ↦ throw (.redisError (ascii "Error parsing integer"))

/-- The header of a bulk string or an array: a number that is at least `-1`. -/
def readLength : Io σ Int64 := do
  let (buf, length, pos) ← readStoll
  if pos ≠ buf.length ∨ length < -1 then
    throw (.redisError (ascii "Wrong unsigned integer string format"))
  return length

/-- `ReadBulkString`: `none` is the null string.  `length + 2` is computed in `int64_t` and
converted to the `size_t` that the constructor of `std::string` takes. -/
def readBulkString : Io σ (Option Bytes) :=
  tryCatch (do
    let length ← readLength
    if length = -1 then return none
    let size := (length + 2).toUInt64.toNat
    if maxSize < size then throw .lengthError
    let buf ← readFull .eof size
    let length := length.toUInt64.toNat
    if buf[length]? ≠ some 13 ∨ buf[length + 1]? ≠ some 10 then
      throw (.redisError (ascii "Wrong string ending symbol"))
    return some (buf.take length))
    fun _ ↦ throw (.redisError (ascii "Error parsing bulk string"))

/-- `ReadArrayLength`. -/
def readArrayLength : Io σ Int64 :=
  tryCatch readLength fun _ ↦ throw (.redisError (ascii "Error parsing array legth"))

end Redis
end ManyTasks
