import Mathlib.Algebra.Order.Group.Nat
import Mathlib.Data.List.Basic
import Mathlib.Data.List.TakeDrop
import Mathlib.Tactic.Basic

/-!
# Readers

An `IReader` delivers a stream of bytes in pieces, and a piece may be shorter than what was asked
for.  An `IBufferedReader` shows its next chunk as it is (`ReadNext`), and takes the end of it back
(`ReadBackUp`); everything else is made of these two.

* `readFull` and `readAllToString` are for any reader.  `readFull` is written for any monad in
  which there is something to read from, as it is also what programs on a connection use.
* `read`, `readString` and `writeTo` are for a buffered one.
* `BufferedReader` reads into a buffer from another reader, `ViewReader` shows a part of the
  memory.

`CHECK` ends the program; this is `none`.

A `Source` is a reader whose stream is known: what it delivers is the beginning of what is left
(`rest`), and it is nothing only at the end.  The loops that read until the end are for a `Source`,
as for others they need not end.  Of a `BufferedSource` it is also known what it can take back
(`seen`).
-/

set_option autoImplicit false

namespace ManyTasks
namespace Io

abbrev Bytes := List UInt8

structure EOFException where
deriving DecidableEq, Repr

class IReader (σ : Type) where
  /-- `Read` into a buffer of this size. -/
  read : ℕ → σ → Option (Bytes × σ)

class IBufferedReader (σ : Type) where
  readNext : σ → Option (Bytes × σ)
  readBackUp : ℕ → σ → Option σ

/-- A reader that delivers a stream. -/
class Source (σ : Type) extends IReader σ where
  /-- What is left of the stream. -/
  rest : σ → Bytes
  isSome_read : ∀ n s, (read n s).isSome
  length_le {n : ℕ} {s s' : σ} {piece : Bytes} : read n s = some (piece, s') → piece.length ≤ n
  rest_eq {n : ℕ} {s s' : σ} {piece : Bytes} : read n s = some (piece, s') →
    rest s = piece ++ rest s'
  at_end {n : ℕ} {s s' : σ} : read n s = some ([], s') → n = 0 ∨ rest s = []

/-- A buffered reader that delivers a stream. -/
class BufferedSource (σ : Type) extends IBufferedReader σ where
  /-- What is left of the stream. -/
  remaining : σ → Bytes
  /-- What is in the buffer before the position. -/
  seen : σ → Bytes
  isSome_readNext : ∀ s, (readNext s).isSome
  remaining_eq {s s' : σ} {chunk : Bytes} : readNext s = some (chunk, s') →
    remaining s = chunk ++ remaining s'
  suffix_seen {s s' : σ} {chunk : Bytes} : readNext s = some (chunk, s') → chunk <:+ seen s'
  at_end {s s' : σ} : readNext s = some ([], s') → remaining s = []
  exists_readBackUp (s : σ) {n : ℕ} : n ≤ (seen s).length →
    ∃ s', readBackUp n s = some s'
      ∧ remaining s' = (seen s).drop ((seen s).length - n) ++ remaining s

/-! ## For any reader -/

/-- `IReader::ReadFull`, where `read` is what is read with. -/
def readFull {m : Type → Type} [Monad m] {ε : Type} [MonadExceptOf ε m] (eof : ε)
    (read : ℕ → m Bytes)
    (size : ℕ) : m Bytes :=
  if _hsize : size = 0 then pure []
  else do
    let piece ← read size
    if _hpiece : piece = [] then throw eof
    else
      let pieces ← readFull eof read (size - piece.length)
      pure (piece ++ pieces)
termination_by size
decreasing_by
  have hpos : 0 < piece.length := List.length_pos_of_ne_nil _hpiece
  omega

/-- `IReader::ReadFull` of a reader. -/
def IReader.readFull {σ : Type} [IReader σ] (size : ℕ) (s : σ) :
    Option (Except EOFException Bytes × σ) :=
  let read : ℕ → ExceptT EOFException (StateT σ Option) Bytes :=
    fun n ↦ ExceptT.lift (IReader.read n)
  (Io.readFull EOFException.mk read size).run.run s

section Source

variable {σ : Type} [Source σ]

theorem Source.length_rest_lt {n : ℕ} {s s' : σ} {piece : Bytes}
    (h : IReader.read n s = some (piece, s'))
    (hpiece : piece ≠ []) : (Source.rest s').length < (Source.rest s).length := by
  rw [Source.rest_eq h, List.length_append]
  exact Nat.lt_add_of_pos_left (List.length_pos_of_ne_nil hpiece)

/-- The loop of `ReadAllToString`, with what has been read into `out` and the size of `out`. -/
def readAllLoop (read : Bytes) (size : ℕ) (s : σ) : Option (Bytes × σ) :=
  let size := if read.length = size then size * 2 else size
  match _h : IReader.read (size - read.length) s with
  | none => none
  | some (piece, s') => if _hpiece : piece = [] then some (read, s') else readAllLoop
      (read ++ piece) size s'
termination_by (Source.rest s).length
decreasing_by exact Source.length_rest_lt _h _hpiece

/-- `IReader::ReadAllToString`. -/
def readAllToString (s : σ) : Option (Bytes × σ) := readAllLoop [] 1024 s

end Source

/-! ## For a buffered reader -/

/-- `IBufferedReader::Read`. -/
def read {σ : Type} [IBufferedReader σ] (size : ℕ) (s : σ) : Option (Bytes × σ) := do
  let (chunk, s) ← IBufferedReader.readNext s
  if chunk.length = 0 then some ([], s)
  else if (chunk.drop size).length ≠ 0 then
    let s ← IBufferedReader.readBackUp (chunk.drop size).length s
    some (chunk.take size, s)
  else some (chunk.take size, s)

/-- `std::string::npos`. -/
def npos : ℕ := 2 ^ 64 - 1

/-- What the inner loop of `ReadString` comes to: the call is over, and so many bytes are given
back, or the chunk is over. -/
inductive Scan where
  | stop (result : Bytes) (unread : ℕ)
  | next (result : Bytes) (limit : ℕ)
deriving DecidableEq, Repr

/-- The inner loop of `ReadString`; `i` is the size of `buf`. -/
def scan (delim : UInt8) : Bytes → ℕ → Bytes → Scan
  | [], limit, result => .next result limit
  | symbol :: buf, limit, result =>
    if limit = 0 then .stop result (buf.length + 1)
    else if symbol = delim then .stop (result ++ [symbol]) buf.length
    else scan delim buf (if limit ≠ npos then limit - 1 else limit) (result ++ [symbol])

section BufferedSource

variable {σ : Type} [BufferedSource σ]

theorem BufferedSource.length_remaining_lt {s s' : σ} {chunk : Bytes}
    (h : IBufferedReader.readNext s = some (chunk, s')) (hchunk : chunk ≠ []) :
    (BufferedSource.remaining s').length < (BufferedSource.remaining s).length := by
  rw [BufferedSource.remaining_eq h, List.length_append]
  exact Nat.lt_add_of_pos_left (List.length_pos_of_ne_nil hchunk)

/-- `IBufferedReader::ReadString`, with what has been read before. -/
def readStringLoop (delim : UInt8) (limit : ℕ) (result : Bytes) (s : σ) : Option (Bytes × σ) :=
  match _h : IBufferedReader.readNext s with
  | none => none
  | some (buf, s') =>
    if _hbuf : buf = [] then some (result, s')
    else
      match scan delim buf limit result with
      | .stop result unread => (IBufferedReader.readBackUp unread s').map fun s ↦ (result, s)
      | .next result limit => readStringLoop delim limit result s'
termination_by (BufferedSource.remaining s).length
decreasing_by exact BufferedSource.length_remaining_lt _h _hbuf

/-- `IBufferedReader::ReadString`. -/
def readString (delim : UInt8) (limit : ℕ) (s : σ) : Option (Bytes × σ) :=
  readStringLoop delim limit [] s

/-- The loop of `WriteTo`, with `total` and what has been written to the writer. -/
def writeToLoop (total : ℕ) (written : List Bytes) (s : σ) : Option ((ℕ × List Bytes) × σ) :=
  match _h : IBufferedReader.readNext s with
  | none => none
  | some (buf, s') =>
    if _hbuf : buf = [] then some ((total, written), s')
    else writeToLoop ((total + buf.length) % 2 ^ 64) (written ++ [buf]) s'
termination_by (BufferedSource.remaining s).length
decreasing_by exact BufferedSource.length_remaining_lt _h _hbuf

/-- `IBufferedReader::WriteTo`: what it returns, and the calls of `Write` that it makes. -/
def writeTo (s : σ) : Option ((ℕ × List Bytes) × σ) := writeToLoop 0 [] s

end BufferedSource

/-! ## The two readers -/

/-- `BufferedReader`. -/
structure BufferedReader (ρ : Type) where
  underlying_ : ρ
  buffer_ : Bytes
  pos_ : ℕ
  end_ : ℕ
  cap_ : ℕ
  cap_pos : 0 < cap_
  length_buffer_ : buffer_.length = cap_
  pos_le : pos_ ≤ end_
  end_le : end_ ≤ cap_

namespace BufferedReader

variable {ρ : Type}

/-- A new reader; what is in the buffer does not matter. -/
def new (reader : ρ) (buffer_size : ℕ) (h : 0 < buffer_size) : BufferedReader ρ where
  underlying_ := reader
  buffer_ := List.replicate buffer_size 0
  pos_ := 0
  end_ := 0
  cap_ := buffer_size
  cap_pos := h
  length_buffer_ := List.length_replicate
  pos_le := Nat.le_refl 0
  end_le := Nat.zero_le buffer_size

/-- `pos_ = end_ = 0`. -/
def reset (r : BufferedReader ρ) : BufferedReader ρ :=
  { r with pos_ := 0, end_ := 0, pos_le := Nat.le_refl 0, end_le := Nat.zero_le r.cap_ }

/-- The underlying reader has read into the buffer. -/
def fill (r : BufferedReader ρ) (hend : r.end_ = 0) (piece : Bytes) (reader : ρ)
    (hpiece : piece.length ≤ r.cap_) : BufferedReader ρ :=
  { r with
    underlying_ := reader
    buffer_ := piece ++ r.buffer_.drop piece.length
    end_ := piece.length
    length_buffer_ := by
      rw [List.length_append, List.length_drop, r.length_buffer_]
      omega
    pos_le := (r.pos_le.trans hend.le).trans (Nat.zero_le _)
    end_le := hpiece }

/-- The bytes from `pos_` to `end_`. -/
def view (r : BufferedReader ρ) : Bytes := (r.buffer_.drop r.pos_).take (r.end_ - r.pos_)

/-- `pos_ = end_`. -/
def skip (r : BufferedReader ρ) : BufferedReader ρ :=
  { r with pos_ := r.end_, pos_le := Nat.le_refl _ }

/-- `ReadNext`, after the first `if`. -/
def fillNext [Source ρ] (r : BufferedReader ρ) : Option (Bytes × BufferedReader ρ) :=
  if hend : r.end_ = 0 then
    match h : IReader.read r.cap_ r.underlying_ with
    | none => none
    | some (piece, reader) =>
      let r := r.fill hend piece reader (Source.length_le h)
      some (r.view, r.skip)
  else some (r.view, r.skip)

def readNext [Source ρ] (r : BufferedReader ρ) : Option (Bytes × BufferedReader ρ) :=
  (if r.pos_ = r.end_ then r.reset else r).fillNext

def readBackUp (size : ℕ) (r : BufferedReader ρ) : Option (BufferedReader ρ) :=
  if size ≤ r.pos_ then
    some { r with pos_ := r.pos_ - size, pos_le := (Nat.sub_le _ _).trans r.pos_le }
  else none

end BufferedReader

/-- `ViewReader`. -/
structure ViewReader where
  buf_ : Bytes
  pos_ : ℕ
  pos_le : pos_ ≤ buf_.length

namespace ViewReader

def new (buf : Bytes) : ViewReader := ⟨buf, 0, Nat.zero_le _⟩

def readNext (r : ViewReader) : Option (Bytes × ViewReader) :=
  some (r.buf_.drop r.pos_, ⟨r.buf_, r.buf_.length, Nat.le_refl _⟩)

def readBackUp (size : ℕ) (r : ViewReader) : Option ViewReader :=
  if size ≤ r.pos_ then some ⟨r.buf_, r.pos_ - size, (Nat.sub_le _ _).trans r.pos_le⟩ else none

end ViewReader

end Io
end ManyTasks
