import ManyTasks.Io.Reader

/-!
# Writers

An `IBufferedWriter` gives out the free part of its memory (`WriteNext`), which counts as written
from then on, and takes the end of it back (`WriteBackUp`).  `Write`, `Append` and `AppendC` are
made of these.

* `BufferedWriter` passes its buffer to another writer when it is full, `StringWriter` makes its
  string longer.
* `BufferedWriter::Write` calls itself, so `BufferedWriter.write` has the number of calls that may
  be nested.
* `Log` is a writer together with what it has been called with.

`none` is for a call that does not return: an exception of the underlying writer, a `DCHECK` that
fails, or an endless recursion.
-/

set_option autoImplicit false

namespace ManyTasks
namespace Io

class IWriter (ω : Type) where
  write : Bytes → ω → Option ω

class ICloser (ω : Type) where
  close : ω → Option ω

/-- A part of the memory of a writer. -/
structure MutableView where
  offset : ℕ
  size : ℕ
deriving DecidableEq, Repr

class IBufferedWriter (σ : Type) where
  writeNext : σ → Option (MutableView × σ)
  /-- `Copy` to the beginning of a view. -/
  copy : MutableView → Bytes → σ → σ
  writeBackUp : ℕ → σ → Option σ
  flush : σ → Option σ
  size_pos {s s' : σ} {chunk : MutableView} : writeNext s = some (chunk, s') → 0 < chunk.size

/-- The memory after a `Copy` to this place. -/
def store (offset : ℕ) (bytes memory : Bytes) : Bytes :=
  memory.take offset ++ bytes ++ memory.drop (offset + bytes.length)

theorem length_store {offset : ℕ} {bytes memory : Bytes}
    (h : offset + bytes.length ≤ memory.length) :
    (store offset bytes memory).length = memory.length := by
  simp only [store, List.length_append, List.length_take, List.length_drop]
  omega

theorem take_store {offset : ℕ} {bytes memory : Bytes} (h : offset + bytes.length ≤ memory.length) :
    (store offset bytes memory).take (offset + bytes.length) = memory.take offset ++ bytes := by
  refine List.take_left' ?_
  rw [List.length_append, List.length_take]
  omega

/-! ## For any buffered writer -/

section IBufferedWriter

variable {σ : Type} [IBufferedWriter σ]

/-- `IBufferedWriter::Write`. -/
def IBufferedWriter.write (buf : Bytes) (s : σ) : Option σ :=
  if _hbuf : buf = [] then some s
  else
    match _h : IBufferedWriter.writeNext s with
    | none => none
    | some (chunk, s) =>
      let copy_size := min chunk.size buf.length
      let s := IBufferedWriter.copy chunk (buf.take copy_size) s
      if buf.drop copy_size = [] then
        if chunk.size - copy_size ≠ 0 then IBufferedWriter.writeBackUp (chunk.size - copy_size) s
          else some s
      else IBufferedWriter.write (buf.drop copy_size) s
termination_by buf.length
decreasing_by
  have hpos := IBufferedWriter.size_pos _h
  have hlen : 0 < buf.length := List.length_pos_of_ne_nil _hbuf
  rw [List.length_drop]
  omega

/-- `IBufferedWriter::Append`. -/
def append (c : UInt8) (s : σ) : Option σ := do
  let (chunk, s) ← IBufferedWriter.writeNext s
  let s := IBufferedWriter.copy chunk [c] s
  if chunk.size ≠ 1 then IBufferedWriter.writeBackUp (chunk.size - 1) s else some s

/-- `IBufferedWriter::AppendC`, with the `Write` of the writer. -/
def appendC (write : Bytes → σ → Option σ) (str : Bytes) (s : σ) : Option σ :=
  write (str.takeWhile (· ≠ 0)) s

inductive WriteCall where
  | write (buf : Bytes)
  | append (c : UInt8)
  | appendC (str : Bytes)
  | flush
deriving DecidableEq, Repr

/-- The bytes that are given to a call; those of a C string end before the zero. -/
def WriteCall.given : WriteCall → Bytes
  | .write buf => buf
  | .append c => [c]
  | .appendC str => str.takeWhile (· ≠ 0)
  | .flush => []

def writeCall (write : Bytes → σ → Option σ) : WriteCall → σ → Option σ
  | .write buf => write buf
  | .append c => append c
  | .appendC str => appendC write str
  | .flush => IBufferedWriter.flush

/-- Calls one after the other, if all of them return. -/
def writeCalls (write : Bytes → σ → Option σ) : List WriteCall → σ → Option σ
  | [], s => some s
  | c :: cs, s => (writeCall write c s).bind (writeCalls write cs)

end IBufferedWriter

/-! ## `BufferedWriter` -/

structure BufferedWriter (ω : Type) where
  buffer_ : Bytes
  used_ : ℕ
  buffer_size_ : ℕ
  underlying_ : ω
  buffer_size_pos : 0 < buffer_size_
  length_buffer_ : buffer_.length = buffer_size_
  used_le : used_ ≤ buffer_size_

namespace BufferedWriter

variable {ω : Type}

theorem length_zeros (n : ℕ) : (List.replicate n (0 : UInt8)).length = n := List.length_replicate

/-- A new writer; what is in the buffer does not matter. -/
def new (underlying : ω) (buffer_size : ℕ) (h : 0 < buffer_size) : BufferedWriter ω where
  buffer_ := List.replicate buffer_size 0
  used_ := 0
  buffer_size_ := buffer_size
  underlying_ := underlying
  buffer_size_pos := h
  length_buffer_ := length_zeros buffer_size
  used_le := Nat.zero_le buffer_size

def flush [IWriter ω] (w : BufferedWriter ω) : Option (BufferedWriter ω) :=
  (IWriter.write (w.buffer_.take w.used_) w.underlying_).map fun underlying ↦
    { w with underlying_ := underlying, used_ := 0, used_le := Nat.zero_le w.buffer_size_ }

/-- `used_ = buffer_size_`. -/
def claim (w : BufferedWriter ω) : BufferedWriter ω :=
  { w with used_ := w.buffer_size_, used_le := Nat.le_refl w.buffer_size_ }

def writeNext [IWriter ω] (w : BufferedWriter ω) : Option (MutableView × BufferedWriter ω) :=
  (if w.used_ = w.buffer_size_ then w.flush else some w).map fun w ↦
    (⟨w.used_, w.buffer_size_ - w.used_⟩, w.claim)

def copy (chunk : MutableView) (bytes : Bytes) (w : BufferedWriter ω) : BufferedWriter ω :=
  if h : chunk.offset + bytes.length ≤ w.buffer_.length then
    { w with
      buffer_ := store chunk.offset bytes w.buffer_
      length_buffer_ := (length_store h).trans w.length_buffer_ }
  else w

def writeBackUp (count : ℕ) (w : BufferedWriter ω) : Option (BufferedWriter ω) :=
  if count ≤ w.used_ then
    some { w with used_ := w.used_ - count, used_le := (Nat.sub_le _ _).trans w.used_le }
  else none

theorem flush_eq_some [IWriter ω] {w w' : BufferedWriter ω} (h : w.flush = some w') :
    IWriter.write (w.buffer_.take w.used_) w.underlying_ = some w'.underlying_ ∧ w'.used_ = 0
      ∧ w'.buffer_size_ = w.buffer_size_ := by
  obtain ⟨underlying, hwrite, rfl⟩ := Option.map_eq_some_iff.1 h
  exact ⟨hwrite, rfl, rfl⟩

theorem writeNext_eq_some [IWriter ω] {w w' : BufferedWriter ω} {chunk : MutableView}
    (h : w.writeNext = some (chunk, w')) : ∃ w₁ : BufferedWriter ω,
      (w₁ = w ∨ w.flush = some w₁) ∧ w₁.used_ < w₁.buffer_size_
        ∧ chunk = ⟨w₁.used_, w₁.buffer_size_ - w₁.used_⟩ ∧ w' = w₁.claim := by
  obtain ⟨w₁, hw₁, heq⟩ := Option.map_eq_some_iff.1 h
  cases heq
  split at hw₁
  · obtain ⟨_, hused, _⟩ := flush_eq_some hw₁
    exact ⟨w₁, Or.inr hw₁, hused ▸ w₁.buffer_size_pos, rfl, rfl⟩
  · cases hw₁
    have hle := w.used_le
    exact ⟨w, Or.inl rfl, by omega, rfl, rfl⟩

instance [IWriter ω] : IBufferedWriter (BufferedWriter ω) where
  writeNext := writeNext
  copy := copy
  writeBackUp := writeBackUp
  flush := flush
  size_pos h := by
    obtain ⟨w₁, _, hlt, rfl, _⟩ := writeNext_eq_some h
    exact Nat.sub_pos_of_lt hlt

/-- `BufferedWriter::Write`, with the number of calls that may be nested. -/
def write [IWriter ω] : ℕ → Bytes → BufferedWriter ω → Option (BufferedWriter ω)
  | 0, _, _ => none
  | fuel + 1, buf, w =>
    if buf.length < 2 * w.buffer_size_ % 2 ^ 64 then IBufferedWriter.write buf w
    else w.flush.bind (write fuel buf)

end BufferedWriter

/-- A `BufferedWriteCloser` is a `BufferedWriter`, and this is its `Close`. -/
def BufferedWriteCloser.close {ω : Type} [ICloser ω] (w : BufferedWriter ω) :
    Option (BufferedWriter ω) :=
  (ICloser.close w.underlying_).map fun underlying ↦ { w with underlying_ := underlying }

/-! ## `StringWriter` -/

structure StringWriter where
  str_ : Bytes
  size_ : ℕ
  size_le : size_ ≤ str_.length

namespace StringWriter

theorem zero_le_length_nil : 0 ≤ ([] : Bytes).length := Nat.le_refl 0

def new : StringWriter := ⟨[], 0, zero_le_length_nil⟩

/-- `str_.resize`, to a larger size. -/
def resize (size : ℕ) (w : StringWriter) : StringWriter where
  str_ := w.str_ ++ List.replicate (size - w.str_.length) 0
  size_ := w.size_
  size_le := by
    rw [List.length_append]
    exact w.size_le.trans (Nat.le_add_right _ _)

def kMinSize : ℕ := 256

/-- `size_ = str_.size()`. -/
def claim (w : StringWriter) : StringWriter := ⟨w.str_, w.str_.length, Nat.le_refl _⟩

def writeNext (w : StringWriter) : Option (MutableView × StringWriter) :=
  let w := if w.str_ = [] then w.resize kMinSize else w
  let w := if w.size_ = w.str_.length then w.resize (2 * w.str_.length) else w
  some (⟨w.size_, w.str_.length - w.size_⟩, w.claim)

def copy (chunk : MutableView) (bytes : Bytes) (w : StringWriter) : StringWriter :=
  if h : chunk.offset + bytes.length ≤ w.str_.length then
    ⟨store chunk.offset bytes w.str_, w.size_, w.size_le.trans (length_store h).ge⟩
  else w

/-- With more than has been written the subtraction would wrap around. -/
def writeBackUp (size : ℕ) (w : StringWriter) : Option StringWriter :=
  if size ≤ w.size_ then some ⟨w.str_, w.size_ - size, (Nat.sub_le _ _).trans w.size_le⟩ else none

def flush (w : StringWriter) : Option StringWriter := some w

/-- `View`. -/
def view (w : StringWriter) : Bytes := w.str_.take w.size_

end StringWriter

/-! ## What has been written -/

/-- A writer that takes everything. -/
instance : IWriter Unit where
  write _ _ := some ()

instance : ICloser Unit where
  close _ := some ()

inductive Event where
  | write (buf : Bytes)
  | close
deriving DecidableEq, Repr

/-- A writer, and what it has been called with. -/
structure Log (ω : Type) where
  writer : ω
  events : List Event

/-- The bytes that have been written. -/
def bytesOf : List Event → Bytes
  | [] => []
  | .write buf :: events => buf ++ bytesOf events
  | .close :: events => bytesOf events

instance {ω : Type} [IWriter ω] : IWriter (Log ω) where
  write buf l := (IWriter.write buf l.writer).map fun writer ↦ ⟨writer, l.events ++ [.write buf]⟩

instance {ω : Type} [ICloser ω] : ICloser (Log ω) where
  close l := (ICloser.close l.writer).map fun writer ↦ ⟨writer, l.events ++ [.close]⟩

end Io
end ManyTasks
