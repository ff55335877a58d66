import ManyTasks.Io.Writer
import Mathlib.Data.List.Flatten

/-!
# What writers keep

The content of a buffered writer is all that has been given to it, wherever it is now.
`BufferedSink` says this of the operations: what is copied to a view is appended when the rest of
the view is given back.  The calls are made of these, so each of them appends what is given to it
(`content_writeCalls`).

* For `BufferedWriter` the content is what the underlying writer has received, then the beginning
  of the buffer.  `Write` returns only if it need not call itself (`returns_iff`), and `Close` comes
  too early for what is in the buffer (`bytesOf_close_iff`).
* For `StringWriter` it is `View`, and all calls return.
-/

set_option autoImplicit false

namespace ManyTasks
namespace Io

/-- A buffered writer, and what has been given to it. -/
class BufferedSink (σ : Type) extends IBufferedWriter σ where
  content : σ → Bytes
  content_copy {s s' : σ} {chunk : MutableView} {bytes : Bytes} : writeNext s = some (chunk, s') →
    bytes.length = chunk.size → content (copy chunk bytes s') = content s ++ bytes
  exists_writeBackUp {s s' : σ} {chunk : MutableView} {bytes : Bytes} :
    writeNext s = some (chunk, s') →
    bytes.length ≤ chunk.size → ∃ s'', writeBackUp (chunk.size - bytes.length) (copy chunk bytes s')
      = some s''
      ∧ content s'' = content s ++ bytes
  content_flush {s s' : σ} : flush s = some s' → content s' = content s

section BufferedSink

variable {σ : Type} [BufferedSink σ]

open BufferedSink (content)

/-- What is copied to the last chunk is all that is left, and the rest of the chunk is given
back. -/
theorem exists_write_last {buf : Bytes} {s s₁ : σ} {chunk : MutableView} {copy_size : ℕ}
    (hnext : IBufferedWriter.writeNext s = some (chunk, s₁))
    (hcopy : copy_size = min chunk.size buf.length) (hdrop : buf.drop copy_size = []) :
    ∃ s', IBufferedWriter.writeBackUp (chunk.size - copy_size)
        (IBufferedWriter.copy chunk (buf.take copy_size) s₁) = some s'
      ∧ content s' = content s ++ buf := by
  have hle : buf.length ≤ copy_size := List.drop_eq_nil_iff.1 hdrop
  have hlen : copy_size = buf.length := by omega
  rw [List.take_of_length_le hle, hlen]
  exact BufferedSink.exists_writeBackUp hnext (by omega)

theorem content_write {buf : Bytes} {s s' : σ} (h : IBufferedWriter.write buf s = some s') :
    content s' = content s ++ buf := by
  fun_induction IBufferedWriter.write buf s with
  | case1 s =>
    cases h
    rw [List.append_nil]
  | case2 => cases h
  | case3 buf s _ chunk s₁ hnext copy_size s₂ hdrop _ =>
    obtain ⟨s'', hs'', hcontent⟩ := exists_write_last hnext rfl hdrop
    cases h.symm.trans hs''
    exact hcontent
  | case4 buf s _ chunk s₁ hnext copy_size s₂ hdrop hsize =>
    have hle : buf.length ≤ copy_size := List.drop_eq_nil_iff.1 hdrop
    have hs₂ : s₂ = IBufferedWriter.copy chunk buf s₁ :=
      congrArg (IBufferedWriter.copy chunk · s₁) (List.take_of_length_le hle)
    rw [← Option.some_inj.1 h, hs₂]
    exact BufferedSink.content_copy hnext (by omega)
  | case5 buf s _ chunk s₁ hnext copy_size s₂ hdrop ih =>
    have hlt : copy_size < buf.length :=
      Nat.lt_of_not_le fun hle ↦ hdrop (List.drop_eq_nil_iff.2 hle)
    have hlen : (buf.take copy_size).length = chunk.size := by
      rw [List.length_take]
      omega
    rw [ih h, BufferedSink.content_copy hnext hlen, List.append_assoc, List.take_append_drop]

/-- `Write` returns if the underlying writer lets it. -/
theorem exists_write (hnext : ∀ s : σ, (IBufferedWriter.writeNext s).isSome) (buf : Bytes) (s : σ) :
    ∃ s', IBufferedWriter.write buf s = some s' := by
  fun_induction IBufferedWriter.write buf s with
  | case1 s => exact ⟨s, rfl⟩
  | case2 buf s _ h =>
    have hsome := hnext s
    rw [h] at hsome
    cases hsome
  | case3 buf s _ chunk s₁ hnext copy_size s₂ hdrop _ =>
    obtain ⟨s'', hs'', _⟩ := exists_write_last hnext rfl hdrop
    exact ⟨s'', hs''⟩
  | case4 _ _ _ _ _ _ _ s₂ => exact ⟨s₂, rfl⟩
  | case5 _ _ _ _ _ _ _ _ _ ih => exact ih

theorem append_spec {s s₁ : σ} {chunk : MutableView} (c : UInt8)
    (hnext : IBufferedWriter.writeNext s = some (chunk, s₁)) :
    ∃ s', append c s = some s' ∧ content s' = content s ++ [c] := by
  have hpos := IBufferedWriter.size_pos hnext
  have happend : append c s = if chunk.size ≠ 1
      then IBufferedWriter.writeBackUp (chunk.size - 1) (IBufferedWriter.copy chunk [c] s₁)
      else some (IBufferedWriter.copy chunk [c] s₁) := by
    rw [append, hnext]
    rfl
  rw [happend]
  split
  · exact @BufferedSink.exists_writeBackUp _ _ _ _ _ [c] hnext hpos
  · rename_i hsize
    exact ⟨_, rfl, BufferedSink.content_copy hnext (not_not.1 hsize).symm⟩

theorem content_append {c : UInt8} {s s' : σ} (h : append c s = some s') :
    content s' = content s ++ [c] := by
  cases hnext : IBufferedWriter.writeNext s with
  | none =>
    rw [append, hnext] at h
    cases h
  | some next =>
    obtain ⟨s'', hs'', hcontent⟩ := append_spec c hnext
    cases h.symm.trans hs''
    exact hcontent

/-- A call appends what it is given. -/
theorem content_writeCall {write : Bytes → σ → Option σ}
    (hwrite : ∀ {buf s s'}, write buf s = some s' → content s' = content s ++ buf) {c : WriteCall}
    {s s' : σ}
    (h : writeCall write c s = some s') : content s' = content s ++ c.given := by
  cases c with
  | write buf => exact hwrite h
  | append c => exact content_append h
  | appendC str => exact hwrite h
  | flush => exact (BufferedSink.content_flush h).trans (List.append_nil _).symm

theorem content_writeCalls {write : Bytes → σ → Option σ}
    (hwrite : ∀ {buf s s'}, write buf s = some s' → content s' = content s ++ buf)
    {cs : List WriteCall} {s s' : σ} (h : writeCalls write cs s = some s') :
    content s' = content s ++ cs.flatMap WriteCall.given := by
  induction cs generalizing s with
  | nil =>
    cases h
    exact (List.append_nil _).symm
  | cons c cs ih =>
    obtain ⟨s₁, hs₁, hs'⟩ := Option.bind_eq_some_iff.1 h
    rw [ih hs', content_writeCall hwrite hs₁, List.append_assoc, List.flatMap_cons]

end BufferedSink

/-! ## What no operation changes -/

section Kept

variable {σ α : Type} [IBufferedWriter σ]

/-- The operations do not change `f`. -/
structure Kept (f : σ → α) : Prop where
  writeNext {s s' : σ} {chunk : MutableView} : IBufferedWriter.writeNext s = some (chunk, s') →
    f s' = f s
  copy {s : σ} {chunk : MutableView} {bytes : Bytes} : f (IBufferedWriter.copy chunk bytes s) = f s
  writeBackUp {s s' : σ} {n : ℕ} : IBufferedWriter.writeBackUp n s = some s' → f s' = f s
  flush {s s' : σ} : IBufferedWriter.flush s = some s' → f s' = f s

namespace Kept

variable {f : σ → α} (hf : Kept f)
include hf

theorem write {buf : Bytes} {s s' : σ} (h : IBufferedWriter.write buf s = some s') :
    f s' = f s := by
  fun_induction IBufferedWriter.write buf s with
  | case1 s =>
    cases h
    rfl
  | case2 => cases h
  | case3 buf s _ chunk s₁ hnext =>
    exact (hf.writeBackUp h).trans (hf.copy.trans (hf.writeNext hnext))
  | case4 buf s _ chunk s₁ hnext =>
    rw [← Option.some_inj.1 h]
    exact hf.copy.trans (hf.writeNext hnext)
  | case5 buf s _ chunk s₁ hnext _ _ _ ih => exact (ih h).trans (hf.copy.trans (hf.writeNext hnext))

theorem append {c : UInt8} {s s' : σ} (h : append c s = some s') : f s' = f s := by
  obtain ⟨⟨chunk, s₁⟩, hnext, h⟩ := Option.bind_eq_some_iff.1 h
  dsimp only at h
  split at h
  · exact (hf.writeBackUp h).trans (hf.copy.trans (hf.writeNext hnext))
  · rw [← Option.some_inj.1 h]
    exact hf.copy.trans (hf.writeNext hnext)

theorem writeCalls {write : Bytes → σ → Option σ} (hwrite : ∀ {buf s s'}, write buf s = some s' →
      f s' = f s)
    {cs : List WriteCall} {s s' : σ} (h : writeCalls write cs s = some s') : f s' = f s := by
  induction cs generalizing s with
  | nil =>
    cases h
    rfl
  | cons c cs ih =>
    obtain ⟨s₁, hs₁, hs'⟩ := Option.bind_eq_some_iff.1 h
    refine (ih hs').trans ?_
    cases c with
    | write buf => exact hwrite hs₁
    | append c => exact hf.append hs₁
    | appendC str => exact hwrite hs₁
    | flush => exact hf.flush hs₁

end Kept

end Kept

/-! ## `BufferedWriter` -/

theorem bytesOf_append (events events' : List Event) :
    bytesOf (events ++ events') = bytesOf events ++ bytesOf events' := by
  induction events with
  | nil => rfl
  | cons e events ih => cases e with
    | write buf => rw [List.cons_append, bytesOf, bytesOf, ih, List.append_assoc]
    | close => rw [List.cons_append, bytesOf, bytesOf, ih]

theorem Log.bytesOf_write {ω : Type} [IWriter ω] {buf : Bytes} {l l' : Log ω}
    (h : IWriter.write buf l = some l') : bytesOf l'.events = bytesOf l.events ++ buf := by
  obtain ⟨writer, _, rfl⟩ := Option.map_eq_some_iff.1 h
  rw [bytesOf_append, bytesOf, bytesOf, List.append_nil]

namespace BufferedWriter

variable {ω : Type}

/-- What the underlying writer has received, then the beginning of the buffer. -/
def content (w : BufferedWriter (Log ω)) : Bytes :=
  bytesOf w.underlying_.events ++ w.buffer_.take w.used_

/-- What is copied to the view comes after what was there before. -/
theorem copy_spec {w₁ : BufferedWriter (Log ω)} {bytes : Bytes} (hlt : w₁.used_ < w₁.buffer_size_)
    (hle : bytes.length ≤ w₁.buffer_size_ - w₁.used_) :
    ∃ w' : BufferedWriter (Log ω), copy ⟨w₁.used_, w₁.buffer_size_ - w₁.used_⟩ bytes w₁.claim = w'
      ∧ w'.used_ = w₁.buffer_size_ ∧ w'.underlying_ = w₁.underlying_
      ∧ w'.buffer_.take (w₁.used_ + bytes.length) = w₁.buffer_.take w₁.used_ ++ bytes := by
  have hfit : w₁.used_ + bytes.length ≤ w₁.claim.buffer_.length := by
    rw [w₁.claim.length_buffer_]
    exact Nat.add_le_of_le_sub' hlt.le hle
  exact ⟨_, dif_pos hfit, rfl, rfl, take_store hfit⟩

theorem writeBackUp_of_le {w : BufferedWriter (Log ω)} {count : ℕ} (h : count ≤ w.used_) :
    ∃ w', writeBackUp count w = some w' ∧ w'.content
      = bytesOf w.underlying_.events ++ w.buffer_.take (w.used_ - count) :=
  ⟨_, if_pos h, rfl⟩

variable [IWriter ω]

theorem content_flush {w w' : BufferedWriter (Log ω)} (h : w.flush = some w') :
    w'.content = w.content := by
  obtain ⟨hwrite, hused, _⟩ := flush_eq_some h
  rw [content, hused, List.take_zero, List.append_nil, Log.bytesOf_write hwrite, content]

/-- After `WriteNext` there is a writer with the same content before the view. -/
theorem writeNext_content {w w' : BufferedWriter (Log ω)} {chunk : MutableView}
    (h : w.writeNext = some (chunk, w')) : ∃ w₁ : BufferedWriter (Log ω), w₁.content = w.content
      ∧ w₁.used_ < w₁.buffer_size_ ∧ chunk = ⟨w₁.used_, w₁.buffer_size_ - w₁.used_⟩
        ∧ w' = w₁.claim := by
  obtain ⟨w₁, rfl | hflush, hw₁⟩ := writeNext_eq_some h
  · exact ⟨w₁, rfl, hw₁⟩
  · exact ⟨w₁, content_flush hflush, hw₁⟩

theorem content_copy {w w' : BufferedWriter (Log ω)} {chunk : MutableView} {bytes : Bytes}
    (h : w.writeNext = some (chunk, w')) (hlen : bytes.length = chunk.size) :
    (copy chunk bytes w').content = w.content ++ bytes := by
  obtain ⟨w₁, hcontent, hlt, rfl, rfl⟩ := writeNext_content h
  obtain ⟨w₂, hcopy, hused, hunderlying, htake⟩ := copy_spec hlt hlen.le
  have hfull : w₁.used_ + bytes.length = w₁.buffer_size_ := by
    rw [hlen]
    exact Nat.add_sub_cancel' hlt.le
  rw [hfull] at htake
  rw [hcopy, content, hused, hunderlying, htake, ← hcontent, content, List.append_assoc]

theorem exists_writeBackUp {w w' : BufferedWriter (Log ω)} {chunk : MutableView} {bytes : Bytes}
    (h : w.writeNext = some (chunk, w')) (hle : bytes.length ≤ chunk.size) :
    ∃ w'', writeBackUp (chunk.size - bytes.length) (copy chunk bytes w') = some w''
      ∧ w''.content = w.content ++ bytes := by
  obtain ⟨w₁, hcontent, hlt, rfl, rfl⟩ := writeNext_content h
  obtain ⟨w₂, hcopy, hused, hunderlying, htake⟩ := copy_spec hlt hle
  dsimp only at hle ⊢
  have hback : w₂.used_ - (w₁.buffer_size_ - w₁.used_ - bytes.length)
    = w₁.used_ + bytes.length := by omega
  obtain ⟨w'', hw'', hcontent''⟩ := writeBackUp_of_le
    (by omega : w₁.buffer_size_ - w₁.used_ - bytes.length ≤ w₂.used_)
  rw [hback, htake, hunderlying, ← List.append_assoc] at hcontent''
  exact ⟨w'', by rw [hcopy, hw''], by rw [hcontent'', ← hcontent, content]⟩

instance : BufferedSink (BufferedWriter (Log ω)) where
  content := content
  content_copy := content_copy
  exists_writeBackUp := exists_writeBackUp
  content_flush := content_flush

theorem write_content {fuel : ℕ} {buf : Bytes} {w w' : BufferedWriter (Log ω)}
    (h : write fuel buf w = some w') : w'.content = w.content ++ buf := by
  induction fuel generalizing w with
  | zero => cases h
  | succ fuel ih =>
    rw [write] at h
    split at h
    · exact content_write h
    · obtain ⟨w₁, hflush, hw'⟩ := Option.bind_eq_some_iff.1 h
      rw [ih hw', content_flush hflush]

theorem buffer_size_kept : Kept fun w : BufferedWriter (Log ω) ↦ w.buffer_size_ where
  writeNext {w w' _} h := by
    obtain ⟨w₁, rfl | hflush, _, _, rfl⟩ := writeNext_eq_some h
    · rfl
    · exact (flush_eq_some hflush).2.2
  copy {w chunk bytes} := by
    change (copy chunk bytes w).buffer_size_ = w.buffer_size_
    unfold copy
    split <;> rfl
  writeBackUp {w w' n} h := by
    have h : writeBackUp n w = some w' := h
    unfold writeBackUp at h
    split at h <;> cases h
    rfl
  flush h := (flush_eq_some h).2.2

theorem buffer_size_write {fuel : ℕ} {buf : Bytes} {w w' : BufferedWriter (Log ω)}
    (h : write fuel buf w = some w') : w'.buffer_size_ = w.buffer_size_ := by
  induction fuel generalizing w with
  | zero => cases h
  | succ fuel ih =>
    rw [write] at h
    split at h
    · exact buffer_size_kept.write h
    · obtain ⟨w₁, hflush, hw'⟩ := Option.bind_eq_some_iff.1 h
      rw [ih hw', (flush_eq_some hflush).2.2]

/-- A call of `Write` that returns did not call itself. -/
theorem length_lt_of_write {fuel : ℕ} {buf : Bytes} {w w' : BufferedWriter (Log ω)}
    (h : write fuel buf w = some w') : buf.length < 2 * w.buffer_size_ % 2 ^ 64 := by
  induction fuel generalizing w with
  | zero => cases h
  | succ fuel ih =>
    rw [write] at h
    split at h
    · assumption
    · obtain ⟨w₁, hflush, hw'⟩ := Option.bind_eq_some_iff.1 h
      have hlt := ih hw'
      rwa [(flush_eq_some hflush).2.2] at hlt

/-- `WriteNext` returns if the underlying writer does. -/
theorem isSome_writeNext (hunderlying : ∀ buf (u : ω), (IWriter.write buf u).isSome)
    (w : BufferedWriter (Log ω)) : w.writeNext.isSome := by
  rw [writeNext, Option.isSome_map]
  split
  · rw [flush, Option.isSome_map]
    exact Option.isSome_map.trans (hunderlying _ _)
  · rfl

/-- **`Write` may not come back.**  For less than twice the size of the buffer `Write` returns, and
all that it was given is in the underlying writer or in the buffer.  For more it calls itself with
the same bytes, and so on. -/
theorem returns_iff (hunderlying : ∀ buf (u : ω), (IWriter.write buf u).isSome)
    (w : BufferedWriter (Log ω))
    (buf : Bytes) : (∃ fuel w', write fuel buf w = some w' ∧ w'.content = w.content ++ buf)
      ↔ buf.length < 2 * w.buffer_size_ % 2 ^ 64 := by
  constructor
  · rintro ⟨fuel, w', h, _⟩
    exact length_lt_of_write h
  · intro hlt
    obtain ⟨w', h⟩ := exists_write (isSome_writeNext hunderlying) buf w
    have hwrite : write 1 buf w = some w' := by rw [write, if_pos hlt, h]
    exact ⟨1, w', hwrite, write_content hwrite⟩

/-- One byte through a buffer of one byte. -/
theorem returns_iff_one : ∃ fuel w',
    write fuel [7] (new (⟨(), []⟩ : Log Unit) 1 Nat.one_pos) = some w' ∧ w'.content = [7] :=
  (returns_iff (fun _ _ ↦ rfl) (new ⟨(), []⟩ 1 Nat.one_pos) [7]).2 (by decide)

/-- Two bytes are too many for a buffer of one byte. -/
theorem not_returns_two :
    ¬ ∃ fuel w', write fuel [1, 2] (new (⟨(), []⟩ : Log Unit) 1 Nat.one_pos) = some w' := by
  rintro ⟨fuel, w', h⟩
  exact absurd (length_lt_of_write h) (by decide)

/-- What has been written is in the underlying writer or in the buffer, after calls that return. -/
theorem content_writeCalls_new {underlying : ω} {buffer_size : ℕ} {h : 0 < buffer_size} {fuel : ℕ}
    {cs : List WriteCall} {w : BufferedWriter (Log ω)}
    (hw : writeCalls (write fuel) cs (new ⟨underlying, []⟩ buffer_size h) = some w) :
    bytesOf w.underlying_.events ++ w.buffer_.take w.used_ = cs.flatMap WriteCall.given :=
  content_writeCalls write_content hw

theorem buffer_size_writeCalls {fuel : ℕ} {cs : List WriteCall} {w w' : BufferedWriter (Log ω)}
    (h : writeCalls (write fuel) cs w = some w') : w'.buffer_size_ = w.buffer_size_ :=
  buffer_size_kept.writeCalls buffer_size_write h

/-! ### `Close` -/

variable [ICloser ω]

/-- **`Close` does not flush.**  When the underlying writer is closed it has received all that was
written if and only if there is nothing in the buffer. -/
theorem bytesOf_close_iff {underlying : ω} {buffer_size : ℕ} (h : 0 < buffer_size) {fuel : ℕ}
    {cs : List WriteCall} {w w' : BufferedWriter (Log ω)}
    (hw : writeCalls (write fuel) cs (new ⟨underlying, []⟩ buffer_size h) = some w)
    (hclose : BufferedWriteCloser.close w = some w') :
    (∃ events, w'.underlying_.events = events ++ [.close]
      ∧ bytesOf events = cs.flatMap WriteCall.given)
      ↔ w.used_ = 0 := by
  have hcontent := content_writeCalls_new hw
  have hevents : w'.underlying_.events = w.underlying_.events ++ [.close] := by
    obtain ⟨l, hl, rfl⟩ := Option.map_eq_some_iff.1 hclose
    obtain ⟨writer, _, rfl⟩ := Option.map_eq_some_iff.1 hl
    rfl
  constructor
  · rintro ⟨events, heq, hbytes⟩
    have hsame : events = w.underlying_.events := List.append_cancel_right (heq.symm.trans hevents)
    rw [hsame, ← hcontent, List.self_eq_append_right, List.take_eq_nil_iff] at hbytes
    have hpos := w.buffer_size_pos
    have hlen := w.length_buffer_
    obtain hused | hbuffer := hbytes
    · exact hused
    · rw [hbuffer, List.length_nil] at hlen
      omega
  · intro hused
    rw [hused, List.take_zero, List.append_nil] at hcontent
    exact ⟨_, hevents, hcontent⟩

/-- One byte, and `Flush`. -/
theorem bytesOf_close_flushed : ∃ w w' : BufferedWriter (Log Unit),
    writeCalls (write 1) [.append 7, .flush] (new ⟨(), []⟩ 4 (by decide)) = some w
      ∧ BufferedWriteCloser.close w = some w'
      ∧ ∃ events, w'.underlying_.events = events ++ [.close] ∧ bytesOf events = [7] := by
  obtain ⟨w, hw, hused⟩ : ∃ w : BufferedWriter (Log Unit),
      writeCalls (write 1) [.append 7, .flush] (new ⟨(), []⟩ 4 (by decide)) = some w
        ∧ w.used_ = 0 :=
    ⟨_, rfl, rfl⟩
  exact ⟨w, _, hw, rfl, (bytesOf_close_iff (by decide) hw rfl).2 hused⟩

/-- One byte is lost. -/
theorem bytesOf_close_lost : ∃ w w' : BufferedWriter (Log Unit),
    writeCalls (write 1) [.append 7] (new ⟨(), []⟩ 4 (by decide)) = some w
      ∧ BufferedWriteCloser.close w = some w'
      ∧ ¬ ∃ events, w'.underlying_.events = events ++ [.close] ∧ bytesOf events = [7] := by
  refine ⟨_, _, rfl, rfl, ?_⟩
  rintro ⟨events, heq, hbytes⟩
  have hnil : events = [] := List.append_cancel_right (heq.symm.trans (List.nil_append _).symm)
  rw [hnil] at hbytes
  cases hbytes

end BufferedWriter

/-! ## `StringWriter` -/

namespace StringWriter

theorem length_resize (size : ℕ) (w : StringWriter) :
    (w.resize size).str_.length = max w.str_.length size := by
  rw [resize, List.length_append, List.length_replicate]
  omega

theorem view_resize (size : ℕ) (w : StringWriter) : (w.resize size).view = w.view :=
  List.take_append_of_le_length w.size_le

/-- `WriteNext` makes the string longer, if there is nothing free in it. -/
theorem writeNext_spec (w : StringWriter) : ∃ w₁ : StringWriter, w₁.view = w.view
    ∧ w₁.size_ < w₁.str_.length
    ∧ w.writeNext = some (⟨w₁.size_, w₁.str_.length - w₁.size_⟩, w₁.claim) := by
  obtain ⟨w₁, hw₁, hpos, hview⟩ : ∃ w₁, (if w.str_ = [] then w.resize kMinSize else w) = w₁
      ∧ 0 < w₁.str_.length ∧ w₁.view = w.view := by
    by_cases hstr : w.str_ = []
    · refine ⟨_, if_pos hstr, ?_, view_resize _ w⟩
      rw [length_resize, hstr]
      decide
    · exact ⟨w, if_neg hstr, List.length_pos_of_ne_nil hstr, rfl⟩
  rw [writeNext, hw₁]
  by_cases hsize : w₁.size_ = w₁.str_.length
  · refine ⟨w₁.resize (2 * w₁.str_.length), (view_resize _ w₁).trans hview,
      ?_, by rw [if_pos hsize]⟩
    rw [length_resize]
    change w₁.size_ < _
    omega
  · have hle := w₁.size_le
    exact ⟨w₁, hview, by omega, by rw [if_neg hsize]⟩

theorem copy_spec {w₁ : StringWriter} {bytes : Bytes} (hlt : w₁.size_ < w₁.str_.length)
    (hle : bytes.length ≤ w₁.str_.length - w₁.size_) :
    ∃ w', copy ⟨w₁.size_, w₁.str_.length - w₁.size_⟩ bytes w₁.claim = w'
      ∧ w'.size_ = w₁.str_.length ∧ w'.str_.take (w₁.size_ + bytes.length) = w₁.view ++ bytes := by
  have hfit : w₁.size_ + bytes.length ≤ w₁.str_.length := Nat.add_le_of_le_sub' hlt.le hle
  exact ⟨_, dif_pos hfit, rfl, take_store hfit⟩

theorem writeBackUp_of_le {w : StringWriter} {size : ℕ} (h : size ≤ w.size_) :
    ∃ w', writeBackUp size w = some w' ∧ w'.view = w.str_.take (w.size_ - size) :=
  ⟨_, if_pos h, rfl⟩

instance : BufferedSink StringWriter where
  writeNext := writeNext
  copy := copy
  writeBackUp := writeBackUp
  flush := flush
  size_pos {w _ _} h := by
    obtain ⟨w₁, _, hlt, hnext⟩ := writeNext_spec w
    cases h.symm.trans hnext
    exact Nat.sub_pos_of_lt hlt
  content := view
  content_copy {w _ _ bytes} h hlen := by
    obtain ⟨w₁, hview, hlt, hnext⟩ := writeNext_spec w
    cases h.symm.trans hnext
    obtain ⟨w', hcopy, hsize, htake⟩ := copy_spec hlt hlen.le
    have hfull : w₁.size_ + bytes.length = w₁.str_.length := by
      rw [hlen]
      exact Nat.add_sub_cancel' hlt.le
    rw [hcopy, view, hsize, ← hfull, htake, hview]
  exists_writeBackUp {w _ _ bytes} h hle := by
    obtain ⟨w₁, hview, hlt, hnext⟩ := writeNext_spec w
    cases h.symm.trans hnext
    obtain ⟨w', hcopy, hsize, htake⟩ := copy_spec hlt hle
    dsimp only at hle ⊢
    have hback : w'.size_ - (w₁.str_.length - w₁.size_ - bytes.length)
      = w₁.size_ + bytes.length := by omega
    obtain ⟨w'', hw'', hview''⟩ := writeBackUp_of_le
      (by omega : w₁.str_.length - w₁.size_ - bytes.length ≤ w'.size_)
    rw [hback, htake, hview] at hview''
    exact ⟨w'', by rw [hcopy, hw''], hview''⟩
  content_flush h := by
    cases h
    rfl

/-- All calls on a `StringWriter` return. -/
theorem exists_writeCalls (cs : List WriteCall) (w : StringWriter) :
    ∃ w', writeCalls IBufferedWriter.write cs w = some w' := by
  have hwrite := exists_write fun w : StringWriter ↦ show w.writeNext.isSome from rfl
  induction cs generalizing w with
  | nil => exact ⟨w, rfl⟩
  | cons c cs ih =>
    obtain ⟨w₁, hw₁⟩ : ∃ w₁, writeCall IBufferedWriter.write c w = some w₁ := by
      cases c with
      | write buf => exact hwrite buf w
      | append c =>
        obtain ⟨_, _, _, hnext⟩ := writeNext_spec w
        obtain ⟨w₁, hw₁, _⟩ := @append_spec StringWriter _ _ _ _ c hnext
        exact ⟨w₁, hw₁⟩
      | appendC str => exact hwrite _ w
      | flush => exact ⟨w, rfl⟩
    obtain ⟨w', hw'⟩ := ih w₁
    exact ⟨w', Option.bind_eq_some_iff.2 ⟨w₁, hw₁, hw'⟩⟩

end StringWriter

/-- **No byte is lost.**  After any calls that return, what a `BufferedWriter` has passed on,
followed by what is in its buffer, is what was given to the calls; and so is the `View` of a
`StringWriter`, whose calls all return. -/
theorem written_eq {ω : Type} [IWriter ω] (underlying : ω) {buffer_size : ℕ} (h : 0 < buffer_size)
    (cs : List WriteCall) :
    (∀ fuel (w : BufferedWriter (Log ω)),
      writeCalls (BufferedWriter.write fuel) cs (BufferedWriter.new ⟨underlying, []⟩ buffer_size h)
        = some w →
      bytesOf w.underlying_.events ++ w.buffer_.take w.used_ = cs.flatMap WriteCall.given
        ∧ w.used_ ≤ buffer_size)
    ∧ ∃ w, writeCalls IBufferedWriter.write cs StringWriter.new = some w
      ∧ w.view = cs.flatMap WriteCall.given := by
  refine ⟨fun fuel w hw ↦ ⟨BufferedWriter.content_writeCalls_new hw, ?_⟩, ?_⟩
  · exact w.used_le.trans (BufferedWriter.buffer_size_writeCalls hw).le
  · obtain ⟨w, hw⟩ := StringWriter.exists_writeCalls cs StringWriter.new
    exact ⟨w, hw, content_writeCalls content_write hw⟩

/-- Two bytes for a buffer of one. -/
theorem written_eq_two : ∃ w : BufferedWriter (Log Unit),
    writeCalls (BufferedWriter.write 1) [.append 1, .append 2]
      (BufferedWriter.new ⟨(), []⟩ 1 Nat.one_pos)
        = some w
      ∧ bytesOf w.underlying_.events ++ w.buffer_.take w.used_ = [1, 2] ∧ w.used_ ≤ 1 :=
  ⟨_, rfl, (written_eq () Nat.one_pos [.append 1, .append 2]).1 1 _ rfl⟩

end Io
end ManyTasks
