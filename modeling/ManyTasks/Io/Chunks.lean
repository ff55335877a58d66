import ManyTasks.Io.Reader
import Mathlib.Data.List.Infix

/-!
# How a stream is cut does not matter

`call` is one call on a buffered reader and `Plain` is what it does to a string: what is returned,
and what is left.  A run of calls on a reader is a run of them on the stream that it delivers
(`exists_calls`), whatever the pieces are, and none of them fails a `CHECK`.

There is a lemma `exists_*` for each call.  All of them come from two facts about a buffered reader:
what `ReadNext` shows is the beginning of the stream (`exists_readNext`), and an end of it can be
taken back (`exists_readBackUp_of_suffix`).
-/

set_option autoImplicit false

namespace ManyTasks
namespace Io

/-! ## What the calls do to a string -/

/-- The shortest prefix that ends with `delim`. -/
def upTo (delim : UInt8) : Bytes → Bytes
  | [] => []
  | symbol :: bytes => if symbol = delim then [symbol] else symbol :: upTo delim bytes

/-- What `ReadString` looks at. -/
def cut (limit : ℕ) (bytes : Bytes) : Bytes := if npos ≤ limit then bytes else bytes.take limit

inductive Call where
  | readFull (size : ℕ)
  | readString (delim : UInt8) (limit : ℕ)
  | readAllToString
  | writeTo
  | read (size : ℕ)
deriving DecidableEq, Repr

inductive Answer where
  | bytes (bytes : Bytes)
  | eof
  | written (total : ℕ) (pieces : List Bytes)
deriving DecidableEq, Repr

/-- A call on a string: what is returned, and what is left. -/
inductive Plain : Call → Bytes → Answer → Bytes → Prop
  | readFull {size : ℕ} {bytes : Bytes} (h : size ≤ bytes.length) :
      Plain (.readFull size) bytes (.bytes (bytes.take size)) (bytes.drop size)
  | eof {size : ℕ} {bytes : Bytes} (h : bytes.length < size) : Plain (.readFull size) bytes .eof []
  | readString {delim : UInt8} {limit : ℕ} {bytes rest : Bytes}
      (h : bytes = upTo delim (cut limit (bytes ++ rest))) :
      Plain (.readString delim limit) (bytes ++ rest) (.bytes bytes) rest
  | readAllToString {bytes : Bytes} : Plain .readAllToString bytes (.bytes bytes) []
  | writeTo {pieces : List Bytes} :
      Plain .writeTo pieces.flatten (.written (pieces.flatten.length % 2 ^ 64) pieces) []
  | read {size : ℕ} {bytes rest : Bytes} (hle : bytes.length ≤ size)
      (hne : size ≠ 0 → bytes ++ rest ≠ [] → bytes ≠ []) :
      Plain (.read size) (bytes ++ rest) (.bytes bytes) rest

/-- Calls on a string, one after the other. -/
inductive PlainRun : List Call → Bytes → List Answer → Bytes → Prop
  | nil {bytes : Bytes} : PlainRun [] bytes [] bytes
  | cons {c : Call} {cs : List Call} {bytes bytes' rest : Bytes} {a : Answer} {as : List Answer}
      (h : Plain c bytes a bytes') (hs : PlainRun cs bytes' as rest) :
        PlainRun (c :: cs) bytes (a :: as) rest

theorem cut_nil (limit : ℕ) : cut limit [] = [] := by rw [cut, List.take_nil, ite_self]

theorem cut_zero (bytes : Bytes) : cut 0 bytes = [] := by
  rw [cut, if_neg (by decide), List.take_zero]

theorem cut_cons {limit : ℕ} (hlimit : limit ≠ 0) (symbol : UInt8) (bytes : Bytes) :
    cut limit (symbol :: bytes) = symbol :: cut (if limit ≠ npos then limit - 1 else limit)
      bytes := by
  have hnpos : npos ≠ 0 := by decide
  by_cases hle : npos ≤ limit
  · have hle' : npos ≤ if limit ≠ npos then limit - 1 else limit := by split <;> omega
    rw [cut, cut, if_pos hle, if_pos hle']
  · have hne : limit ≠ npos := by omega
    rw [cut, cut, if_neg hle, if_pos hne, if_neg (by omega),
      List.take_cons (Nat.pos_of_ne_zero hlimit)]

/-! ## The calls on a reader -/

section Source

variable {σ : Type} [Source σ]

theorem exists_read (n : ℕ) (s : σ) : ∃ piece s', IReader.read n s = some (piece, s') := by
  obtain ⟨⟨piece, s'⟩, h⟩ := Option.isSome_iff_exists.1 (Source.isSome_read n s)
  exact ⟨piece, s', h⟩

theorem readFull_zero (s : σ) : IReader.readFull 0 s = some (.ok [], s) := by
  rw [IReader.readFull, readFull]
  simp

theorem readFull_eof {size : ℕ} {s s' : σ} (hsize : size ≠ 0)
    (h : IReader.read size s = some ([], s')) :
    IReader.readFull size s = some (.error ⟨⟩, s') := by
  have hrun : @StateT.run σ Option Bytes (IReader.read size) s = some ([], s') := h
  rw [IReader.readFull, readFull, dif_neg hsize]
  simp [hrun]

theorem readFull_piece {size : ℕ} {s s' : σ} {piece : Bytes} (hsize : size ≠ 0)
    (hpiece : piece ≠ [])
    (h : IReader.read size s = some (piece, s')) :
    IReader.readFull size s
      = (IReader.readFull (size - piece.length) s').map fun r ↦ (r.1.map (piece ++ ·), r.2) := by
  have hrun : @StateT.run σ Option Bytes (IReader.read size) s = some (piece, s') := h
  rw [IReader.readFull, readFull, dif_neg hsize]
  simp [hrun, hpiece, IReader.readFull]

theorem exists_readFull (size : ℕ) (s : σ) : ∃ r s', IReader.readFull size s = some (r, s')
    ∧ ((size ≤ (Source.rest s).length ∧ r = .ok ((Source.rest s).take size)
        ∧ Source.rest s' = (Source.rest s).drop size)
      ∨ ((Source.rest s).length < size ∧ r = .error ⟨⟩ ∧ Source.rest s' = [])) := by
  induction size using Nat.strong_induction_on generalizing s with
  | _ size ih =>
    by_cases hsize : size = 0
    · subst hsize
      exact ⟨_, _, readFull_zero s, Or.inl ⟨Nat.zero_le _, rfl, rfl⟩⟩
    obtain ⟨piece, s₁, h⟩ := exists_read size s
    have hrest := Source.rest_eq h
    by_cases hpiece : piece = []
    · subst hpiece
      have hend : Source.rest s = [] := (Source.at_end h).resolve_left hsize
      rw [List.nil_append] at hrest
      refine ⟨_, _, readFull_eof hsize h, Or.inr ⟨?_, rfl, hrest.symm.trans hend⟩⟩
      rw [hend]
      exact Nat.pos_of_ne_zero hsize
    · have hlen := Source.length_le h
      have hpos : 0 < piece.length := List.length_pos_of_ne_nil hpiece
      obtain ⟨r, s', h', hr⟩ := ih (size - piece.length) (by omega) s₁
      refine ⟨_, s', by rw [readFull_piece hsize hpiece h, h']; rfl, ?_⟩
      rw [hrest, List.length_append]
      obtain ⟨hle, rfl, hs'⟩ | ⟨hlt, rfl, hs'⟩ := hr
      · refine Or.inl ⟨by omega, ?_, ?_⟩
        · rw [List.take_append, List.take_of_length_le hlen]
          rfl
        · rw [List.drop_append, List.drop_of_length_le hlen, hs', List.nil_append]
      · exact Or.inr ⟨by omega, rfl, hs'⟩

theorem exists_readAllLoop (read : Bytes) (size : ℕ) (s : σ) (hread : read.length ≤ size)
    (hsize : 0 < size) :
    ∃ s', readAllLoop read size s = some (read ++ Source.rest s, s') ∧ Source.rest s' = [] := by
  fun_induction readAllLoop read size s with
  | case1 read size s room h =>
    have hsome := Source.isSome_read (room - read.length) s
    rw [h] at hsome
    cases hsome
  | case2 read size s room s' h =>
    have hroom : read.length < room := by
      simp only [room]
      split <;> omega
    have hend : Source.rest s = [] := (Source.at_end h).resolve_left (by omega)
    exact ⟨s', by rw [hend, List.append_nil], (Source.rest_eq h).symm.trans hend⟩
  | case3 read size s room piece s' h _ ih =>
    have hroom : read.length < room := by
      simp only [room]
      split <;> omega
    have hlen := Source.length_le h
    obtain ⟨s'', h', hs''⟩ := ih (by rw [List.length_append]; omega) (by omega)
    exact ⟨s'', by rw [h', Source.rest_eq h, List.append_assoc], hs''⟩

theorem exists_readAllToString (s : σ) :
    ∃ s', readAllToString s = some (Source.rest s, s') ∧ Source.rest s' = [] :=
  exists_readAllLoop [] 1024 s (Nat.zero_le _) (by decide)

end Source

section BufferedSource

variable {σ : Type} [BufferedSource σ]

open BufferedSource (remaining seen)

theorem exists_readNext (s : σ) : ∃ chunk s', IBufferedReader.readNext s = some (chunk, s') := by
  obtain ⟨⟨chunk, s'⟩, h⟩ := Option.isSome_iff_exists.1 (BufferedSource.isSome_readNext s)
  exact ⟨chunk, s', h⟩

/-- An end of what is seen is taken back. -/
theorem exists_readBackUp_of_suffix {s : σ} {bytes : Bytes} (h : bytes <:+ seen s) :
    ∃ s', IBufferedReader.readBackUp bytes.length s = some s'
      ∧ remaining s' = bytes ++ remaining s := by
  obtain ⟨s', hs', hrem⟩ := BufferedSource.exists_readBackUp s h.length_le
  exact ⟨s', hs', by rw [hrem, ← List.suffix_iff_eq_drop.1 h]⟩

/-- The call of `Read` delivers a beginning of the stream, and something if there is something. -/
theorem exists_bufferedRead (size : ℕ) (s : σ) : ∃ bytes s', read size s = some (bytes, s')
    ∧ bytes.length ≤ size ∧ remaining s = bytes ++ remaining s'
    ∧ (size ≠ 0 → remaining s ≠ [] → bytes ≠ []) := by
  obtain ⟨chunk, s₁, h⟩ := exists_readNext s
  have hrem := BufferedSource.remaining_eq h
  simp only [read, h, Option.bind_eq_bind, Option.bind_some]
  by_cases hchunk : chunk = []
  · subst hchunk
    have hend : remaining s = [] := BufferedSource.at_end h
    exact ⟨[], s₁, rfl, Nat.zero_le _, hrem, fun _ hne ↦ absurd hend hne⟩
  rw [if_neg (by simpa using hchunk)]
  have hread : size ≠ 0 → chunk.take size ≠ [] := fun hsize ↦ by
    rw [Ne, List.take_eq_nil_iff]
    exact fun hor ↦ hor.elim hsize hchunk
  by_cases hrest : chunk.drop size = []
  · rw [hrest, List.length_nil, if_neg (by simp)]
    refine ⟨_, _, rfl, List.length_take_le _ _, ?_, fun hsize _ ↦ hread hsize⟩
    rw [hrem, List.take_of_length_le (List.drop_eq_nil_iff.1 hrest)]
  · obtain ⟨s', hs', hrem'⟩ := exists_readBackUp_of_suffix
      ((List.drop_suffix size chunk).trans (BufferedSource.suffix_seen h))
    rw [if_pos fun hlen ↦ hrest (List.length_eq_zero_iff.1 hlen), hs']
    refine ⟨_, _, rfl, List.length_take_le _ _, ?_, fun hsize _ ↦ hread hsize⟩
    rw [hrem, hrem', ← List.append_assoc, List.take_append_drop]

/-- What the inner loop of `ReadString` says about the whole of what it looks at. -/
theorem scan_spec (delim : UInt8) (buf : Bytes) (limit : ℕ) (result : Bytes) :
    match scan delim buf limit result with
    | .stop result' unread => ∃ bytes rest, buf = bytes ++ rest ∧ rest.length = unread
        ∧ result' = result ++ bytes ∧ ∀ more, upTo delim (cut limit (buf ++ more)) = bytes
    | .next result' limit' => result' = result ++ buf
        ∧ ∀ more, upTo delim (cut limit (buf ++ more)) = buf ++ upTo delim (cut limit' more) := by
  induction buf generalizing limit result with
  | nil => exact ⟨(List.append_nil _).symm, fun _ ↦ rfl⟩
  | cons symbol buf ih =>
    rw [scan]
    by_cases hlimit : limit = 0
    · subst hlimit
      rw [if_pos rfl]
      exact ⟨[], symbol :: buf, rfl, rfl, (List.append_nil _).symm,
        fun more ↦ by rw [cut_zero, upTo]⟩
    rw [if_neg hlimit]
    by_cases hsymbol : symbol = delim
    · rw [if_pos hsymbol]
      refine ⟨[symbol], buf, rfl, rfl, rfl, fun more ↦ ?_⟩
      rw [List.cons_append, cut_cons hlimit, upTo, if_pos hsymbol]
    rw [if_neg hsymbol]
    have hcons (more : Bytes) : upTo delim (cut limit (symbol :: buf ++ more))
        = symbol :: upTo delim (cut (if limit ≠ npos then limit - 1 else limit) (buf ++ more)) := by
      rw [List.cons_append, cut_cons hlimit, upTo, if_neg hsymbol]
    have := ih (if limit ≠ npos then limit - 1 else limit) (result ++ [symbol])
    split at this
    · obtain ⟨bytes, rest, hbuf, hlen, hresult, hupTo⟩ := this
      exact ⟨symbol :: bytes, rest, by rw [hbuf]; rfl, hlen, by simp [hresult], fun more ↦ by
        rw [hcons, hupTo]⟩
    · obtain ⟨hresult, hupTo⟩ := this
      exact ⟨by simp [hresult], fun more ↦ by rw [hcons, hupTo]; rfl⟩

theorem exists_readStringLoop (delim : UInt8) (limit : ℕ) (result : Bytes) (s : σ) : ∃ bytes s',
    readStringLoop delim limit result s = some (result ++ bytes, s')
      ∧ remaining s = bytes ++ remaining s'
      ∧ bytes = upTo delim (cut limit (remaining s)) := by
  fun_induction readStringLoop delim limit result s with
  | case1 limit result s h =>
    have hsome := BufferedSource.isSome_readNext s
    rw [h] at hsome
    cases hsome
  | case2 limit result s s' h =>
    have hend : remaining s = [] := BufferedSource.at_end h
    exact ⟨[], s', by rw [List.append_nil],
      BufferedSource.remaining_eq h, by rw [hend, cut_nil, upTo]⟩
  | case3 limit result s buf s₁ h _ result' unread hscan =>
    have hspec := scan_spec delim buf limit result
    rw [hscan] at hspec
    obtain ⟨bytes, rest, rfl, rfl, rfl, hupTo⟩ := hspec
    have hrem := BufferedSource.remaining_eq h
    obtain ⟨s', hs', hrem'⟩ := exists_readBackUp_of_suffix
      ((List.suffix_append bytes rest).trans (BufferedSource.suffix_seen h))
    exact ⟨bytes, s', by rw [hs']; rfl, by rw [hrem, hrem', List.append_assoc], by rw [hrem, hupTo]⟩
  | case4 limit result s buf s₁ h _ result' limit' hscan ih =>
    have hspec := scan_spec delim buf limit result
    rw [hscan] at hspec
    obtain ⟨rfl, hupTo⟩ := hspec
    have hrem := BufferedSource.remaining_eq h
    obtain ⟨bytes, s', hs', hrem', hbytes⟩ := ih
    refine ⟨buf ++ bytes, s', by rw [hs', List.append_assoc], ?_, by rw [hrem, hupTo, ← hbytes]⟩
    rw [hrem, hrem', List.append_assoc]

theorem exists_readString (delim : UInt8) (limit : ℕ) (s : σ) : ∃ bytes s',
    readString delim limit s = some (bytes, s') ∧ remaining s = bytes ++ remaining s'
      ∧ bytes = upTo delim (cut limit (remaining s)) :=
  exists_readStringLoop delim limit [] s

theorem exists_writeToLoop {total : ℕ} (htotal : total < 2 ^ 64) (written : List Bytes) (s : σ) :
    ∃ pieces s',
    writeToLoop total written s = some
      (((total + pieces.flatten.length) % 2 ^ 64, written ++ pieces), s')
      ∧ remaining s = pieces.flatten ∧ remaining s' = [] := by
  fun_induction writeToLoop total written s with
  | case1 total written s h =>
    have hsome := BufferedSource.isSome_readNext s
    rw [h] at hsome
    cases hsome
  | case2 total written s s' h =>
    have hend : remaining s = [] := BufferedSource.at_end h
    refine ⟨[], s', ?_, hend, (BufferedSource.remaining_eq h).symm.trans hend⟩
    rw [List.flatten_nil, List.length_nil, Nat.add_zero, Nat.mod_eq_of_lt htotal, List.append_nil]
  | case3 total written s buf s₁ h _ ih =>
    have hrem := BufferedSource.remaining_eq h
    obtain ⟨pieces, s', hs', hrem', hend⟩ := ih (Nat.mod_lt _ (by decide))
    refine ⟨buf :: pieces, s', ?_, by rw [hrem, hrem', List.flatten_cons], hend⟩
    rw [hs', List.flatten_cons, List.length_append, List.append_assoc, Nat.mod_add_mod,
      Nat.add_assoc]
    rfl

theorem exists_writeTo (s : σ) : ∃ pieces s',
    writeTo s = some ((pieces.flatten.length % 2 ^ 64, pieces), s')
      ∧ remaining s = pieces.flatten ∧ remaining s' = [] := by
  simpa only [writeTo, Nat.zero_add, List.nil_append] using exists_writeToLoop
    (by decide : 0 < 2 ^ 64) [] s

/-- A buffered reader is a reader. -/
instance : Source σ where
  read := read
  rest := remaining
  isSome_read n s := by
    obtain ⟨bytes, s', h, _⟩ := exists_bufferedRead n s
    rw [h, Option.isSome_some]
  length_le {n s _ _} h := by
    obtain ⟨bytes, s', h', hle, _⟩ := exists_bufferedRead n s
    cases h.symm.trans h'
    exact hle
  rest_eq {n s _ _} h := by
    obtain ⟨bytes, s', h', _, hrem, _⟩ := exists_bufferedRead n s
    cases h.symm.trans h'
    exact hrem
  at_end {n s _} h := by
    obtain ⟨bytes, s', h', _, _, hne⟩ := exists_bufferedRead n s
    cases h.symm.trans h'
    by_contra hor
    exact hne (fun hn ↦ hor (Or.inl hn)) (fun hrem ↦ hor (Or.inr hrem)) rfl

@[simp]
theorem rest_eq_remaining (s : σ) : Source.rest s = remaining s := rfl

/-! ## Runs of calls -/

/-- One call on a buffered reader. -/
def call (c : Call) (s : σ) : Option (Answer × σ) :=
  match c with
  | .readFull size => (IReader.readFull size s).map fun
    | (.ok bytes, s) => (.bytes bytes, s)
    | (.error _, s) => (.eof, s)
  | .readString delim limit => (readString delim limit s).map fun (bytes, s) ↦ (.bytes bytes, s)
  | .readAllToString => (readAllToString s).map fun (bytes, s) ↦ (.bytes bytes, s)
  | .writeTo => (writeTo s).map fun ((total, pieces), s) ↦ (.written total pieces, s)
  | .read size => (read size s).map fun (bytes, s) ↦ (.bytes bytes, s)

/-- Calls one after the other, also after one that throws. -/
def calls : List Call → σ → Option (List Answer × σ)
  | [], s => some ([], s)
  | c :: cs, s => do
    let (a, s) ← call c s
    let (as, s) ← calls cs s
    some (a :: as, s)

theorem exists_call (c : Call) (s : σ) :
    ∃ a s', call c s = some (a, s') ∧ Plain c (remaining s) a (remaining s') := by
  cases c with
  | readFull size =>
    obtain ⟨_, s', h, ⟨hle, rfl, hs'⟩ | ⟨hlt, rfl, hs'⟩⟩ := exists_readFull size s <;>
      rw [rest_eq_remaining] at hs'
    · exact ⟨.bytes ((remaining s).take size), s', by rw [call, h]; rfl, hs' ▸ Plain.readFull hle⟩
    · exact ⟨.eof, s', by rw [call, h]; rfl, hs' ▸ Plain.eof hlt⟩
  | readString delim limit =>
    obtain ⟨bytes, s', h, hrem, hbytes⟩ := exists_readString delim limit s
    refine ⟨.bytes bytes, s', by rw [call, h]; rfl, ?_⟩
    rw [hrem] at hbytes ⊢
    exact Plain.readString hbytes
  | readAllToString =>
    obtain ⟨s', h, hs'⟩ := exists_readAllToString s
    rw [rest_eq_remaining] at hs'
    exact ⟨.bytes (remaining s), s', by rw [call, h]; rfl, hs' ▸ Plain.readAllToString⟩
  | writeTo =>
    obtain ⟨pieces, s', h, hrem, hs'⟩ := exists_writeTo s
    refine ⟨.written (pieces.flatten.length % 2 ^ 64) pieces, s', by rw [call, h]; rfl, ?_⟩
    rw [hrem, hs']
    exact Plain.writeTo
  | read size =>
    obtain ⟨bytes, s', h, hle, hrem, hne⟩ := exists_bufferedRead size s
    refine ⟨.bytes bytes, s', by rw [call, h]; rfl, ?_⟩
    rw [hrem] at hne ⊢
    exact Plain.read hle hne

theorem exists_calls (cs : List Call) (s : σ) :
    ∃ as s', calls cs s = some (as, s') ∧ PlainRun cs (remaining s) as (remaining s') := by
  induction cs generalizing s with
  | nil => exact ⟨[], s, rfl, PlainRun.nil⟩
  | cons c cs ih =>
    obtain ⟨a, s₁, h, ha⟩ := exists_call c s
    obtain ⟨as, s', hs, has⟩ := ih s₁
    exact ⟨a :: as, s', by simp [calls, h, hs], PlainRun.cons ha has⟩

end BufferedSource

/-! ## The two readers -/

/-- A window is the part before a place in it, then the part from there on. -/
theorem drop_take_split (bytes : Bytes) {i j k : ℕ} (hij : i ≤ j) (hjk : j ≤ k)
    (hk : k ≤ bytes.length) :
    (bytes.take k).drop i = (bytes.take j).drop i ++ (bytes.take k).drop j := by
  have hlen : i ≤ (bytes.take j).length := by
    rw [List.length_take]
    omega
  have htake : bytes.take k = bytes.take j ++ (bytes.take k).drop j := by
    have hsplit := List.take_append_drop j (bytes.take k)
    rw [List.take_take, Nat.min_eq_left hjk] at hsplit
    exact hsplit.symm
  rw [← List.drop_append_of_le_length hlen, ← htake]

namespace BufferedReader

variable {ρ : Type}

theorem view_of_eq {r : BufferedReader ρ} (h : r.pos_ = r.end_) : r.view = [] := by
  rw [view, h, Nat.sub_self, List.take_zero]

theorem view_suffix (r : BufferedReader ρ) : r.view <:+ r.buffer_.take r.end_ := by
  rw [view, ← List.drop_take]
  exact List.drop_suffix _ _

theorem length_view (r : BufferedReader ρ) : r.view.length = r.end_ - r.pos_ := by
  have hend := r.end_le
  have hlen := r.length_buffer_
  rw [view, List.length_take, List.length_drop]
  omega

variable [Source ρ]

/-- At the end of the buffer it is filled again, and all of it is shown. -/
theorem readNext_of_eq {r : BufferedReader ρ} (h : r.pos_ = r.end_) : ∃ piece reader r',
    IReader.read r.cap_ r.underlying_ = some (piece, reader) ∧ r.readNext = some (piece, r')
      ∧ r'.underlying_ = reader ∧ r'.view = [] ∧ r'.buffer_.take r'.pos_ = piece := by
  obtain ⟨piece, reader, hread⟩ := exists_read r.cap_ r.underlying_
  have hend : r.reset.end_ = 0 := rfl
  have hview : (r.reset.fill hend piece reader (Source.length_le hread)).view = piece :=
    List.take_left
  refine ⟨piece, reader, (r.reset.fill hend piece reader (Source.length_le hread)).skip, hread, ?_,
    rfl,
    view_of_eq rfl, List.take_left⟩
  rw [readNext, if_pos h, fillNext, dif_pos hend]
  split <;> rename_i hread'
  · cases hread.symm.trans hread'
  · cases hread.symm.trans hread'
    exact congrArg (fun bytes ↦ some (bytes, _)) hview

theorem readNext_of_ne {r : BufferedReader ρ} (h : r.pos_ ≠ r.end_) :
    r.readNext = some (r.view, r.skip) := by
  have hle := r.pos_le
  rw [readNext, if_neg h, fillNext, dif_neg (by omega)]

/-- What is left of the stream: the rest of the buffer, then what is left in the underlying
reader. -/
def remaining (r : BufferedReader ρ) : Bytes := r.view ++ Source.rest r.underlying_

theorem readNext_spec (r : BufferedReader ρ) : ∃ chunk r', r.readNext = some (chunk, r')
    ∧ r.remaining = chunk ++ r'.remaining ∧ chunk <:+ r'.buffer_.take r'.pos_
    ∧ (chunk = [] → r.remaining = []) := by
  by_cases heq : r.pos_ = r.end_
  · obtain ⟨piece, reader, r', hread, hnext, rfl, hview, hseen⟩ := readNext_of_eq heq
    have hrem : r.remaining = Source.rest r.underlying_ := by
      rw [remaining, view_of_eq heq, List.nil_append]
    have hrem' : r'.remaining = Source.rest r'.underlying_ := by
      rw [remaining, hview, List.nil_append]
    refine ⟨piece, r', hnext, by rw [hrem, hrem', Source.rest_eq hread], ?_, fun hpiece ↦ ?_⟩
    · rw [hseen]
    · subst hpiece
      exact hrem.trans ((Source.at_end hread).resolve_left r.cap_pos.ne')
  · have hle := r.pos_le
    have hrem : r.skip.remaining = Source.rest r.underlying_ := by
      rw [remaining, view_of_eq rfl, List.nil_append, skip]
    refine ⟨r.view, r.skip, readNext_of_ne heq, by rw [hrem, remaining], r.view_suffix, fun hview ↦
      ?_⟩
    have hlen := r.length_view
    rw [hview, List.length_nil] at hlen
    omega

instance : BufferedSource (BufferedReader ρ) where
  readNext := readNext
  readBackUp := readBackUp
  remaining := remaining
  seen r := r.buffer_.take r.pos_
  isSome_readNext r := by
    obtain ⟨_, _, h, _⟩ := readNext_spec r
    rw [h, Option.isSome_some]
  remaining_eq {r _ _} h := by
    obtain ⟨_, _, h', hrem, _⟩ := readNext_spec r
    cases h.symm.trans h'
    exact hrem
  suffix_seen {r _ _} h := by
    obtain ⟨_, _, h', _, hseen, _⟩ := readNext_spec r
    cases h.symm.trans h'
    exact hseen
  at_end {r _} h := by
    obtain ⟨_, _, h', _, _, hend⟩ := readNext_spec r
    cases h.symm.trans h'
    exact hend rfl
  exists_readBackUp r n hn := by
    have hpos := r.pos_le
    have hend := r.end_le
    have hlen := r.length_buffer_
    have hseen : (r.buffer_.take r.pos_).length = r.pos_ := by
      rw [List.length_take]
      omega
    rw [hseen] at hn
    rw [hseen]
    refine ⟨_, if_pos hn, ?_⟩
    have hsplit := drop_take_split r.buffer_ (Nat.sub_le r.pos_ n) hpos (hend.trans hlen.ge)
    rw [remaining, remaining, ← List.append_assoc, view, view, ← List.drop_take, ← List.drop_take]
    exact congrArg (· ++ Source.rest r.underlying_) hsplit

end BufferedReader

namespace ViewReader

instance : BufferedSource ViewReader where
  readNext := readNext
  readBackUp := readBackUp
  remaining r := r.buf_.drop r.pos_
  seen r := r.buf_.take r.pos_
  isSome_readNext _ := rfl
  remaining_eq h := by
    cases h
    rw [List.drop_length, List.append_nil]
  suffix_seen {r _ _} h := by
    cases h
    rw [List.take_length]
    exact List.drop_suffix _ _
  at_end {r r'} h := by
    rw [readNext, Option.some_inj, Prod.mk.injEq] at h
    exact h.1
  exists_readBackUp r n hn := by
    have hpos := r.pos_le
    rw [List.length_take, Nat.min_eq_left hpos] at hn ⊢
    refine ⟨_, if_pos hn, ?_⟩
    have hsplit := drop_take_split r.buf_ (Nat.sub_le r.pos_ n) hpos (Nat.le_refl _)
    rwa [List.take_length] at hsplit

end ViewReader

/-- **Chunks do not show.**  Whatever the pieces are in which the underlying reader delivers its
stream, and whatever the size of the buffer, the calls on a `BufferedReader` answer what they answer
on the stream as a string, and leave what they leave of it; and so on a `ViewReader`.  No `CHECK`
fails. -/
theorem exists_calls_new {ρ : Type} [Source ρ] (reader : ρ) {buffer_size : ℕ} (h : 0 < buffer_size)
    (buf : Bytes) (cs : List Call) :
    (∃ as r', calls cs (BufferedReader.new reader buffer_size h) = some (as, r')
      ∧ PlainRun cs (Source.rest reader) as r'.remaining)
    ∧ ∃ as r', calls cs (ViewReader.new buf) = some (as, r')
      ∧ PlainRun cs buf as (r'.buf_.drop r'.pos_) := by
  refine ⟨?_, exists_calls cs (ViewReader.new buf)⟩
  have hrem : (BufferedReader.new reader buffer_size h).remaining = Source.rest reader := by
    rw [BufferedReader.remaining, BufferedReader.view_of_eq rfl, List.nil_append]
    rfl
  rw [← hrem]
  exact exists_calls cs _

/-- Two bytes through a buffer of one byte, then through one of four. -/
theorem exists_calls_new_two : ∃ r', calls [.readFull 2, .readFull 1]
      (BufferedReader.new (BufferedReader.new (ViewReader.new [72, 105]) 1 Nat.one_pos) 4
        (by decide))
    = some ([.bytes [72, 105], .eof], r') := by
  obtain ⟨as, r', h, hrun⟩ :=
    (exists_calls_new (BufferedReader.new (ViewReader.new [72, 105]) 1 Nat.one_pos)
      (by decide : 0 < 4) [] [.readFull 2, .readFull 1]).1
  have hrest : Source.rest (BufferedReader.new (ViewReader.new [72, 105]) 1 Nat.one_pos)
    = [72, 105] := rfl
  rw [hrest] at hrun
  generalize r'.remaining = left at hrun
  obtain _ | ⟨h₁, hrun⟩ := hrun
  obtain _ | hlt := h₁
  · obtain _ | ⟨h₂, hrun⟩ := hrun
    obtain hle | _ := h₂
    · exact absurd hle (by decide)
    · cases hrun
      exact ⟨r', h⟩
  · exact absurd hlt (by decide)

end Io
end ManyTasks
