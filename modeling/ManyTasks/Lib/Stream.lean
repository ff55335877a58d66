import Mathlib.Data.List.Basic
import Mathlib.Tactic.Basic

/-!
# Programs that talk to a stream

A `Prog β σ ε α` is a program at one end of a connection: it reads symbols of type `β` one at a
time, writes symbols, and now and then looks at and changes a shared state of type `σ` in one
atomic step; it ends by returning an `α` or by throwing an `ε`.  A program is a tree of what it
does next, so the same program can be given two meanings.

* `run` executes it in one go on a fixed input, at the end of which it sees the end of the stream
  for ever.
* `step` executes one symbol or one atomic access at a time.  A program that wants to read from a
  stream that is empty and not closed has no step: it waits.

The two agree: a step leaves a program with the rest of the run to do (`run_of_step`), and a program
that does not wait has a step (`exists_step`).  In between, `Reads p inp a rest` is the judgement
programs that only read are reasoned about with: on input `inp` the program `p` returns `a` and
leaves `rest`.
-/

set_option autoImplicit false

namespace ManyTasks
namespace Lib

/-- A program over a stream of `β`, a shared state `σ` and exceptions `ε`. -/
inductive Prog (β σ ε α : Type) where
  /-- Return. -/
  | ret (a : α)
  /-- Throw. -/
  | raise (e : ε)
  /-- Read the next symbol, or notice the end of the stream. -/
  | read (next : Option β → Prog β σ ε α)
  /-- Write a symbol. -/
  | write (b : β) (next : Prog β σ ε α)
  /-- Replace the shared state `s` by `update s` and go on with `next s`. -/
  | atomic (update : σ → σ) (next : σ → Prog β σ ε α)

namespace Prog

variable {β σ ε α γ δ : Type}

/-- Sequencing. -/
def bind : Prog β σ ε α → (α → Prog β σ ε γ) → Prog β σ ε γ
  | ret a, f => f a
  | raise e, _ => raise e
  | read next, f => read fun o ↦ (next o).bind f
  | write b next, f => write b (next.bind f)
  | atomic update next, f => atomic update fun s ↦ (next s).bind f

/-- Running a handler in place of an exception. -/
def handle : Prog β σ ε α → (ε → Prog β σ ε α) → Prog β σ ε α
  | ret a, _ => ret a
  | raise e, h => h e
  | read next, h => read fun o ↦ (next o).handle h
  | write b next, h => write b (next.handle h)
  | atomic update next, h => atomic update fun s ↦ (next s).handle h

instance : Monad (Prog β σ ε) where
  pure := ret
  bind := bind

instance : MonadExceptOf ε (Prog β σ ε) where
  throw := raise
  tryCatch := handle

instance : LawfulMonad (Prog β σ ε) := by
  refine LawfulMonad.mk' _ (fun p ↦ ?_) (fun a f ↦ rfl) (fun p f g ↦ ?_)
  · change p.bind ret = p
    induction p with
    | ret a => rfl
    | raise e => rfl
    | read next ih => exact congrArg read (funext ih)
    | write b next ih => exact congrArg (write b) ih
    | atomic update next ih => exact congrArg (atomic update) (funext ih)
  · change (p.bind f).bind g = p.bind fun a ↦ (f a).bind g
    induction p with
    | ret a => rfl
    | raise e => rfl
    | read next ih => exact congrArg read (funext ih)
    | write b next ih => exact congrArg (write b) ih
    | atomic update next ih => exact congrArg (atomic update) (funext ih)

theorem bind_def (p : Prog β σ ε α) (f : α → Prog β σ ε γ) : p >>= f = p.bind f := rfl

/-! ## The operations of a connection -/

/-- Read one symbol, throwing `eof` at the end of the stream. -/
def readOne (eof : ε) : Prog β σ ε β :=
  read fun o ↦ o.elim (raise eof) ret

/-- Read exactly `n` symbols, throwing `eof` if the stream ends before. -/
def readFull (eof : ε) : ℕ → Prog β σ ε (List β)
  | 0 => ret []
  | n + 1 => do
    let b ← readOne eof
    let bs ← readFull eof n
    return b :: bs

/-- Write a sequence of symbols. -/
def writeAll : List β → Prog β σ ε Unit
  | [] => ret ()
  | b :: bs => write b (writeAll bs)

/-- A computation on its own, as a program. -/
def lift : Except ε α → Prog β σ ε α
  | .ok a => ret a
  | .error e => raise e

/-- One atomic access to the shared state, which may throw. -/
def access (f : σ → Except ε α × σ) : Prog β σ ε α :=
  atomic (fun s ↦ (f s).2) fun s ↦ lift (f s).1

/-! ## Running a program in one go -/

/-- What a run ends in: the result, the shared state, the symbols left unread and the symbols
written. -/
structure Outcome (β σ ε α : Type) where
  result : Except ε α
  state : σ
  rest : List β
  output : List β

/-- More output before an outcome. -/
def Outcome.prepend (out : List β) (o : Outcome β σ ε α) : Outcome β σ ε α :=
  { o with output := out ++ o.output }

@[simp] theorem Outcome.prepend_nil (o : Outcome β σ ε α) : o.prepend [] = o := rfl

theorem Outcome.prepend_prepend (out out' : List β) (o : Outcome β σ ε α) :
    (o.prepend out').prepend out = o.prepend (out ++ out') := by
  simp [Outcome.prepend]

theorem Outcome.of_prepend_eq {o : Outcome β σ ε α} {b : β} {result : Except ε α} {state : σ}
    {rest out : List β} (h : o.prepend [b] = ⟨result, state, rest, out⟩) :
    ∃ out', o = ⟨result, state, rest, out'⟩ ∧ b :: out' = out := by
  cases o with
  | mk result' state' rest' out' =>
    cases h
    exact ⟨out', rfl, rfl⟩

/-- Run on the state `s` and the input `inp`. -/
def run : Prog β σ ε α → σ → List β → Outcome β σ ε α
  | ret a, s, inp => ⟨.ok a, s, inp, []⟩
  | raise e, s, inp => ⟨.error e, s, inp, []⟩
  | read next, s, [] => (next none).run s []
  | read next, s, b :: inp => (next (some b)).run s inp
  | write b next, s, inp => (next.run s inp).prepend [b]
  | atomic update next, s, inp => (next s).run (update s) inp

/-- A run never gives symbols back. -/
theorem length_rest_le (p : Prog β σ ε α) (s : σ) (inp : List β) :
    (p.run s inp).rest.length ≤ inp.length := by
  induction p generalizing s inp with
  | ret a => exact Nat.le_refl _
  | raise e => exact Nat.le_refl _
  | read next ih =>
    cases inp with
    | nil => exact ih none s []
    | cons b inp => exact Nat.le_succ_of_le (ih (some b) s inp)
  | write b next ih => exact ih s inp
  | atomic update next ih => exact ih s (update s) inp

theorem run_bind_ok {p : Prog β σ ε α} {f : α → Prog β σ ε γ} {s s' : σ} {inp rest out : List β}
    {a : α} (h : p.run s inp = ⟨.ok a, s', rest, out⟩) :
    (p >>= f).run s inp = ((f a).run s' rest).prepend out := by
  rw [bind_def]
  induction p generalizing s inp out with
  | ret a' => cases h; rfl
  | raise e => cases h
  | read next ih =>
    cases inp with
    | nil => exact ih none h
    | cons b inp => exact ih (some b) h
  | write b next ih =>
    obtain ⟨out', hn, rfl⟩ := Outcome.of_prepend_eq h
    rw [bind, run, ih hn, Outcome.prepend_prepend]
    rfl
  | atomic update next ih => exact ih s h

theorem run_handle_ok {p : Prog β σ ε α} {f : ε → Prog β σ ε α} {s s' : σ} {inp rest out : List β}
    {a : α} (h : p.run s inp = ⟨.ok a, s', rest, out⟩) :
    (p.handle f).run s inp = ⟨.ok a, s', rest, out⟩ := by
  induction p generalizing s inp out with
  | ret a' => exact h
  | raise e => cases h
  | read next ih =>
    cases inp with
    | nil => exact ih none h
    | cons b inp => exact ih (some b) h
  | write b next ih =>
    obtain ⟨out', hn, rfl⟩ := Outcome.of_prepend_eq h
    rw [handle, run, ih hn]
    rfl
  | atomic update next ih => exact ih s h

theorem run_bind_error {p : Prog β σ ε α} (f : α → Prog β σ ε γ) {s s' : σ}
    {inp rest out : List β} {e : ε} (h : p.run s inp = ⟨.error e, s', rest, out⟩) :
    (p >>= f).run s inp = ⟨.error e, s', rest, out⟩ := by
  rw [bind_def]
  induction p generalizing s inp out with
  | ret a => cases h
  | raise e' => cases h; rfl
  | read next ih =>
    cases inp with
    | nil => exact ih none h
    | cons b inp => exact ih (some b) h
  | write b next ih =>
    obtain ⟨out', hn, rfl⟩ := Outcome.of_prepend_eq h
    rw [bind, run, ih hn]
    rfl
  | atomic update next ih => exact ih s h

theorem run_handle_error {p : Prog β σ ε α} {f : ε → Prog β σ ε α} {s s' : σ}
    {inp rest out : List β} {e : ε} (h : p.run s inp = ⟨.error e, s', rest, out⟩) :
    (p.handle f).run s inp = ((f e).run s' rest).prepend out := by
  induction p generalizing s inp out with
  | ret a => cases h
  | raise e' => cases h; rfl
  | read next ih =>
    cases inp with
    | nil => exact ih none h
    | cons b inp => exact ih (some b) h
  | write b next ih =>
    obtain ⟨out', hn, rfl⟩ := Outcome.of_prepend_eq h
    rw [handle, run, ih hn, Outcome.prepend_prepend]
    rfl
  | atomic update next ih => exact ih s h

/-! ## Programs that only read -/

/-- On `inp` the program returns `a` and leaves `rest`, whatever the state, which it does not
touch, and without writing. -/
def Reads (p : Prog β σ ε α) (inp : List β) (a : α) (rest : List β) : Prop :=
  ∀ s, p.run s inp = ⟨.ok a, s, rest, []⟩

theorem Reads.bind {p : Prog β σ ε α} {f : α → Prog β σ ε γ} {inp mid rest : List β} {a : α}
    {c : γ} (hp : Reads p inp a mid) (hf : Reads (f a) mid c rest) :
    Reads (p >>= f) inp c rest := by
  intro s
  rw [run_bind_ok (hp s), hf s, Outcome.prepend_nil]

theorem Reads.handle {p : Prog β σ ε α} {f : ε → Prog β σ ε α} {inp rest : List β} {a : α}
    (h : Reads p inp a rest) : Reads (tryCatch p f) inp a rest :=
  fun s ↦ run_handle_ok (h s)

theorem Reads.pure (a : α) (inp : List β) : Reads (pure a : Prog β σ ε α) inp a inp :=
  fun _ ↦ rfl

theorem reads_readOne (eof : ε) (b : β) (rest : List β) :
    Reads (readOne eof : Prog β σ ε β) (b :: rest) b rest :=
  fun _ ↦ rfl

theorem reads_readFull (eof : ε) (bs rest : List β) :
    Reads (readFull eof bs.length : Prog β σ ε (List β)) (bs ++ rest) bs rest := by
  induction bs with
  | nil => exact fun _ ↦ rfl
  | cons b bs ih => exact (reads_readOne eof b (bs ++ rest)).bind (ih.bind (Reads.pure _ _))

/-- On `inp` the program throws `e` and leaves `rest`, whatever the state, which it does not touch,
and without writing. -/
def Fails (p : Prog β σ ε α) (inp : List β) (e : ε) (rest : List β) : Prop :=
  ∀ s, p.run s inp = ⟨.error e, s, rest, []⟩

theorem Fails.throw (e : ε) (inp : List β) : Fails (throw e : Prog β σ ε α) inp e inp :=
  fun _ ↦ rfl

theorem Fails.bind {p : Prog β σ ε α} {inp rest : List β} {e : ε} (hp : Fails p inp e rest)
    (f : α → Prog β σ ε γ) : Fails (p >>= f) inp e rest :=
  fun s ↦ run_bind_error f (hp s)

theorem Reads.bind_fails {p : Prog β σ ε α} {f : α → Prog β σ ε γ} {inp mid rest : List β} {a : α}
    {e : ε} (hp : Reads p inp a mid) (hf : Fails (f a) mid e rest) :
    Fails (p >>= f) inp e rest := by
  intro s
  rw [run_bind_ok (hp s), hf s, Outcome.prepend_nil]

/-- A handler that throws again. -/
theorem Fails.handle {p : Prog β σ ε α} {f : ε → Prog β σ ε α} {inp mid rest : List β} {e e' : ε}
    (hp : Fails p inp e mid) (hf : Fails (f e) mid e' rest) :
    Fails (tryCatch p f) inp e' rest := by
  intro s
  change (p.handle f).run s inp = _
  rw [run_handle_error (hp s), hf s, Outcome.prepend_nil]

theorem fails_readOne (eof : ε) : Fails (readOne eof : Prog β σ ε β) [] eof [] :=
  fun _ ↦ rfl

/-- A buffer is read full, or the stream is too short. -/
theorem readFull_cases (eof : ε) (n : ℕ) (inp : List β) :
    (∃ bs rest, inp = bs ++ rest ∧ bs.length = n ∧
      Reads (readFull eof n : Prog β σ ε (List β)) inp bs rest) ∨
    inp.length < n ∧ Fails (readFull eof n : Prog β σ ε (List β)) inp eof [] := by
  by_cases hlong : n ≤ inp.length
  · refine Or.inl ⟨inp.take n, inp.drop n, (List.take_append_drop n inp).symm,
      List.length_take_of_le hlong, ?_⟩
    have hreads := reads_readFull (σ := σ) eof (inp.take n) (inp.drop n)
    rwa [List.length_take_of_le hlong, List.take_append_drop] at hreads
  · refine Or.inr ⟨Nat.lt_of_not_le hlong, ?_⟩
    induction inp generalizing n with
    | nil =>
      cases n with
      | zero => exact absurd (Nat.zero_le _) hlong
      | succ n => exact (fails_readOne eof).bind _
    | cons b inp ih =>
      cases n with
      | zero => exact absurd (Nat.zero_le _) hlong
      | succ n =>
        have hrest := ih n fun hle ↦ hlong (Nat.succ_le_succ hle)
        exact (reads_readOne eof b inp).bind_fails (hrest.bind _)

/-- A handler that only throws may as well be around each part of a sequence. -/
theorem tryCatch_throw_bind (p : Prog β σ ε α) (f : α → Prog β σ ε γ) (e : ε) :
    (tryCatch (p >>= f) fun _ ↦ throw e) = (do
      let a ← tryCatch p fun _ ↦ throw e
      tryCatch (f a) fun _ ↦ throw e) := by
  change (p.bind f).handle (fun _ ↦ raise e)
    = (p.handle fun _ ↦ raise e).bind fun a ↦ (f a).handle fun _ ↦ raise e
  induction p with
  | ret a => rfl
  | raise e => rfl
  | read next ih => exact congrArg read (funext ih)
  | write b next ih => exact congrArg (write b) ih
  | atomic update next ih => exact congrArg (atomic update) (funext ih)

/-! ## Other exceptions -/

/-- The same program, where there are more exceptions. -/
def mapError (f : ε → δ) : Prog β σ ε α → Prog β σ δ α
  | ret a => ret a
  | raise e => raise (f e)
  | read next => read fun o ↦ (next o).mapError f
  | write b next => write b (next.mapError f)
  | atomic update next => atomic update fun s ↦ (next s).mapError f

theorem mapError_bind (g : ε → δ) (p : Prog β σ ε α) (f : α → Prog β σ ε γ) :
    (p >>= f).mapError g = p.mapError g >>= fun a ↦ (f a).mapError g := by
  rw [bind_def, bind_def]
  induction p with
  | ret a => rfl
  | raise e => rfl
  | read next ih => exact congrArg read (funext ih)
  | write b next ih => exact congrArg (write b) ih
  | atomic update next ih => exact congrArg (atomic update) (funext ih)

theorem run_mapError (g : ε → δ) (p : Prog β σ ε α) (s : σ) (inp : List β) :
    (p.mapError g).run s inp = ⟨(p.run s inp).result.mapError g, (p.run s inp).state,
      (p.run s inp).rest, (p.run s inp).output⟩ := by
  induction p generalizing s inp with
  | ret a => rfl
  | raise e => rfl
  | read next ih =>
    cases inp with
    | nil => exact ih none s []
    | cons b inp => exact ih (some b) s inp
  | write b next ih => rw [mapError, run, ih]; rfl
  | atomic update next ih => exact ih s (update s) inp

theorem mapError_mapError (f : ε → δ) (g : δ → γ) (p : Prog β σ ε α) :
    (p.mapError f).mapError g = p.mapError fun e ↦ g (f e) := by
  induction p with
  | ret a => rfl
  | raise e => rfl
  | read next ih => exact congrArg read (funext ih)
  | write b next ih => exact congrArg (write b) ih
  | atomic update next ih => exact congrArg (atomic update) (funext ih)

theorem mapError_lift (g : ε → δ) (x : Except ε α) :
    (lift x : Prog β σ ε α).mapError g = lift (x.mapError g) := by
  cases x with
  | error e => rfl
  | ok a => rfl

theorem mapError_readFull (f : ε → δ) (eof : ε) (n : ℕ) :
    (readFull eof n : Prog β σ ε (List β)).mapError f = readFull (f eof) n := by
  induction n with
  | zero => rfl
  | succ n ih =>
    rw [readFull, readFull, mapError_bind, ← ih]
    refine congrArg read (funext fun o ↦ ?_)
    cases o with
    | none => rfl
    | some b => exact mapError_bind f (readFull eof n) _

theorem Reads.mapError {p : Prog β σ ε α} {inp rest : List β} {a : α} (h : Reads p inp a rest)
    (f : ε → δ) :
    Reads (p.mapError f) inp a rest := by
  intro s
  rw [run_mapError, h s]
  rfl

theorem Fails.mapError {p : Prog β σ ε α} {inp rest : List β} {e : ε} (h : Fails p inp e rest)
    (f : ε → δ) :
    Fails (p.mapError f) inp (f e) rest := by
  intro s
  rw [run_mapError, h s]
  rfl

/-! ## Programs that only write -/

/-- The program writes `out` and does nothing else. -/
def Writes (p : Prog β σ ε Unit) (out : List β) : Prop :=
  ∀ s inp, p.run s inp = ⟨.ok (), s, inp, out⟩

theorem writes_writeAll (bs : List β) : Writes (writeAll bs : Prog β σ ε Unit) bs := by
  intro s inp
  induction bs with
  | nil => rfl
  | cons b bs ih => rw [writeAll, run, ih]; rfl

theorem writeAll_append (bs cs : List β) :
    (writeAll (bs ++ cs) : Prog β σ ε Unit) = (do writeAll bs; writeAll cs) := by
  induction bs with
  | nil => rfl
  | cons b bs ih =>
    rw [List.cons_append, writeAll, ih]
    rfl

theorem Writes.bind {p q : Prog β σ ε Unit} {out out' : List β} (hp : Writes p out)
    (hq : Writes q out') : Writes (do p; q) (out ++ out') := by
  intro s inp
  rw [run_bind_ok (hp s inp), hq s inp]
  rfl

/-! ## Running step by step -/

/-- One step of a program on the state `s` and the symbols `inp` that have arrived, which may
write `out`.  At the end of what has arrived, the program waits unless the stream is `closed`. -/
inductive Step (closed : Prop) : Prog β σ ε α → σ → List β → Prog β σ ε α → σ → List β →
    List β → Prop where
  | read (next : Option β → Prog β σ ε α) (s : σ) (b : β) (inp : List β) :
      Step closed (read next) s (b :: inp) (next (some b)) s inp []
  | eof (next : Option β → Prog β σ ε α) (s : σ) (h : closed) :
      Step closed (read next) s [] (next none) s [] []
  | write (b : β) (next : Prog β σ ε α) (s : σ) (inp : List β) :
      Step closed (write b next) s inp next s inp [b]
  | atomic (update : σ → σ) (next : σ → Prog β σ ε α) (s : σ) (inp : List β) :
      Step closed (atomic update next) s inp (next s) (update s) inp []

/-- A step leaves the rest of the run to do, whatever else arrives. -/
theorem run_of_step {closed : Prop} {p p' : Prog β σ ε α} {s s' : σ} {inp inp' out : List β}
    (h : Step closed p s inp p' s' inp' out) {more : List β} (hmore : closed → more = []) :
    p.run s (inp ++ more) = (p'.run s' (inp' ++ more)).prepend out := by
  cases h with
  | read => rfl
  | eof _ _ hclosed => rw [hmore hclosed]; rfl
  | write => rfl
  | atomic => rfl

/-- A step takes symbols only from the front of what has arrived. -/
theorem suffix_of_step {closed : Prop} {p p' : Prog β σ ε α} {s s' : σ} {inp inp' out : List β}
    (h : Step closed p s inp p' s' inp' out) : ∃ taken, inp = taken ++ inp' := by
  cases h with
  | read _ _ b => exact ⟨[b], rfl⟩
  | eof => exact ⟨[], rfl⟩
  | write => exact ⟨[], rfl⟩
  | atomic => exact ⟨[], rfl⟩

/-- A step of a sequence is a step of its first part, or of the second when the first has
returned. -/
theorem step_bind {closed : Prop} {p : Prog β σ ε α} {f : α → Prog β σ ε γ} {q : Prog β σ ε γ}
    {s s' : σ} {inp inp' out : List β} (h : Step closed (p >>= f) s inp q s' inp' out) :
    (∃ p', Step closed p s inp p' s' inp' out ∧ q = p' >>= f) ∨
      ∃ a, p = ret a ∧ Step closed (f a) s inp q s' inp' out := by
  rw [bind_def] at h
  cases p with
  | ret a => exact .inr ⟨a, rfl, h⟩
  | raise e => cases h
  | read next =>
    cases h with
    | read _ _ b => exact .inl ⟨next (some b), .read _ _ _ _, rfl⟩
    | eof _ _ hclosed => exact .inl ⟨next none, .eof _ _ hclosed, rfl⟩
  | write b next =>
    cases h
    exact .inl ⟨next, .write _ _ _ _, rfl⟩
  | atomic update next =>
    cases h
    exact .inl ⟨next s, .atomic _ _ _ _, rfl⟩

theorem Step.bind {closed : Prop} {p p' : Prog β σ ε α} {s s' : σ} {inp inp' out : List β}
    (h : Step closed p s inp p' s' inp' out) (f : α → Prog β σ ε γ) :
    Step closed (p >>= f) s inp (p' >>= f) s' inp' out := by
  cases h with
  | read => exact .read _ _ _ _
  | eof _ _ hclosed => exact .eof _ _ hclosed
  | write => exact .write _ _ _ _
  | atomic => exact .atomic _ _ _ _

/-- A program that returns whatever else arrives can move, or has returned already. -/
theorem exists_step [Nonempty β] (closed : Prop) {p : Prog β σ ε α} {s s' : σ} {inp out : List β}
    {a : α} (hrun : ∀ more, p.run s (inp ++ more) = ⟨.ok a, s', more, out⟩) :
    p = ret a ∧ inp = [] ∨ ∃ p' s' inp' out', Step closed p s inp p' s' inp' out' := by
  rcases p with a' | e | next | ⟨b, next⟩ | ⟨update, next⟩
  · have hend := hrun []
    obtain rfl := Except.ok.inj (congrArg Outcome.result hend)
    exact .inl ⟨rfl, (List.append_eq_nil_iff.1 (congrArg Outcome.rest hend)).1⟩
  · exact nomatch congrArg Outcome.result (hrun [])
  · rcases inp with _ | ⟨b, inp⟩
    · obtain ⟨b⟩ := ‹Nonempty β›
      have hle := length_rest_le (next (some b)) s []
      have hrest : ((next (some b)).run s []).rest = [b] := congrArg Outcome.rest (hrun [b])
      rw [hrest] at hle
      exact absurd hle (by simp)
    · exact .inr ⟨_, _, _, _, .read _ _ _ _⟩
  · exact .inr ⟨_, _, _, _, .write _ _ _ _⟩
  · exact .inr ⟨_, _, _, _, .atomic _ _ _ _⟩

/-! ## Programs that do nothing but read -/

/-- The program neither writes nor touches the state. -/
def ReadOnly : Prog β σ ε α → Prop
  | ret _ => True
  | raise _ => True
  | read next => ∀ o, (next o).ReadOnly
  | write _ _ => False
  | atomic _ _ => False

/-- The result and the symbols left do not depend on the state, which stays as it is. -/
theorem ReadOnly.run_eq {p : Prog β σ ε α} (hp : p.ReadOnly) (s t : σ) (inp : List β) :
    p.run s inp = ⟨(p.run t inp).result, s, (p.run t inp).rest, []⟩ := by
  induction p generalizing inp with
  | ret a => rfl
  | raise e => rfl
  | read next ih =>
    rcases inp with _ | ⟨b, inp⟩
    · exact ih none (hp none) []
    · exact ih (some b) (hp (some b)) inp
  | write b next => exact hp.elim
  | atomic update next => exact hp.elim

theorem ReadOnly.bind {p : Prog β σ ε α} {f : α → Prog β σ ε γ} (hp : p.ReadOnly)
    (hf : ∀ a, (f a).ReadOnly) : (p >>= f).ReadOnly := by
  rw [bind_def]
  induction p with
  | ret a => exact hf a
  | raise e => trivial
  | read next ih => exact fun o ↦ ih o (hp o)
  | write b next => exact hp.elim
  | atomic update next => exact hp.elim

theorem ReadOnly.handle {p : Prog β σ ε α} {f : ε → Prog β σ ε α} (hp : p.ReadOnly)
    (hf : ∀ e, (f e).ReadOnly) : (tryCatch p f).ReadOnly := by
  change (p.handle f).ReadOnly
  induction p with
  | ret a => trivial
  | raise e => exact hf e
  | read next ih => exact fun o ↦ ih o (hp o)
  | write b next => exact hp.elim
  | atomic update next => exact hp.elim

/-! ## Programs that throw at the end of the stream -/

/-- The program does not return. -/
def Throws : Prog β σ ε α → Prop
  | ret _ => False
  | raise _ => True
  | read next => ∀ o, (next o).Throws
  | write _ next => next.Throws
  | atomic _ next => ∀ s, (next s).Throws

/-- The program does not return once it has seen the end of the stream. -/
def Strict : Prog β σ ε α → Prop
  | ret _ => True
  | raise _ => True
  | read next => (∀ o, (next o).Strict) ∧ (next none).Throws
  | write _ next => next.Strict
  | atomic _ next => ∀ s, (next s).Strict

theorem Throws.result_ne_ok {p : Prog β σ ε α} (hp : p.Throws) (s : σ) (inp : List β) (a : α) :
    (p.run s inp).result ≠ .ok a := by
  induction p generalizing s inp with
  | ret a => exact hp.elim
  | raise e => exact fun h ↦ nomatch h
  | read next ih =>
    rcases inp with _ | ⟨b, inp⟩
    · exact ih none (hp none) s []
    · exact ih (some b) (hp (some b)) s inp
  | write b next ih => exact ih hp s inp
  | atomic update next ih => exact ih s (hp s) (update s) inp

theorem Throws.bind {p : Prog β σ ε α} (hp : p.Throws) (f : α → Prog β σ ε γ) :
    (p.bind f).Throws := by
  induction p with
  | ret a => exact hp.elim
  | raise e => trivial
  | read next ih => exact fun o ↦ ih o (hp o)
  | write b next ih => exact ih hp
  | atomic update next ih => exact fun s ↦ ih s (hp s)

theorem Throws.handle {p : Prog β σ ε α} {f : ε → Prog β σ ε α} (hp : p.Throws)
    (hf : ∀ e, (f e).Throws) : (p.handle f).Throws := by
  induction p with
  | ret a => exact hp.elim
  | raise e => exact hf e
  | read next ih => exact fun o ↦ ih o (hp o)
  | write b next ih => exact ih hp
  | atomic update next ih => exact fun s ↦ ih s (hp s)

theorem Throws.strict {p : Prog β σ ε α} (hp : p.Throws) : p.Strict := by
  induction p with
  | ret a => trivial
  | raise e => trivial
  | read next ih => exact ⟨fun o ↦ ih o (hp o), hp none⟩
  | write b next ih => exact ih hp
  | atomic update next ih => exact fun s ↦ ih s (hp s)

theorem Strict.bind {p : Prog β σ ε α} {f : α → Prog β σ ε γ} (hp : p.Strict)
    (hf : ∀ a, (f a).Strict) : (p >>= f).Strict := by
  rw [bind_def]
  induction p with
  | ret a => exact hf a
  | raise e => trivial
  | read next ih => exact ⟨fun o ↦ ih o (hp.1 o), hp.2.bind f⟩
  | write b next ih => exact ih hp
  | atomic update next ih => exact fun s ↦ ih s (hp s)

/-- A handler that throws again keeps a program strict. -/
theorem Strict.handle {p : Prog β σ ε α} {f : ε → Prog β σ ε α} (hp : p.Strict)
    (hf : ∀ e, (f e).Throws) : (tryCatch p f).Strict := by
  change (p.handle f).Strict
  induction p with
  | ret a => trivial
  | raise e => exact (hf e).strict
  | read next ih => exact ⟨fun o ↦ ih o (hp.1 o), hp.2.handle hf⟩
  | write b next ih => exact ih hp
  | atomic update next ih => exact fun s ↦ ih s (hp s)

/-- A strict program that begins by reading has read something when it returns. -/
theorem Strict.length_rest_lt {next : Option β → Prog β σ ε α} (hp : (read next).Strict) {s : σ}
    {inp : List β} {a : α} (h : ((read next).run s inp).result = .ok a) :
    ((read next).run s inp).rest.length < inp.length := by
  rcases inp with _ | ⟨b, inp⟩
  · exact absurd h (hp.2.result_ne_ok s [] a)
  · exact Nat.lt_succ_of_le (length_rest_le (next (some b)) s inp)

/-- What a strict program returns does not depend on what comes after the symbols it read. -/
theorem Strict.run_append {p : Prog β σ ε α} (hp : p.Strict) {s s' : σ} {inp rest out : List β}
    {a : α} (h : p.run s inp = ⟨.ok a, s', rest, out⟩) (more : List β) :
    p.run s (inp ++ more) = ⟨.ok a, s', rest ++ more, out⟩ := by
  induction p generalizing s inp out with
  | ret a' => cases h; rfl
  | raise e => cases h
  | read next ih =>
    rcases inp with _ | ⟨b, inp⟩
    · exact absurd (congrArg Outcome.result h) (hp.2.result_ne_ok s [] a)
    · exact ih (some b) (hp.1 (some b)) h
  | write b next ih =>
    simp only [run, Outcome.prepend] at h ⊢
    rcases hn : next.run s inp with ⟨result, state, rest', out'⟩
    rw [hn] at h
    cases h
    rw [ih hp hn]
  | atomic update next ih => exact ih s (hp s) h

/-! ## Readers -/

/-- A program that only reads, and throws at the end of the stream. -/
structure Reader (p : Prog β σ ε α) : Prop where
  readOnly : p.ReadOnly
  strict : p.Strict

/-- A step of a reader is a step on any state, and leaves a reader. -/
theorem Reader.step {closed : Prop} {p p' : Prog β σ ε α} {s s' : σ} {inp inp' out : List β}
    (hp : Reader p) (h : Step closed p s inp p' s' inp' out) :
    s' = s ∧ out = [] ∧ Reader p' ∧ ∀ t, Step closed p t inp p' t inp' [] := by
  cases h with
  | read => exact ⟨rfl, rfl, ⟨hp.readOnly _, hp.strict.1 _⟩, fun t ↦ .read _ t _ _⟩
  | eof _ _ hclosed =>
    exact ⟨rfl, rfl, ⟨hp.readOnly _, hp.strict.1 _⟩, fun t ↦ .eof _ t hclosed⟩
  | write => exact hp.readOnly.elim
  | atomic => exact hp.readOnly.elim

/-- As long as the stream is open, a step of a reader takes a symbol off it. -/
theorem Reader.length_lt_of_step {closed : Prop} {p p' : Prog β σ ε α} {s s' : σ}
    {inp inp' out : List β} (hp : Reader p) (h : Step closed p s inp p' s' inp' out)
    (hopen : ¬ closed) : inp'.length < inp.length := by
  cases h with
  | read => exact Nat.lt_succ_self _
  | eof _ _ hclosed => exact absurd hclosed hopen
  | write => exact hp.readOnly.elim
  | atomic => exact hp.readOnly.elim

theorem reader_pure (a : α) : Reader (pure a : Prog β σ ε α) := ⟨trivial, trivial⟩

theorem reader_throw (e : ε) : Reader (throw e : Prog β σ ε α) := ⟨trivial, trivial⟩

theorem reader_lift (x : Except ε α) : Reader (lift x : Prog β σ ε α) := by
  rcases x with e | a
  · exact reader_throw e
  · exact reader_pure a

theorem Reader.bind {p : Prog β σ ε α} {f : α → Prog β σ ε γ} (hp : Reader p)
    (hf : ∀ a, Reader (f a)) : Reader (p >>= f) :=
  ⟨hp.readOnly.bind fun a ↦ (hf a).readOnly, hp.strict.bind fun a ↦ (hf a).strict⟩

/-- Replacing every exception by another. -/
theorem Reader.rethrow {p : Prog β σ ε α} (hp : Reader p) (e : ε) :
    Reader (tryCatch p fun _ ↦ throw e) :=
  ⟨hp.readOnly.handle fun _ ↦ trivial, hp.strict.handle fun _ ↦ trivial⟩

theorem Reader.ite {c : Prop} [Decidable c] {p q : Prog β σ ε α} (hp : Reader p)
    (hq : Reader q) : Reader (if c then p else q) := by
  split
  · exact hp
  · exact hq

theorem reader_readOne (eof : ε) : Reader (readOne eof : Prog β σ ε β) := by
  refine ⟨fun o ↦ ?_, fun o ↦ ?_, trivial⟩
  · cases o <;> trivial
  · cases o <;> trivial

theorem reader_readFull (eof : ε) (n : ℕ) : Reader (readFull eof n : Prog β σ ε (List β)) := by
  induction n with
  | zero => exact reader_pure []
  | succ n ih => exact (reader_readOne eof).bind fun b ↦ ih.bind fun bs ↦ reader_pure _

end Prog
end Lib
end ManyTasks
