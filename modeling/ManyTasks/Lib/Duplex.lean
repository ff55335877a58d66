import ManyTasks.Lib.Interaction
import ManyTasks.Lib.Transition
import Mathlib.Data.List.Infix
import Mathlib.Order.GameAdd

/-!
# Two programs on a connection

A connection is two streams of symbols, one in each direction.  A program at one end of it reads
pieces of one stream, which are as long as they happen to be, and writes to the other; what else it
asks for is in `X`, and `answers` says how this is answered.

* `Alone` is a program with all that it will be sent before it.  It is used to find out what a
  program does: there is no schedule, and the only choice of the environment is how the stream is
  cut.
* `Duplex` is two programs, each with what has arrived and has not been read.  A program waits
  when it reads and nothing is there.

`Duplex.inevitable` is the way from the first to the second.  If each program alone, on what the
other one writes alone, comes to its end and has read everything, then together they do so too, on
every schedule.  For them not to wait for each other, the left one must have written everything when
it reads for the first time.
-/

set_option autoImplicit false

namespace ManyTasks
namespace Lib

open Proc

/-- What is asked of a connection, and what else is asked. -/
inductive ConnOp (β X : Type) where
  /-- Read a piece that is not longer than this. -/
  | read (size : ℕ)
  | write (buf : List β)
  | closeWrite
  | ext (x : X)

/-- The answers; the operations of the connection may throw. -/
def ConnRes {β X : Type} (ε : Type) (Res : X → Type) : ConnOp β X → Type
  | .read _ => Except ε (List β)
  | .write _ => Except ε Unit
  | .closeWrite => Except ε Unit
  | .ext x => Res x

/-- A program at one end of a connection. -/
abbrev ConnProc (β ε : Type) {X : Type} (Res : X → Type) : Type → Type :=
  Proc (ConnOp β X) (ConnRes ε Res)

namespace ConnProc

variable {β ε X : Type} {Res : X → Type}

def read (size : ℕ) : ExceptT ε (ConnProc β ε Res) (List β) :=
  ExceptT.mk (ask (.read size : ConnOp β X))

def write (buf : List β) : ExceptT ε (ConnProc β ε Res) Unit :=
  ExceptT.mk (ask (.write buf : ConnOp β X))

def closeWrite : ExceptT ε (ConnProc β ε Res) Unit :=
  ExceptT.mk (ask (.closeWrite : ConnOp β X))

def ext (x : X) : ConnProc β ε Res (Res x) :=
  ask (.ext x : ConnOp β X)

end ConnProc

/-! ## A program alone -/

/-- A program's view of the connection. -/
structure Solo (β σ : Type) where
  /-- What it will be sent. -/
  inp : List β
  /-- The stream ends after that. -/
  ended : Bool
  /-- How much it has read. -/
  taken : ℕ
  /-- What it has written, and how much it had read before. -/
  sent : List (ℕ × List β)
  closed : Bool
  ext : σ

namespace Solo

variable {β σ : Type}

/-- All that has been written. -/
def out (s : Solo β σ) : List β := s.sent.flatMap Prod.snd

/-- So much has been read. -/
def skip (n : ℕ) (s : Solo β σ) : Solo β σ := { s with inp := s.inp.drop n, taken := s.taken + n }

/-- This has been written. -/
def send (buf : List β) (s : Solo β σ) : Solo β σ := { s with sent := s.sent ++ [(s.taken, buf)] }

/-- No more is written. -/
def close (s : Solo β σ) : Solo β σ := { s with closed := true }

theorem out_send (buf : List β) (s : Solo β σ) : (s.send buf).out = s.out ++ buf := by
  rw [out, send, List.flatMap_append, List.flatMap_singleton, out]

@[simp] theorem out_close (s : Solo β σ) : s.close.out = s.out := rfl

@[simp] theorem inp_skip (n : ℕ) (s : Solo β σ) : (s.skip n).inp = s.inp.drop n := rfl

theorem inp_skip_cons {b : β} {rest : List β} {s : Solo β σ} (h : s.inp = b :: rest) :
    (s.skip 1).inp = rest := by
  rw [inp_skip, h, List.drop_one, List.tail_cons]

theorem inp_skip_append {n : ℕ} {bs rest : List β} {s : Solo β σ} (h : s.inp = bs ++ rest)
    (hn : bs.length = n) : (s.skip n).inp = rest := by
  rw [inp_skip, h, List.drop_left' hn]

/-- These have been written. -/
def sendAll (bufs : List (List β)) (s : Solo β σ) : Solo β σ :=
  { s with sent := s.sent ++ bufs.map fun buf ↦ (s.taken, buf) }

theorem sendAll_nil (s : Solo β σ) : s.sendAll [] = s := by
  rw [sendAll, List.map_nil, List.append_nil]

theorem sendAll_cons (buf : List β) (bufs : List (List β)) (s : Solo β σ) :
    s.sendAll (buf :: bufs) = (s.send buf).sendAll bufs := by
  simp only [sendAll, send, List.map_cons, List.append_assoc, List.singleton_append]

theorem out_sendAll (bufs : List (List β)) (s : Solo β σ) :
    (s.sendAll bufs).out = s.out ++ bufs.flatten := by
  rw [out, sendAll, List.flatMap_append, List.flatMap_map, out, List.flatMap_id']

theorem skip_skip (m n : ℕ) (s : Solo β σ) : (s.skip m).skip n = s.skip (m + n) := by
  simp only [skip, List.drop_drop, Nat.add_assoc]

end Solo

section Alone

variable {β ε X σ α : Type} {Res : X → Type} (answers : σ → (x : X) → Res x → σ → Prop)
  (ready : List β → Prop)

/-- The environment of a program alone.  It is let read when it is `ready`, after what it has
written. -/
inductive Alone : Solo β σ → (op : ConnOp β X) → ConnRes ε Res op → Solo β σ → Prop
  | read {s : Solo β σ} {size : ℕ} {piece rest : List β} (hready : ready s.out)
      (hinp : s.inp = piece ++ rest)
      (hle : piece.length ≤ size) (hne : piece ≠ [] ∨ size = 0) :
      Alone s (.read size) (.ok piece) (s.skip piece.length)
  | eof {s : Solo β σ} {size : ℕ} (hready : ready s.out) (hinp : s.inp = [])
      (hended : s.ended = true) :
      Alone s (.read size) (.ok []) s
  | write {s : Solo β σ} {buf : List β} (hopen : s.closed = false) :
      Alone s (.write buf) (.ok ()) (s.send buf)
  | closeWrite {s : Solo β σ} : Alone s .closeWrite (.ok ()) s.close
  | ext {s : Solo β σ} {x : X} {r : Res x} {ext' : σ} (h : answers s.ext x r ext') :
      Alone s (.ext x) r { s with ext := ext' }

variable {answers ready}

theorem yields_write {buf : List β} {s : Solo β σ} (hopen : s.closed = false) :
    Yields (Alone (ε := ε) answers ready) (ConnProc.write buf).run s (.ok ()) (s.send buf) :=
  yields_ask (.write hopen) fun r s' h ↦ by
    cases h
    exact ⟨rfl, rfl⟩

/-- What follows a write. -/
theorem ends_write {γ : Type} {Q : Except ε γ → Solo β σ → Prop}
    {f : Unit → ExceptT ε (ConnProc β ε Res) γ}
    {buf : List β} {s : Solo β σ} (hopen : s.closed = false) :
    Ends (Alone answers ready) Q (ConnProc.write buf >>= f).run s
      ↔ Ends (Alone answers ready) Q (f ()).run (s.send buf) :=
  (yields_write hopen).bind

theorem yields_closeWrite {s : Solo β σ} :
    Yields (Alone (ε := ε) answers ready) (ConnProc.closeWrite).run s (.ok ()) s.close :=
  yields_ask .closeWrite fun r s' h ↦ by
    cases h
    exact ⟨rfl, rfl⟩

/-- A program that ends can end: it writes more, but not after the stream has been closed. -/
theorem exists_end {Q : α → Solo β σ → Prop} {p : ConnProc β ε Res α} {s : Solo β σ}
    (h : Ends (Alone answers ready) Q p s) :
    ∃ a s', Q a s' ∧ s.out <+: s'.out ∧ (s.closed = true → s'.out = s.out) := by
  induction p generalizing s with
  | ret a => exact ⟨a, s, h, List.prefix_rfl, fun _ ↦ rfl⟩
  | act op next ih =>
    obtain ⟨⟨r, s₁, hr⟩, hnext⟩ := h
    obtain ⟨a, s', hQ, hstart, hclosed⟩ := ih r (hnext r s₁ hr)
    refine ⟨a, s', hQ, ?_, ?_⟩
    · cases hr with
      | write => exact (List.prefix_append _ _).trans (Solo.out_send _ s ▸ hstart)
      | _ => exact hstart
    · cases hr with
      | write hopen => exact fun hc ↦ absurd (hc.symm.trans hopen) (by decide)
      | closeWrite => exact fun _ ↦ hclosed rfl
      | _ => exact hclosed

/-- After the stream has been closed a program that ends can end, and it is still closed. -/
theorem exists_end_closed {Q : α → Solo β σ → Prop} {p : ConnProc β ε Res α} {s : Solo β σ}
    (h : Ends (Alone answers ready) Q p s) (hclosed : s.closed = true) :
    ∃ a s', Q a s' ∧ s'.closed = true := by
  induction p generalizing s with
  | ret a => exact ⟨a, s, h, hclosed⟩
  | act op next ih =>
    obtain ⟨⟨r, s₁, hr⟩, hnext⟩ := h
    refine ih r (hnext r s₁ hr) ?_
    cases hr with
    | closeWrite => rfl
    | _ => exact hclosed

/-- A program that leaves the stream open comes to the same in every environment that differs only
in what happens when the stream is closed, and after that. -/
theorem ends_of_open {env : Solo β σ → (op : ConnOp β X) → ConnRes ε Res op → Solo β σ → Prop}
    {Q : α → Solo β σ → Prop} {p : ConnProc β ε Res α} {s : Solo β σ}
    (h : Ends (Alone answers ready) Q p s) (hopen : s.closed = false)
    (hQ : ∀ a s', Q a s' → s'.closed = false)
    (henv : ∀ (t : Solo β σ) (op : ConnOp β X) (r : ConnRes ε Res op) (t' : Solo β σ),
      t.closed = false → op ≠ .closeWrite → (env t op r t' ↔ Alone answers ready t op r t')) :
    Ends env Q p s := by
  induction p generalizing s with
  | ret a => exact h
  | act op next ih =>
    have hop : op ≠ .closeWrite := by
      rintro rfl
      obtain ⟨a, s', hend, hclosed⟩ := exists_end_closed (h.2 _ _ .closeWrite) rfl
      rw [hQ a s' hend] at hclosed
      cases hclosed
    obtain ⟨⟨r, s₁, hr⟩, hnext⟩ := h
    refine ⟨⟨r, s₁, (henv s op r s₁ hopen hop).2 hr⟩, fun r' s' hr' ↦ ?_⟩
    have halone := (henv s op r' s' hopen hop).1 hr'
    refine ih r' (hnext r' s' halone) ?_
    cases halone with
    | closeWrite => exact absurd rfl hop
    | _ => exact hopen

end Alone

/-! ## A program at its end of a connection -/

/-- One end of a connection. -/
structure Port (β σ : Type) where
  /-- What has arrived and has not been read. -/
  inp : List β
  closed : Bool
  ext : σ

namespace Port

variable {β σ : Type}

/-- This arrives. -/
def arrive (sent : List β) (c : Port β σ) : Port β σ := { c with inp := c.inp ++ sent }

end Port

section Served

variable {β ε X σ α : Type} {Res : X → Type} (answers : σ → (x : X) → Res x → σ → Prop)

/-- An operation at one end, which may send something.  At the end of what has arrived a read waits,
unless the peer has closed its side. -/
inductive Served (peerClosed : Bool) (c : Port β σ) :
    (op : ConnOp β X) → ConnRes ε Res op → Port β σ → List β → Prop
  | read {size : ℕ} {piece rest : List β} (hinp : c.inp = piece ++ rest) (hle : piece.length ≤ size)
      (hne : piece ≠ [] ∨ size = 0) :
      Served peerClosed c (.read size) (.ok piece) { c with inp := rest } []
  | eof {size : ℕ} (hinp : c.inp = []) (hpeer : peerClosed = true) :
      Served peerClosed c (.read size) (.ok []) c []
  | write {buf : List β} (hopen : c.closed = false) :
      Served peerClosed c (.write buf) (.ok ()) c buf
  | closeWrite : Served peerClosed c .closeWrite (.ok ()) { c with closed := true } []
  | ext {x : X} {r : Res x} {ext' : σ} (h : answers c.ext x r ext') :
      Served peerClosed c (.ext x) r { c with ext := ext' } []

/-- At its end `c` the program is where it would be alone if `more` were still to come; it has
written `out`. -/
def Fits (ready : List β → Prop) (Q : α → Solo β σ → Prop) (p : ConnProc β ε Res α) (c : Port β σ)
    (more out : List β) : Prop :=
  ∃ s : Solo β σ, Ends (Alone answers ready) Q p s ∧ s.inp = c.inp ++ more ∧ s.ended = false
    ∧ s.closed = c.closed ∧ s.ext = c.ext ∧ s.out = out

variable {answers} {ready : List β → Prop} {Q : α → Solo β σ → Prop} {p : ConnProc β ε Res α}
    {c c' : Port β σ}
  {more out sent : List β} {peerClosed : Bool} {op : ConnOp β X} {r : ConnRes ε Res op}
  {next : ConnRes ε Res op → ConnProc β ε Res α}

/-- What a program does at its end it does alone. -/
theorem Fits.served (hfits : Fits answers ready Q (act op next) c more out)
    (hpeer : peerClosed = true → more = []) (h : Served answers peerClosed c op r c' sent) :
    Fits answers ready Q (next r) c' more (out ++ sent) := by
  obtain ⟨s, ⟨⟨_, _, hr⟩, hnext⟩, hinp, hended, hclosed, hext, rfl⟩ := hfits
  cases h with
  | read hpiece hle hne =>
    have hready : ready s.out := by
      cases hr with
      | read hready => exact hready
      | eof hready => exact hready
    rw [hpiece, List.append_assoc] at hinp
    refine ⟨_, hnext _ _ (.read hready hinp hle hne), ?_, hended, hclosed, hext,
      (List.append_nil _).symm⟩
    rw [Solo.inp_skip, hinp, List.drop_left]
  | eof hempty hclosed' =>
    have hnil : s.inp = [] := by rw [hinp, hempty, hpeer hclosed', List.append_nil]
    -- Alone there is nothing to be read either, so the program has asked for nothing.
    cases hr with
    | read hready hpiece hle hne =>
      obtain ⟨rfl, -⟩ := List.append_eq_nil_iff.1 (hpiece.symm.trans hnil)
      have hpiece' : s.inp = [] ++ [] := hnil
      refine ⟨_, hnext _ _ (.read hready hpiece' hle hne), ?_, hended, hclosed, hext,
        (List.append_nil _).symm⟩
      rw [Solo.inp_skip, hnil, hempty, hpeer hclosed']
      rfl
    | eof _ _ hended' => exact absurd (hended'.symm.trans hended) (by decide)
  | write hopen =>
    exact ⟨_, hnext _ _ (.write (hclosed.trans hopen)), hinp, hended, hclosed, hext,
      Solo.out_send _ s⟩
  | closeWrite =>
      exact ⟨_, hnext _ _ .closeWrite, hinp, hended, rfl, hext, (List.append_nil _).symm⟩
  | ext h =>
    rw [← hext] at h
    exact ⟨_, hnext _ _ (.ext h), hinp, hended, hclosed, rfl, (List.append_nil _).symm⟩

/-- A program that does not go on is ready and waits for what is still to come. -/
theorem Fits.served_or_waits (hfits : Fits answers ready Q (act op next) c more out)
    (peerClosed : Bool) :
    (∃ (r : ConnRes ε Res op) (c' : Port β σ) (sent : List β),
      Served answers peerClosed c op r c' sent)
      ∨ (ready out ∧ c.inp = [] ∧ more ≠ []) := by
  obtain ⟨s, ⟨⟨r, _, hr⟩, _⟩, hinp, hended, hclosed, hext, rfl⟩ := hfits
  cases hr with
  | @read size piece rest hready hpiece hle hne =>
    rcases hport : c.inp with _ | ⟨b, bs⟩
    · by_cases hmore : more = []
      · have hnil : s.inp = [] := by rw [hinp, hport, hmore, List.append_nil]
        obtain ⟨rfl, -⟩ := List.append_eq_nil_iff.1 (hpiece.symm.trans hnil)
        exact Or.inl ⟨_, _, _, .read (List.nil_append _).symm hle hne⟩
      · exact Or.inr ⟨hready, rfl, hmore⟩
    · by_cases hsize : size = 0
      · exact Or.inl ⟨_, _, _, .read (List.nil_append _).symm (Nat.zero_le _) (Or.inr hsize)⟩
      · have hone : [b].length ≤ size := Nat.one_le_iff_ne_zero.2 hsize
        have hcut : c.inp = [b] ++ bs := hport
        exact Or.inl ⟨_, _, _, .read hcut hone (Or.inl (List.cons_ne_nil _ _))⟩
  | eof hready hempty hended' => exact absurd (hended'.symm.trans hended) (by decide)
  | write hopen => exact Or.inl ⟨_, _, _, .write (hclosed.symm.trans hopen)⟩
  | closeWrite => exact Or.inl ⟨_, _, _, .closeWrite⟩
  | ext h => exact Or.inl ⟨_, _, _, .ext (hext ▸ h)⟩

theorem Fits.out_prefix {goal : List β} (hfits : Fits answers ready Q p c more out)
    (hgoal : ∀ a s, Q a s → s.out = goal) : out <+: goal ∧ (c.closed = true → out = goal) := by
  obtain ⟨s, hends, _, _, hclosed, _, rfl⟩ := hfits
  obtain ⟨a, s', hQ, hstart, hfinal⟩ := exists_end hends
  rw [hgoal a s' hQ] at hstart hfinal
  exact ⟨hstart, fun hc ↦ (hfinal (hclosed.trans hc)).symm⟩

/-- What comes later has come. -/
theorem Fits.arrive (hfits : Fits answers ready Q p c (sent ++ more) out) :
    Fits answers ready Q p (c.arrive sent) more out := by
  obtain ⟨s, hends, hinp, hrest⟩ := hfits
  exact ⟨s, hends, by rw [hinp, Port.arrive, List.append_assoc], hrest⟩

/-- When its side is closed there is nothing more to come from a program. -/
theorem Fits.eq_nil_of_closed {goal rest : List β} (hfits : Fits answers ready Q p c more out)
    (hgoal : ∀ a s, Q a s → s.out = goal) (hout : out ++ rest = goal) (hclosed : c.closed = true) :
    rest = [] := by
  rw [← (hfits.out_prefix hgoal).2 hclosed] at hout
  exact List.append_right_eq_self.1 hout

/-- What is sent is the beginning of what was still to come. -/
theorem Fits.exists_rest {goal rest : List β} (hfits : Fits answers ready Q p c more (out ++ sent))
    (hgoal : ∀ a s, Q a s → s.out = goal) (hout : out ++ rest = goal) :
    ∃ rest', rest = sent ++ rest' ∧ out ++ sent ++ rest' = goal := by
  obtain ⟨rest', hrest'⟩ := (hfits.out_prefix hgoal).1
  refine ⟨rest', List.append_cancel_left (hout.trans ?_), hrest'⟩
  rw [← hrest', List.append_assoc]

end Served

/-! ## Two programs -/

section Duplex

variable {β ε ε' X Y σ τ α γ : Type} {Res : X → Type} {Res' : Y → Type}

/-- Two programs on a connection. -/
structure Duplex (β : Type) {X Y : Type} (ε ε' : Type) (Res : X → Type) (Res' : Y → Type)
    (α γ σ τ : Type) where
  left : ConnProc β ε Res α
  right : ConnProc β ε' Res' γ
  leftPort : Port β σ
  rightPort : Port β τ

namespace Duplex

variable (answers : σ → (x : X) → Res x → σ → Prop) (answers' : τ → (y : Y) → Res' y → τ → Prop)

/-- One of the two programs does an operation. -/
inductive Step (d : Duplex β ε ε' Res Res' α γ σ τ) : Duplex β ε ε' Res Res' α γ σ τ → Prop
  | left {op : ConnOp β X} {next : ConnRes ε Res op → ConnProc β ε Res α} {r : ConnRes ε Res op}
      {c : Port β σ} {sent : List β} (hleft : d.left = act op next)
      (h : Served answers d.rightPort.closed d.leftPort op r c sent) :
      Step d ⟨next r, d.right, c, d.rightPort.arrive sent⟩
  | right {op : ConnOp β Y} {next : ConnRes ε' Res' op → ConnProc β ε' Res' γ}
      {r : ConnRes ε' Res' op}
      {c : Port β τ} {sent : List β} (hright : d.right = act op next)
      (h : Served answers' d.leftPort.closed d.rightPort op r c sent) :
      Step d ⟨d.left, next r, d.leftPort.arrive sent, c⟩

/-- A program alone that has read everything and written this. -/
def Complete {δ ρ : Type} (Q : δ → ρ → Prop) (goal : List β) (a : δ) (s : Solo β ρ) : Prop :=
  Q a s.ext ∧ s.inp = [] ∧ s.out = goal

variable {answers answers'} {Q : α → σ → Prop} {R : γ → τ → Prop} {goal goal' : List β}
  {d d' : Duplex β ε ε' Res Res' α γ σ τ}

variable (answers answers' Q R goal goal') in
/-- Each program is where it would be alone, if it were still sent what the other one has still to
write.  The left one reads only when it has written everything. -/
def Inv (d : Duplex β ε ε' Res Res' α γ σ τ) : Prop :=
  ∃ more more' out out', Fits answers (· = goal) (Complete Q goal) d.left d.leftPort more out
    ∧ Fits answers' (fun _ ↦ True) (Complete R goal') d.right d.rightPort more' out'
    ∧ out' ++ more = goal' ∧ out ++ more' = goal

theorem Inv.step (hinv : Inv answers answers' Q R goal goal' d) (h : Step answers answers' d d') :
    Inv answers answers' Q R goal goal' d' := by
  obtain ⟨more, more', out, out', hl, hr, hout', hout⟩ := hinv
  cases h with
  | left hleft h =>
    rw [hleft] at hl
    have hl' := hl.served (hr.eq_nil_of_closed (fun _ _ hR ↦ hR.2.2) hout') h
    obtain ⟨more₁, rfl, hrest⟩ := hl'.exists_rest (fun _ _ hQ ↦ hQ.2.2) hout
    exact ⟨more, more₁, _, out', hl', hr.arrive, hout', hrest⟩
  | right hright h =>
    rw [hright] at hr
    have hr' := hr.served (hl.eq_nil_of_closed (fun _ _ hQ ↦ hQ.2.2) hout) h
    obtain ⟨more₁, rfl, hrest⟩ := hr'.exists_rest (fun _ _ hR ↦ hR.2.2) hout'
    exact ⟨more₁, more', out, _, hl.arrive, hr', hrest, hout⟩

/-- Both programs have returned and have read all that was written. -/
def Done (Q : α → σ → Prop) (R : γ → τ → Prop) (d : Duplex β ε ε' Res Res' α γ σ τ) : Prop :=
  ∃ a c, d.left = ret a ∧ d.right = ret c ∧ Q a d.leftPort.ext ∧ R c d.rightPort.ext
    ∧ d.leftPort.inp = [] ∧ d.rightPort.inp = []

theorem Fits.ret {ready : List β → Prop} {a : α} {c : Port β σ} {more out : List β}
    (h : Fits (ε := ε) answers ready (Complete Q goal) (ret a) c more out) :
    Q a c.ext ∧ c.inp = [] ∧ more = [] ∧ out = goal := by
  obtain ⟨s, ⟨hQ, hnil, hgoal⟩, hinp, _, _, hext, rfl⟩ := h
  obtain ⟨hinp, hmore⟩ := List.append_eq_nil_iff.1 (hinp.symm.trans hnil)
  exact ⟨hext ▸ hQ, hinp, hmore, hgoal⟩

/-- The two do not wait for each other. -/
theorem Inv.done_or_step (hinv : Inv answers answers' Q R goal goal' d) :
    Done Q R d ∨ ∃ d', Step answers answers' d d' := by
  obtain ⟨more, more', out, out', hl, hr, hout', hout⟩ := hinv
  rcases hleft : d.left with a | ⟨op, next⟩
  · rw [hleft] at hl
    obtain ⟨hQ, hinp, rfl, rfl⟩ := Fits.ret hl
    rcases hright : d.right with c | ⟨op, next⟩
    · rw [hright] at hr
      obtain ⟨hR, hinp', _, _⟩ := Fits.ret hr
      exact Or.inl ⟨a, c, hleft, hright, hQ, hR, hinp, hinp'⟩
    · rw [hright] at hr
      obtain ⟨_, _, _, h⟩ | ⟨_, _, hmore'⟩ := hr.served_or_waits d.leftPort.closed
      · exact Or.inr ⟨_, .right hright h⟩
      · exact absurd (List.append_right_eq_self.1 hout) hmore'
  · rw [hleft] at hl
    obtain ⟨_, _, _, h⟩ | ⟨rfl, _, hmore⟩ := hl.served_or_waits d.rightPort.closed
    · exact Or.inr ⟨_, .left hleft h⟩
    rcases hright : d.right with c | ⟨op', next'⟩
    · rw [hright] at hr
      obtain ⟨_, _, _, rfl⟩ := Fits.ret hr
      exact absurd (List.append_right_eq_self.1 hout') hmore
    · rw [hright] at hr
      obtain ⟨_, _, _, h⟩ | ⟨_, _, hmore'⟩ := hr.served_or_waits d.leftPort.closed
      · exact Or.inr ⟨_, .right hright h⟩
      · exact absurd (List.append_right_eq_self.1 hout) hmore'

/-- The program that has moved has less to do. -/
theorem Step.gameAdd (h : Step answers answers' d d') :
    Prod.GameAdd Child Child (d'.left, d'.right) (d.left, d.right) := by
  cases h with
  | left hleft =>
    rw [hleft]
    exact .fst (.mk _ _ _)
  | right hright =>
    rw [hright]
    exact .snd (.mk _ _ _)

theorem Inv.inevitable (hinv : Inv answers answers' Q R goal goal' d) :
    Inevitable (Step answers answers') (Done Q R) d := by
  have hwf : WellFounded fun d₁ d₂ : Duplex β ε ε' Res Res' α γ σ τ ↦
      Prod.GameAdd Child Child (d₁.left, d₁.right) (d₂.left, d₂.right) :=
    InvImage.wf (fun d : Duplex β ε ε' Res Res' α γ σ τ ↦ (d.left, d.right))
      (wellFounded_child.prod_gameAdd wellFounded_child)
  induction d using hwf.induction with
  | _ d ih =>
    obtain hdone | hstep := hinv.done_or_step
    · exact .now hdone
    · exact .later hstep fun d' h ↦ ih d' h.gameAdd (hinv.step h)

/-- **Together as alone.**  If the left program, sent `goal'`, writes `goal` before it reads, and
the right one, sent `goal`, writes `goal'`, and both have read everything when they return, then
together they return, on every schedule and however the streams are cut, with what they return with
alone, and have read everything. -/
theorem inevitable {p : ConnProc β ε Res α} {q : ConnProc β ε' Res' γ} {x : σ} {y : τ}
    (hp : Ends (Alone answers (· = goal)) (Complete Q goal) p ⟨goal', false, 0, [], false, x⟩)
    (hq : Ends (Alone answers' fun _ ↦ True) (Complete R goal') q ⟨goal, false, 0, [], false, y⟩) :
    Inevitable (Step answers answers') (Done Q R) ⟨p, q, ⟨[], false, x⟩, ⟨[], false, y⟩⟩ := by
  refine Inv.inevitable ⟨goal', goal, [], [], ?_, ?_, rfl, rfl⟩
  · exact ⟨_, hp, rfl, rfl, rfl, rfl, rfl⟩
  · exact ⟨_, hq, rfl, rfl, rfl, rfl, rfl⟩

end Duplex

end Duplex

end Lib
end ManyTasks
