import ManyTasks.Lib.Pipeline
import ManyTasks.Lib.Transition
import Mathlib.Data.List.Infix

/-!
# A chain of tunnels

A proxy copies what comes in on one connection to another one, 256 bytes at a time (`TransferData`),
and so does the balancer.  A client may reach its server through any number of them.

The sockets do not block.  A `Read` that finds nothing, or a `Write` that finds no room, makes its
fiber wait until the `Poller` is told of an event, and an event is reported only once, when
something has changed.  The kernel takes as much of a `Write` as it likes, interrupts system calls,
and moves bytes from the buffer of one end to that of the other when it likes.

Nevertheless all bytes get to the server, in their order, and then the end of the stream, whatever
the order of steps (`tunnel_delivers`): no fiber waits for an event that has been reported already,
and no two of them wait for each other.
-/

set_option autoImplicit false

namespace ManyTasks
namespace Socks
namespace Tunnel

open Function (update update_self update_of_ne)
open Lib.Pipeline

variable {β : Type}

/-! ## The machine -/

/-- Where the fiber is that moves bytes from one connection to the next. -/
inductive Place where
  /-- In the loop of `Read`. -/
  | reading
  /-- In `watcher_.Wait(true)`. -/
  | readWait
  /-- In the loop of `Write`. -/
  | writing
  /-- In `watcher_.Wait(false)`. -/
  | writeWait
  | finished
deriving DecidableEq, Repr

/-- A connection, as far as it is used in one direction. -/
structure Wire where
  /-- `shutdown` has been called. -/
  shut : Bool
  /-- The other end knows it. -/
  fin : Bool
  /-- `epoll_wait` will report `EPOLLIN` to the end that reads. -/
  epollin : Bool
  /-- `epoll_wait` will report `EPOLLOUT` to the end that writes. -/
  epollout : Bool
deriving DecidableEq, Repr

/-- A client, hop 0, the proxies, and a server, the last hop.  Hop `k` writes to wire `k`, and the
next hop reads from it. -/
structure State (β : Type) where
  /-- What is on its way, see `buf`, `snd` and `rcv`. -/
  queue : ℕ → List β
  place : ℕ → Place
  wire : ℕ → Wire
  /-- How often the kernel will still interrupt a system call, or report an event for nothing. -/
  interrupts : ℕ

/-- What hop `k` has read and not written. -/
def State.buf (s : State β) (k : ℕ) : List β := s.queue (3 * k)

/-- The send buffer of wire `k`. -/
def State.snd (s : State β) (k : ℕ) : List β := s.queue (3 * k + 1)

/-- The receive buffer of wire `k`. -/
def State.rcv (s : State β) (k : ℕ) : List β := s.queue (3 * k + 2)

/-- The client writes `data`, and the others read; of the new connections some events are still to
be reported. -/
def start (data : List β) (ins outs : ℕ → Bool) (interrupts : ℕ) : State β where
  queue i := if i = 0 then data else []
  place k := if k = 0 then .writing else .reading
  wire k := ⟨false, false, ins k, outs k⟩
  interrupts := interrupts

/-- The fiber is unparked. -/
def Place.wake : Place → Place
  | .readWait => .reading
  | .writeWait => .writing
  | p => p

theorem Place.wake_of_ne {p : Place} (hread : p ≠ .readWait) (hwrite : p ≠ .writeWait) :
    p.wake = p := by
  cases p <;> first | rfl | contradiction

/-- One step of a fiber, of a `Poller` or of the kernel, with `n` proxies and buffers of `cap`
bytes. -/
inductive Step (n cap : ℕ) : State β → State β → Prop where
  /-- `send` takes a part of the buffer. -/
  | send {s} (k m) (hk : k ≤ n) (hp : s.place k = .writing) (hm : 0 < m)
      (hbuf : m ≤ (s.buf k).length)
      (hroom : (s.snd k).length + m ≤ cap) : Step n cap s { s with queue := move s.queue (3 * k) m }
  /-- `send` fails with `EAGAIN`. -/
  | sendAgain {s} (k) (hk : k ≤ n) (hp : s.place k = .writing) (hbuf : s.buf k ≠ [])
      (hfull : cap ≤ (s.snd k).length) : Step n cap s
        { s with place := update s.place k .writeWait }
  /-- `Write` of a proxy returns. -/
  | written {s} (k) (hk : k < n) (hp : s.place (k + 1) = .writing) (hbuf : s.buf (k + 1) = []) :
      Step n cap s { s with place := update s.place (k + 1) .reading }
  /-- `Write` of the client returns, and it closes its end. -/
  | close {s} (hp : s.place 0 = .writing) (hbuf : s.buf 0 = []) : Step n cap s { s with
      place := update s.place 0 .finished
      wire := update s.wire 0 { s.wire 0 with shut := true } }
  /-- `read` of a proxy returns some bytes, at most as many as go into the buffer. -/
  | read {s} (k m) (hk : k < n) (hp : s.place (k + 1) = .reading) (hm : 0 < m)
      (hrcv : m ≤ (s.rcv k).length) (hsize : m ≤ 256) : Step n cap s { s with
      queue := move s.queue (3 * k + 2) m
      place := update s.place (k + 1) .writing }
  /-- `read` of the server returns some bytes. -/
  | receive {s} (m) (hp : s.place (n + 1) = .reading) (hm : 0 < m) (hrcv : m ≤ (s.rcv n).length) :
      Step n cap s { s with queue := move s.queue (3 * n + 2) m }
  /-- `read` fails with `EAGAIN`. -/
  | readAgain {s} (k) (hk : k ≤ n) (hp : s.place (k + 1) = .reading) (hrcv : s.rcv k = [])
      (hfin : (s.wire k).fin = false) : Step n cap s
        { s with place := update s.place (k + 1) .readWait }
  /-- `read` of a proxy returns 0, and it closes the end it writes to. -/
  | eof {s} (k) (hk : k < n) (hp : s.place (k + 1) = .reading) (hrcv : s.rcv k = [])
      (hfin : (s.wire k).fin = true) : Step n cap s { s with
      place := update s.place (k + 1) .finished
      wire := update s.wire (k + 1) { s.wire (k + 1) with shut := true } }
  /-- `read` of the server returns 0. -/
  | ended {s} (hp : s.place (n + 1) = .reading) (hrcv : s.rcv n = [])
      (hfin : (s.wire n).fin = true) :
      Step n cap s { s with place := update s.place (n + 1) .finished }
  /-- Some bytes get to the other end; if there was no room to write to, there is now. -/
  | deliver {s} (k m) (hk : k ≤ n) (hm : 0 < m) (hsnd : m ≤ (s.snd k).length)
      (hroom : (s.rcv k).length + m ≤ cap) : Step n cap s { s with
      queue := move s.queue (3 * k + 1) m
      wire := update s.wire k { s.wire k with
        epollin := true
        epollout := (s.wire k).epollout || decide (cap ≤ (s.snd k).length) } }
  /-- The end of the stream gets to the other end. -/
  | deliverFin {s} (k) (hk : k ≤ n) (hshut : (s.wire k).shut = true) (hfin : (s.wire k).fin = false)
      (hsnd : s.snd k = []) : Step n cap s
      { s with wire := update s.wire k { s.wire k with fin := true, epollin := true } }
  /-- `Poll` unparks the reader. -/
  | pollIn {s} (k) (hk : k ≤ n) (hin : (s.wire k).epollin = true) : Step n cap s { s with
      place :=
        update s.place (k + 1) (if s.place (k + 1) = .readWait then .reading else s.place (k + 1))
      wire := update s.wire k { s.wire k with epollin := false } }
  /-- `Poll` unparks the writer. -/
  | pollOut {s} (k) (hk : k ≤ n) (hout : (s.wire k).epollout = true) : Step n cap s { s with
      place := update s.place k (if s.place k = .writeWait then .writing else s.place k)
      wire := update s.wire k { s.wire k with epollout := false } }
  /-- A system call fails with `EINTR`, and is made again. -/
  | interrupt {s} (i) (hi : s.interrupts = i + 1) : Step n cap s { s with interrupts := i }
  /-- A fiber is unparked, though nothing has changed for it. -/
  | spurious {s} (k i) (hk : k ≤ n + 1) (hi : s.interrupts = i + 1) :
      Step n cap s { s with place := update s.place k (s.place k).wake, interrupts := i }

/-! ## The measure -/

/-- How much a fiber can do before it waits. -/
def Place.weight : Place → ℕ
  | .reading => 1
  | .writing => 2
  | .readWait | .writeWait | .finished => 0

/-- What is still to happen on a wire. -/
def Wire.weight (w : Wire) : ℕ :=
  (if w.shut then 0 else 8) + (if w.fin then 0 else 8) + (if w.epollin then 3 else 0) +
    (if w.epollout then 3 else 0)

/-- Every step makes it smaller. -/
def State.measure (n : ℕ) (s : State β) : ℕ :=
  8 * distance s.queue (3 * n + 3) + ∑ k ∈ Finset.range (n + 1), (s.wire k).weight +
    ∑ k ∈ Finset.range (n + 2), (s.place k).weight + 3 * s.interrupts

theorem sum_update {A : Type} (w : A → ℕ) (g : ℕ → A) (x : A) {j m : ℕ} (hj : j < m) :
    ∑ k ∈ Finset.range m, w (update g j x k) + w (g j) = ∑ k ∈ Finset.range m, w (g k) + w x := by
  have hmem : j ∈ Finset.range m := Finset.mem_range.mpr hj
  have hother : ∀ k ∈ (Finset.range m).erase j, w (update g j x k) = w (g k) := by
    intro k hk
    rw [update_of_ne (Finset.ne_of_mem_erase hk)]
  rw [← Finset.sum_erase_add _ _ hmem, ← Finset.sum_erase_add _ (fun k ↦ w (g k)) hmem,
    Finset.sum_congr rfl hother, update_self]
  omega

section Measure

variable {n cap : ℕ} {s s' : State β}

@[simp] theorem Place.weight_reading : Place.weight .reading = 1 := rfl

@[simp] theorem Place.weight_writing : Place.weight .writing = 2 := rfl

@[simp] theorem Place.weight_readWait : Place.weight .readWait = 0 := rfl

@[simp] theorem Place.weight_writeWait : Place.weight .writeWait = 0 := rfl

@[simp] theorem Place.weight_finished : Place.weight .finished = 0 := rfl

theorem Place.weight_le (p : Place) : p.weight ≤ 2 := by
  cases p <;> decide

theorem Wire.weight_shut (w : Wire) : Wire.weight { w with shut := true } ≤ w.weight := by
  simp only [Wire.weight, if_true]
  omega

/-- What is reported of a wire is worth less than a byte that gets over it. -/
theorem Wire.weight_report (w : Wire) (i o : Bool) :
    Wire.weight { w with epollin := i, epollout := o } ≤ w.weight + 6 := by
  simp only [Wire.weight]
  split <;> split <;> split <;> split <;> omega

theorem Wire.weight_fin {w : Wire} (hw : w.fin = false) :
    Wire.weight { w with fin := true, epollin := true } < w.weight := by
  simp only [Wire.weight, hw, if_true, Bool.false_eq_true, if_false]
  omega

theorem Wire.weight_epollin {w : Wire} (hw : w.epollin = true) :
    Wire.weight { w with epollin := false } + 3 = w.weight := by
  simp only [Wire.weight, hw, if_true, Bool.false_eq_true, if_false]
  omega

theorem Wire.weight_epollout {w : Wire} (hw : w.epollout = true) :
    Wire.weight { w with epollout := false } + 3 = w.weight := by
  simp only [Wire.weight, hw, if_true, Bool.false_eq_true, if_false, Nat.add_zero]

/-- **Every step makes the measure smaller.** -/
theorem measure_lt (hstep : Step n cap s s') : s'.measure n < s.measure n := by
  cases hstep with
  | send k m hk hp hm hbuf hroom =>
    have hdistance := distance_move (q := s.queue) (i := 3 * k) (n := 3 * n + 3) hbuf (by omega)
    simp only [State.measure]
    omega
  | sendAgain k hk hp hbuf hfull =>
    have hplace := sum_update Place.weight s.place .writeWait (show k < n + 2 by omega)
    simp only [hp, Place.weight_writing, Place.weight_writeWait] at hplace
    simp only [State.measure]
    omega
  | written k hk hp hbuf =>
    have hplace := sum_update Place.weight s.place .reading (show k + 1 < n + 2 by omega)
    simp only [hp, Place.weight_writing, Place.weight_reading] at hplace
    simp only [State.measure]
    omega
  | close hp hbuf =>
    have hplace := sum_update Place.weight s.place .finished (show 0 < n + 2 by omega)
    have hwire := sum_update Wire.weight s.wire { s.wire 0 with shut := true }
        (show 0 < n + 1 by omega)
    dsimp only at hwire
    have hshut := (s.wire 0).weight_shut
    simp only [hp, Place.weight_writing, Place.weight_finished] at hplace
    simp only [State.measure]
    omega
  | read k m hk hp hm hrcv hsize =>
    have hdistance := distance_move (q := s.queue) (i := 3 * k + 2) (n := 3 * n + 3) hrcv (by omega)
    have hplace := sum_update Place.weight s.place .writing (show k + 1 < n + 2 by omega)
    simp only [hp, Place.weight_reading, Place.weight_writing] at hplace
    simp only [State.measure]
    omega
  | receive m hp hm hrcv =>
    have hdistance := distance_move (q := s.queue) (i := 3 * n + 2) (n := 3 * n + 3) hrcv (by omega)
    simp only [State.measure]
    omega
  | readAgain k hk hp hrcv hfin =>
    have hplace := sum_update Place.weight s.place .readWait (show k + 1 < n + 2 by omega)
    simp only [hp, Place.weight_reading, Place.weight_readWait] at hplace
    simp only [State.measure]
    omega
  | eof k hk hp hrcv hfin =>
    have hplace := sum_update Place.weight s.place .finished (show k + 1 < n + 2 by omega)
    have hwire := sum_update Wire.weight s.wire { s.wire (k + 1) with shut := true }
      (show k + 1 < n + 1 by omega)
    dsimp only at hwire
    have hshut := (s.wire (k + 1)).weight_shut
    simp only [hp, Place.weight_reading, Place.weight_finished] at hplace
    simp only [State.measure]
    omega
  | ended hp hrcv hfin =>
    have hplace := sum_update Place.weight s.place .finished (show n + 1 < n + 2 by omega)
    simp only [hp, Place.weight_reading, Place.weight_finished] at hplace
    simp only [State.measure]
    omega
  | deliver k m hk hm hsnd hroom =>
    have hdistance := distance_move (q := s.queue) (i := 3 * k + 1) (n := 3 * n + 3) hsnd (by omega)
    have hwire := sum_update Wire.weight s.wire { s.wire k with
      epollin := true
      epollout := (s.wire k).epollout || decide (cap ≤ (s.snd k).length) } (show k < n + 1 by omega)
    dsimp only at hwire
    have hreport := (s.wire k).weight_report true
      ((s.wire k).epollout || decide (cap ≤ (s.snd k).length))
    simp only [State.measure]
    omega
  | deliverFin k hk hshut hfin hsnd =>
    have hwire := sum_update Wire.weight s.wire { s.wire k with fin := true, epollin := true }
      (show k < n + 1 by omega)
    dsimp only at hwire
    have hlt := Wire.weight_fin hfin
    simp only [State.measure]
    omega
  | pollIn k hk hin =>
    have hwire := sum_update Wire.weight s.wire { s.wire k with epollin := false }
        (show k < n + 1 by omega)
    dsimp only at hwire
    have hevent := Wire.weight_epollin hin
    have hplace := sum_update Place.weight s.place
      (if s.place (k + 1) = .readWait then .reading else s.place (k + 1))
        (show k + 1 < n + 2 by omega)
    have hwoken : (if s.place (k + 1) = .readWait then Place.reading else s.place (k + 1)).weight ≤
        (s.place (k + 1)).weight + 2 := by
      split
      · exact (Place.weight_le _).trans (Nat.le_add_left _ _)
      · exact Nat.le_add_right _ _
    simp only [State.measure]
    omega
  | pollOut k hk hout =>
    have hwire := sum_update Wire.weight s.wire { s.wire k with epollout := false }
        (show k < n + 1 by omega)
    dsimp only at hwire
    have hevent := Wire.weight_epollout hout
    have hplace := sum_update Place.weight s.place
      (if s.place k = .writeWait then .writing else s.place k) (show k < n + 2 by omega)
    have hwoken : (if s.place k = .writeWait then Place.writing else s.place k).weight ≤
        (s.place k).weight + 2 := by
      split
      · exact (Place.weight_le _).trans (Nat.le_add_left _ _)
      · exact Nat.le_add_right _ _
    simp only [State.measure]
    omega
  | interrupt i hi =>
    simp only [State.measure, hi]
    omega
  | spurious k i hk hi =>
    have hplace := sum_update Place.weight s.place (s.place k).wake (show k < n + 2 by omega)
    have hle := Place.weight_le (s.place k).wake
    simp only [State.measure, hi]
    omega

end Measure

/-! ## The invariant -/

/-- What holds in every state.  All the bytes are there, in their order; the end of the stream is
behind them; and who waits, waits for something that will still be reported. -/
structure Inv (n cap : ℕ) (data : List β) (s : State β) : Prop where
  content : flow s.queue (3 * n + 3) = data
  client : s.place 0 ≠ .reading ∧ s.place 0 ≠ .readWait
  server : s.place (n + 1) ≠ .writing ∧ s.place (n + 1) ≠ .writeWait
  empty : ∀ k < n, s.place (k + 1) = .reading ∨ s.place (k + 1) = .readWait → s.buf (k + 1) = []
  shut : ∀ k ≤ n, (s.wire k).shut = true ↔ s.place k = .finished
  finished : ∀ k ≤ n, s.place k = .finished → flow s.queue (3 * k) = []
  fin : ∀ k ≤ n, (s.wire k).fin = true → flow s.queue (3 * k + 1) = []
  received : s.place (n + 1) = .finished → flow s.queue (3 * n + 2) = []
  readWait : ∀ k ≤ n, s.place (k + 1) = .readWait → s.rcv k ≠ [] ∨ (s.wire k).fin = true →
    (s.wire k).epollin = true
  writeWait : ∀ k ≤ n, s.place k = .writeWait → (s.snd k).length < cap → (s.wire k).epollout = true

section Invariant

variable {n cap : ℕ} {data : List β} {s s' : State β}

/-- A fiber goes to another place, and is neither done before nor after it. -/
theorem Inv.setPlace (h : Inv n cap data s) {j : ℕ} {p : Place} (hj : s.place j ≠ .finished)
    (hp : p ≠ .finished) (hclient : j = 0 → p ≠ .reading ∧ p ≠ .readWait)
    (hserver : j = n + 1 → p ≠ .writing ∧ p ≠ .writeWait)
    (hempty : ∀ k < n, j = k + 1 → p = .reading ∨ p = .readWait → s.buf j = [])
    (hread : ∀ k ≤ n, j = k + 1 → p = .readWait → s.rcv k ≠ [] ∨ (s.wire k).fin = true →
      (s.wire k).epollin = true)
    (hwrite : p = .writeWait → (s.snd j).length < cap → (s.wire j).epollout = true) :
    Inv n cap data { s with place := update s.place j p } where
  content := h.content
  client := by
    dsimp only
    by_cases hj0 : 0 = j
    · rw [← hj0, update_self]
      exact hclient hj0.symm
    · rw [update_of_ne hj0]
      exact h.client
  server := by
    dsimp only
    by_cases hjn : n + 1 = j
    · rw [← hjn, update_self]
      exact hserver hjn.symm
    · rw [update_of_ne hjn]
      exact h.server
  empty k hk hplace := by
    dsimp only at hplace ⊢
    by_cases hjk : k + 1 = j
    · rw [← hjk, update_self] at hplace
      rw [hjk]
      exact hempty k hk hjk.symm hplace
    · rw [update_of_ne hjk] at hplace
      exact h.empty k hk hplace
  shut k hk := by
    dsimp only
    by_cases hjk : k = j
    · subst hjk
      simp only [update_self, h.shut k hk, hj, hp]
    · rw [update_of_ne hjk]
      exact h.shut k hk
  finished k hk hplace := by
    dsimp only at hplace ⊢
    by_cases hjk : k = j
    · subst hjk
      rw [update_self] at hplace
      exact absurd hplace hp
    · rw [update_of_ne hjk] at hplace
      exact h.finished k hk hplace
  fin := h.fin
  received hplace := by
    dsimp only at hplace ⊢
    by_cases hjn : n + 1 = j
    · rw [← hjn, update_self] at hplace
      exact absurd hplace hp
    · rw [update_of_ne hjn] at hplace
      exact h.received hplace
  readWait k hk hplace := by
    dsimp only at hplace ⊢
    by_cases hjk : k + 1 = j
    · rw [← hjk, update_self] at hplace
      exact hread k hk hjk.symm hplace
    · rw [update_of_ne hjk] at hplace
      exact h.readWait k hk hplace
  writeWait k hk hplace := by
    dsimp only at hplace ⊢
    by_cases hjk : k = j
    · subst hjk
      rw [update_self] at hplace
      exact hwrite hplace
    · rw [update_of_ne hjk] at hplace
      exact h.writeWait k hk hplace

/-- Something happens on a wire. -/
theorem Inv.setWire (h : Inv n cap data s) {j : ℕ} {w : Wire} (hshut : w.shut = (s.wire j).shut)
    (hfin : w.fin = true → flow s.queue (3 * j + 1) = [])
    (hread : s.place (j + 1) = .readWait → s.rcv j ≠ [] ∨ w.fin = true → w.epollin = true)
    (hwrite : s.place j = .writeWait → (s.snd j).length < cap → w.epollout = true) :
    Inv n cap data { s with wire := update s.wire j w } where
  content := h.content
  client := h.client
  server := h.server
  empty := h.empty
  finished := h.finished
  received := h.received
  shut k hk := by
    dsimp only
    by_cases hjk : k = j
    · subst hjk
      rw [update_self, hshut]
      exact h.shut k hk
    · rw [update_of_ne hjk]
      exact h.shut k hk
  fin k hk := by
    dsimp only
    by_cases hjk : k = j
    · subst hjk
      rw [update_self]
      exact hfin
    · rw [update_of_ne hjk]
      exact h.fin k hk
  readWait k hk := by
    dsimp only
    by_cases hjk : k = j
    · subst hjk
      rw [update_self]
      exact hread
    · rw [update_of_ne hjk]
      exact h.readWait k hk
  writeWait k hk := by
    dsimp only
    by_cases hjk : k = j
    · subst hjk
      rw [update_self]
      exact hwrite
    · rw [update_of_ne hjk]
      exact h.writeWait k hk

/-- A hop has written everything, and closes its end. -/
theorem Inv.finish (h : Inv n cap data s) {j : ℕ} (hj : j ≤ n) (hflow : flow s.queue (3 * j) = []) :
    Inv n cap data { s with
      place := update s.place j .finished
      wire := update s.wire j { s.wire j with shut := true } } where
  content := h.content
  client := by
    dsimp only
    by_cases hj0 : 0 = j
    · simp [← hj0]
    · rw [update_of_ne hj0]
      exact h.client
  server := by
    dsimp only
    rw [update_of_ne (by omega)]
    exact h.server
  empty k hk hplace := by
    dsimp only at hplace ⊢
    by_cases hjk : k + 1 = j
    · simp [← hjk] at hplace
    · rw [update_of_ne hjk] at hplace
      exact h.empty k hk hplace
  shut k hk := by
    dsimp only
    by_cases hjk : k = j
    · subst hjk
      simp
    · rw [update_of_ne hjk, update_of_ne hjk]
      exact h.shut k hk
  finished k hk hplace := by
    dsimp only at hplace ⊢
    by_cases hjk : k = j
    · subst hjk
      exact hflow
    · rw [update_of_ne hjk] at hplace
      exact h.finished k hk hplace
  fin k hk hfin := by
    dsimp only at hfin ⊢
    by_cases hjk : k = j
    · subst hjk
      rw [update_self] at hfin
      exact h.fin k hk hfin
    · rw [update_of_ne hjk] at hfin
      exact h.fin k hk hfin
  received hplace := by
    dsimp only at hplace ⊢
    rw [update_of_ne (by omega)] at hplace
    exact h.received hplace
  readWait k hk hplace := by
    dsimp only at hplace ⊢
    have hwait : s.place (k + 1) = .readWait := by
      by_cases hjk : k + 1 = j
      · simp [← hjk] at hplace
      · rwa [update_of_ne hjk] at hplace
    by_cases hjk : k = j
    · subst hjk
      rw [update_self]
      exact h.readWait k hk hwait
    · rw [update_of_ne hjk]
      exact h.readWait k hk hwait
  writeWait k hk hplace := by
    dsimp only at hplace ⊢
    by_cases hjk : k = j
    · subst hjk
      simp at hplace
    · rw [update_of_ne hjk] at hplace ⊢
      exact h.writeWait k hk hplace

/-- Some bytes go on.  Who might wait for them has been told already. -/
theorem Inv.move (h : Inv n cap data s) {i m : ℕ} (hm : m ≤ (s.queue i).length) (hi : i < 3 * n + 3)
    (hbuf : ∀ k < n, i = 3 * k + 2 → s.place (k + 1) ≠ .reading ∧ s.place (k + 1) ≠ .readWait)
    (hwire : ∀ k ≤ n, i = 3 * k + 1 → (s.wire k).epollin = true ∧
      (cap ≤ (s.snd k).length → (s.wire k).epollout = true)) :
    Inv n cap data { s with queue := move s.queue i m } where
  content := (flow_move_of_gt hm hi).trans h.content
  client := h.client
  server := h.server
  empty k hk hplace := by
    have hnil : s.queue (3 * (k + 1)) = [] := h.empty k hk hplace
    change Lib.Pipeline.move s.queue i m (3 * (k + 1)) = []
    by_cases hself : 3 * (k + 1) = i
    · rw [← hself, move_self, hnil, List.drop_nil]
    · have hsucc : 3 * (k + 1) ≠ i + 1 := by
        intro heq
        obtain ⟨hreading, hwait⟩ := hbuf k hk (by omega)
        rcases hplace with h | h
        · exact hreading h
        · exact hwait h
      rw [move_of_ne hself hsucc, hnil]
  shut := h.shut
  finished k hk hplace := flow_move_eq_nil hm (h.finished k hk hplace)
  fin k hk hfin := flow_move_eq_nil hm (h.fin k hk hfin)
  received hplace := flow_move_eq_nil hm (h.received hplace)
  readWait k hk hplace hwhy := by
    by_cases hsucc : i = 3 * k + 1
    · exact (hwire k hk hsucc).1
    · refine h.readWait k hk hplace (hwhy.imp_left fun hne hnil ↦ hne ?_)
      change Lib.Pipeline.move s.queue i m (3 * k + 2) = []
      replace hnil : s.queue (3 * k + 2) = [] := hnil
      by_cases hself : 3 * k + 2 = i
      · rw [← hself, move_self, hnil, List.drop_nil]
      · rw [move_of_ne hself (by omega), hnil]
  writeWait k hk hplace hroom := by
    replace hroom : (Lib.Pipeline.move s.queue i m (3 * k + 1)).length < cap := hroom
    by_cases hself : 3 * k + 1 = i
    · rcases Nat.lt_or_ge (s.snd k).length cap with hlt | hfull
      · exact h.writeWait k hk hplace hlt
      · exact (hwire k hk hself.symm).2 hfull
    · refine h.writeWait k hk hplace (lt_of_le_of_lt ?_ hroom)
      by_cases hsucc : 3 * k + 1 = i + 1
      · rw [hsucc, move_succ, List.length_append, ← hsucc]
        exact Nat.le_add_right _ _
      · rw [move_of_ne hself hsucc]
        exact le_rfl

theorem flow_start (data : List β) (ins outs : ℕ → Bool) (interrupts i : ℕ) :
    flow (start data ins outs interrupts).queue i = data := by
  induction i with
  | zero => rfl
  | succ i ih =>
    rw [flow, ih]
    rfl

theorem inv_start (n cap : ℕ) (data : List β) (ins outs : ℕ → Bool) (interrupts : ℕ) :
    Inv n cap data (start data ins outs interrupts) where
  content := flow_start data ins outs interrupts _
  client := by simp [start]
  server := by simp [start]
  empty k _ _ := rfl
  shut k _ := by
    by_cases hk : k = 0
    · simp [start, hk]
    · simp [start, hk]
  finished k _ hplace := by
    by_cases hk : k = 0
    · simp [start, hk] at hplace
    · simp [start, hk] at hplace
  fin k _ hfin := by simp [start] at hfin
  received hplace := by simp [start] at hplace
  readWait k _ hplace := by simp [start] at hplace
  writeWait k _ hplace := by
    by_cases hk : k = 0
    · simp [start, hk] at hplace
    · simp [start, hk] at hplace

/-- A fiber is unparked, whoever does it. -/
theorem Inv.wake (h : Inv n cap data s) (k : ℕ) :
    Inv n cap data { s with place := update s.place k (s.place k).wake } := by
  by_cases hread : s.place k = .readWait
  · rw [hread]
    refine h.setPlace (by simp [hread]) (by simp [Place.wake]) ?_ (by simp [Place.wake]) ?_
      (by simp [Place.wake]) (by simp [Place.wake])
    · rintro rfl
      exact absurd hread h.client.2
    · rintro i hi rfl -
      exact h.empty i hi (.inr hread)
  by_cases hwrite : s.place k = .writeWait
  · rw [hwrite]
    refine h.setPlace (by simp [hwrite]) (by simp [Place.wake]) (by simp [Place.wake]) ?_
      (by simp [Place.wake]) (by simp [Place.wake]) (by simp [Place.wake])
    rintro rfl
    exact absurd hwrite h.server.2
  · rw [Place.wake_of_ne hread hwrite, Function.update_eq_self]
    exact h

/-- **One step.** -/
theorem Inv.step (h : Inv n cap data s) (hstep : Step n cap s s') : Inv n cap data s' := by
  cases hstep with
  | send k m hk hp hm hbuf hroom =>
    exact h.move hbuf (by omega) (fun i _ hi ↦ by omega) (fun i _ hi ↦ by omega)
  | sendAgain k hk hp hbuf hfull =>
    refine h.setPlace (by simp [hp]) (by simp) (by simp) (by omega) (by simp)
      (by simp) fun _ hroom ↦ ?_
    exact absurd hroom (Nat.not_lt.mpr hfull)
  | written k hk hp hbuf =>
    refine h.setPlace (by simp [hp]) (by simp) (by simp) (by simp) ?_ (by simp) (by simp)
    exact fun _ _ _ _ ↦ hbuf
  | close hp hbuf => exact h.finish (Nat.zero_le n) hbuf
  | read k m hk hp hm hrcv hsize =>
    have hwriting : Inv n cap data { s with place := update s.place (k + 1) .writing } := by
      refine h.setPlace (by simp [hp]) (by simp) (by simp) ?_ (by simp) (by simp) (by simp)
      omega
    refine hwriting.move hrcv (by omega) (fun i _ hi ↦ ?_) (fun i _ hi ↦ by omega)
    obtain rfl : k = i := by omega
    simp
  | receive m hp hm hrcv =>
    exact h.move hrcv (by omega) (fun i _ hi ↦ by omega) (fun i _ hi ↦ by omega)
  | readAgain k hk hp hrcv hfin =>
    refine h.setPlace (by simp [hp]) (by simp) (by simp) (by simp) ?_ ?_ (by simp)
    · rintro i hi heq -
      obtain rfl : k = i := by omega
      exact h.empty k hi (.inl hp)
    · rintro i - heq - hwhy
      obtain rfl : k = i := by omega
      simp [hrcv, hfin] at hwhy
  | eof k hk hp hrcv hfin =>
    refine h.finish hk ?_
    have hbefore := h.fin k hk.le hfin
    have hbuf : s.queue (3 * (k + 1)) = [] := h.empty k hk (.inl hp)
    change s.queue (3 * (k + 1)) ++ (s.queue (3 * k + 2) ++ flow s.queue (3 * k + 1)) = []
    rw [hbuf, show s.queue (3 * k + 2) = [] from hrcv, hbefore]
    rfl
  | ended hp hrcv hfin =>
    have hbefore := h.fin n le_rfl hfin
    have hflow : flow s.queue (3 * n + 2) = [] := by
      change s.queue (3 * n + 2) ++ flow s.queue (3 * n + 1) = []
      rw [show s.queue (3 * n + 2) = [] from hrcv, hbefore]
      rfl
    refine ⟨h.content, ?_, ?_, fun k hk hplace ↦ ?_, fun k hk ↦ ?_, fun k hk hplace ↦ ?_, h.fin,
      fun _ ↦ hflow, fun k hk hplace ↦ ?_, fun k hk hplace ↦ ?_⟩
    · dsimp only
      rw [update_of_ne (by omega)]
      exact h.client
    · simp
    · dsimp only at hplace
      rw [update_of_ne (by omega)] at hplace
      exact h.empty k hk hplace
    · dsimp only
      rw [update_of_ne (by omega)]
      exact h.shut k hk
    · dsimp only at hplace
      rw [update_of_ne (by omega)] at hplace
      exact h.finished k hk hplace
    · dsimp only at hplace
      by_cases hkn : k = n
      · simp [hkn] at hplace
      · rw [update_of_ne (by omega)] at hplace
        exact h.readWait k hk hplace
    · dsimp only at hplace
      rw [update_of_ne (by omega)] at hplace
      exact h.writeWait k hk hplace
  | deliver k m hk hm hsnd hroom =>
    have hreported := h.setWire (j := k) (w := { s.wire k with
      epollin := true
      epollout := (s.wire k).epollout || decide (cap ≤ (s.snd k).length) }) rfl (h.fin k hk)
      (fun _ _ ↦ rfl) fun hplace hlt ↦ by simp [h.writeWait k hk hplace hlt]
    refine hreported.move hsnd (by omega) (fun i _ hi ↦ by omega) fun i _ hi ↦ ?_
    obtain rfl : k = i := by omega
    simp only [update_self, true_and]
    intro hfull
    have hfull : cap ≤ (s.snd k).length := hfull
    simp [hfull]
  | deliverFin k hk hshut hfin hsnd =>
    refine h.setWire rfl (fun _ ↦ ?_) (fun _ _ ↦ rfl) (h.writeWait k hk)
    change s.queue (3 * k + 1) ++ flow s.queue (3 * k) = []
    rw [show s.queue (3 * k + 1) = [] from hsnd, h.finished k hk ((h.shut k hk).mp hshut)]
    rfl
  | pollIn k hk hin =>
    have hwoken : Inv n cap data { s with
        place := update s.place (k + 1)
          (if s.place (k + 1) = .readWait then .reading else s.place (k + 1)) } := by
      by_cases hp : s.place (k + 1) = .readWait
      · have hwake := h.wake (k + 1)
        rw [hp] at hwake
        rw [if_pos hp]
        exact hwake
      · rw [if_neg hp, Function.update_eq_self]
        exact h
    refine hwoken.setWire rfl (h.fin k hk) (fun hplace ↦ ?_) (hwoken.writeWait k hk)
    simp only [update_self] at hplace
    split at hplace
    · cases hplace
    · contradiction
  | pollOut k hk hout =>
    have hwoken : Inv n cap data { s with
        place := update s.place k (if s.place k = .writeWait then .writing else s.place k) } := by
      by_cases hp : s.place k = .writeWait
      · have hwake := h.wake k
        rw [hp] at hwake
        rw [if_pos hp]
        exact hwake
      · rw [if_neg hp, Function.update_eq_self]
        exact h
    refine hwoken.setWire rfl (h.fin k hk) (hwoken.readWait k hk) fun hplace ↦ ?_
    simp only [update_self] at hplace
    split at hplace
    · cases hplace
    · contradiction
  | interrupt i hi =>
    exact ⟨h.content, h.client, h.server, h.empty, h.shut, h.finished, h.fin, h.received,
      h.readWait, h.writeWait⟩
  | spurious k i hk hi =>
    have hwake := h.wake k
    exact ⟨hwake.content, hwake.client, hwake.server, hwake.empty, hwake.shut, hwake.finished,
      hwake.fin, hwake.received, hwake.readWait, hwake.writeWait⟩

/-! ## Nobody is stuck -/

theorem length_pos_of_ne_nil {q : List β} (hq : q ≠ []) : 1 ≤ q.length := List.length_pos_iff.mpr hq

/-- A fiber in the loop of `Write` can move. -/
theorem exists_step_of_writing {k : ℕ} (hk : k ≤ n) (hp : s.place k = .writing) :
    ∃ s', Step n cap s s' := by
  by_cases hbuf : s.buf k = []
  · cases k with
    | zero => exact ⟨_, .close hp hbuf⟩
    | succ k => exact ⟨_, .written k hk hp hbuf⟩
  · rcases Nat.lt_or_ge (s.snd k).length cap with hroom | hfull
    · exact ⟨_, .send k 1 hk hp one_pos (length_pos_of_ne_nil hbuf) hroom⟩
    · exact ⟨_, .sendAgain k hk hp hbuf hfull⟩

/-- A fiber in the loop of `Read` can move. -/
theorem exists_step_of_reading {k : ℕ} (hk : k ≤ n) (hp : s.place (k + 1) = .reading) :
    ∃ s', Step n cap s s' := by
  by_cases hrcv : s.rcv k = []
  · cases hfin : (s.wire k).fin with
    | false => exact ⟨_, .readAgain k hk hp hrcv hfin⟩
    | true =>
      rcases hk.lt_or_eq with hlt | rfl
      · exact ⟨_, .eof k hlt hp hrcv hfin⟩
      · exact ⟨_, .ended hp hrcv hfin⟩
  · rcases hk.lt_or_eq with hlt | rfl
    · exact ⟨_, .read k 1 hlt hp one_pos (length_pos_of_ne_nil hrcv) (by decide)⟩
    · exact ⟨_, .receive 1 hp one_pos (length_pos_of_ne_nil hrcv)⟩

/-- If nothing can happen, then who waits for bytes waits for a fiber that waits for bytes too. -/
theorem Inv.readWait_of_stuck (h : Inv n cap data s) (hcap : 0 < cap)
    (hstuck : ¬∃ s', Step n cap s s') {k : ℕ} (hk : k ≤ n) (hp : s.place (k + 1) = .readWait) :
    s.place k = .readWait := by
  have hevent : (s.wire k).epollin = false := by
    by_contra hin
    exact hstuck ⟨_, .pollIn k hk (eq_true_of_ne_false hin)⟩
  have hquiet : ¬(s.rcv k ≠ [] ∨ (s.wire k).fin = true) := fun hwhy ↦ by
    simp [h.readWait k hk hp hwhy] at hevent
  obtain ⟨hrcv, hfin⟩ := not_or.mp hquiet
  replace hrcv : s.rcv k = [] := not_not.mp hrcv
  have hsnd : s.snd k = [] := by
    by_contra hsnd
    refine hstuck ⟨_, .deliver k 1 hk one_pos (length_pos_of_ne_nil hsnd) ?_⟩
    rw [hrcv]
    exact hcap
  cases hplace : s.place k with
  | readWait => rfl
  | writing => exact absurd (exists_step_of_writing hk hplace) hstuck
  | reading =>
    cases k with
    | zero => exact absurd hplace h.client.1
    | succ k => exact absurd (exists_step_of_reading (Nat.le_of_succ_le hk) hplace) hstuck
  | writeWait =>
    have hout : (s.wire k).epollout = true := h.writeWait k hk hplace (by rw [hsnd]; exact hcap)
    exact absurd ⟨_, .pollOut k hk hout⟩ hstuck
  | finished =>
    have hshut := (h.shut k hk).mpr hplace
    exact absurd ⟨_, .deliverFin k hk hshut (eq_false_of_ne_true hfin) hsnd⟩ hstuck

/-- As long as the server has not seen the end, something can happen: else all fibers back to the
client would wait for bytes, and the client waits for none. -/
theorem Inv.exists_step (h : Inv n cap data s) (hcap : 0 < cap)
    (hnot : s.place (n + 1) ≠ .finished) :
    ∃ s', Step n cap s s' := by
  by_contra hstuck
  have hserver : s.place (n + 1) = .readWait := by
    cases hplace : s.place (n + 1) with
    | readWait => rfl
    | reading => exact absurd (exists_step_of_reading le_rfl hplace) hstuck
    | writing => exact absurd hplace h.server.1
    | writeWait => exact absurd hplace h.server.2
    | finished => exact absurd hplace hnot
  have hwait (j : ℕ) (hj : j ≤ n + 1) : s.place (n + 1 - j) = .readWait := by
    induction j with
    | zero => exact hserver
    | succ j ih =>
      have hprev := ih (Nat.le_of_succ_le hj)
      rw [show n + 1 - j = n + 1 - (j + 1) + 1 by omega] at hprev
      exact h.readWait_of_stuck hcap hstuck (by omega) hprev
  have hclient := hwait (n + 1) le_rfl
  rw [Nat.sub_self] at hclient
  exact h.client.2 hclient

/-! ## The main result -/

/-- What the server has is the beginning of what the client writes, and all of it once it has seen
the end. -/
theorem Inv.received_isFirst (h : Inv n cap data s) :
    s.buf (n + 1) <+: data ∧ (s.place (n + 1) = .finished → s.buf (n + 1) = data) := by
  have hcontent : s.buf (n + 1) ++ flow s.queue (3 * n + 2) = data := h.content
  refine ⟨⟨_, hcontent⟩, fun hplace ↦ ?_⟩
  rw [h.received hplace, List.append_nil] at hcontent
  exact hcontent

end Invariant

/-- **What the client writes gets to the server.**  Whatever the order of steps, however the kernel
divides the bytes and whenever it reports its events: what the server has read is always the
beginning of what the client has written, when the server sees the end of the stream it is all of
it, and every run comes to that. -/
theorem tunnel_delivers {n cap : ℕ} (hcap : 0 < cap) (data : List β) (ins outs : ℕ → Bool)
    (interrupts : ℕ) :
    (∀ s, Relation.ReflTransGen (Step n cap) (start data ins outs interrupts) s →
      s.buf (n + 1) <+: data ∧ (s.place (n + 1) = .finished → s.buf (n + 1) = data)) ∧
    Lib.Inevitable (Step n cap) (fun s ↦ s.place (n + 1) = .finished ∧ s.buf (n + 1) = data)
      (start data ins outs interrupts) := by
  have hinit : Inv n cap data (start data ins outs interrupts) :=
    inv_start n cap data ins outs interrupts
  constructor
  · intro s hrun
    exact (Lib.invariant_of_step hrun hinit fun _ _ h hstep ↦ h.step hstep).received_isFirst
  · refine Lib.Inevitable.of_measure (State.measure n)
      (fun s s' h hstep ↦ ⟨h.step hstep, measure_lt hstep⟩) (fun s h ↦ ?_) hinit
    by_cases hplace : s.place (n + 1) = .finished
    · exact .inl ⟨hplace, h.received_isFirst.2 hplace⟩
    · exact .inr (h.exists_step hcap hplace)

/-- Through two proxies, with buffers of one byte. -/
theorem tunnel_delivers_two :
    Lib.Inevitable (Step 2 1) (fun s ↦ s.place 3 = .finished ∧ s.buf 3 = [71, 69, 84])
      (start [71, 69, 84] (fun _ ↦ false) (fun _ ↦ true) 5) :=
  (tunnel_delivers (by decide) [71, 69, 84] (fun _ ↦ false) (fun _ ↦ true) 5).2

end Tunnel
end Socks
end ManyTasks
