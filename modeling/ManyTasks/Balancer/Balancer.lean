import ManyTasks.Lib.Transition
import Mathlib.Data.List.MinMax
import Mathlib.Logic.Function.Basic

/-!
# A balancer

The balancer takes connections from clients and forwards each of them to one of its backends.
`MakeConnection` chooses the backend with the smallest `load`, the earliest one of several, and
dials it; a backend that cannot be reached is marked as dead, and another one is chosen.
`ProcessConnection` forwards data until both directions are closed, and counts the connection out
again.  `SetBackends` replaces the backends.

Everything is done by fibers, which only give way where they wait: for `mutex_`, for an address that
is being dialled, and for data.  A step is what one of them does from one such place to the next.
`MakeConnection` holds `mutex_` while it dials.

A `Peer` lives as long as there is a pointer to it, so `SetBackends` leaves those of older
connections alone.  A pointer is a place in `heap`.
-/

set_option autoImplicit false

namespace ManyTasks
namespace Balancer

variable {α : Type}

structure Peer (α : Type) where
  address : α
  load : ℕ
  is_dead : Bool
deriving DecidableEq, Repr

/-- Where the fiber of a client is. -/
inductive Fiber where
  /-- In `MakeConnection`, before the mutex is taken. -/
  | waiting
  | dialling (suitable_peer : ℕ)
  /-- In `ProcessConnection`, before both directions are closed. -/
  | serving (peer : ℕ)
  /-- In `ProcessConnection`, before the mutex is taken. -/
  | closing (peer : ℕ)
  | closed
  /-- There was no backend left. -/
  | refused
deriving DecidableEq, Repr

/-- The balancer and its clients. -/
structure State (α : Type) where
  /-- All peers there have been. -/
  heap : List (Peer α)
  peers_ : List ℕ
  /-- Who holds `mutex_`. -/
  mutex_ : Option ℕ
  fibers : List Fiber

namespace State

/-- No backends have been set, and there are no clients. -/
def init : State α := ⟨[], [], none, []⟩

def address (s : State α) (p : ℕ) : Option α := (s.heap[p]?).map Peer.address

def load (s : State α) (p : ℕ) : ℕ := ((s.heap[p]?).map Peer.load).getD 0

def isDead (s : State α) (p : ℕ) : Bool := ((s.heap[p]?).map Peer.is_dead).getD false

/-- One turn of the loop that chooses a peer. -/
def better (s : State α) (suitable_peer : Option ℕ) (peer : ℕ) : Option ℕ :=
  if s.isDead peer = false ∧ ∀ p ∈ suitable_peer, s.load peer < s.load p then some peer
  else suitable_peer

/-- The peer that `MakeConnection` chooses; `none` is `nullptr`. -/
def suitablePeer (s : State α) : Option ℕ := s.peers_.foldl s.better none

/-! ### What the fibers do -/

/-- `Accept` has returned a connection. -/
def accept (s : State α) : State α := { s with fibers := s.fibers ++ [.waiting] }

/-- `MakeConnection` has chosen a peer. -/
def dial (i p : ℕ) (s : State α) : State α :=
  { s with mutex_ := some i, fibers := s.fibers.set i (.dialling p) }

/-- `MakeConnection` is complete. -/
def attach (i p : ℕ) (s : State α) : State α where
  heap := s.heap.modify p fun peer ↦ { peer with load := peer.load + 1 }
  peers_ := s.peers_
  mutex_ := none
  fibers := s.fibers.set i (.serving p)

/-- The peer could not be reached, or not within 100 ms. -/
def fail (i p : ℕ) (s : State α) : State α where
  heap := s.heap.modify p fun peer ↦ { peer with is_dead := true }
  peers_ := s.peers_
  mutex_ := none
  fibers := s.fibers.set i .waiting

/-- `MakeConnection` has thrown. -/
def refuse (i : ℕ) (s : State α) : State α := { s with fibers := s.fibers.set i .refused }

/-- Both directions are closed. -/
def finish (i p : ℕ) (s : State α) : State α := { s with fibers := s.fibers.set i (.closing p) }

/-- `ProcessConnection` is complete. -/
def release (i p : ℕ) (s : State α) : State α where
  heap := s.heap.modify p fun peer ↦ { peer with load := peer.load - 1 }
  peers_ := s.peers_
  mutex_ := s.mutex_
  fibers := s.fibers.set i .closed

def setBackends (peers : List α) (s : State α) : State α :=
  { s with
    heap := s.heap ++ peers.map fun addr ↦ ⟨addr, 0, false⟩
    peers_ := List.range' s.heap.length peers.length }

end State

/-- What a step is: who has done it, with which peer and which address. -/
inductive Event (α : Type) where
  | accept
  | dial (client peer : ℕ) (address : α)
  | attach (client peer : ℕ) (address : α)
  | fail (client peer : ℕ) (address : α)
  | refuse (client : ℕ)
  | finish (client : ℕ)
  | release (client peer : ℕ) (address : α)
  | setBackends (peers : List α)
deriving DecidableEq, Repr

/-- The steps. -/
inductive Step (s : State α) : Event α → State α → Prop
  | accept : Step s .accept s.accept
  | dial {i p : ℕ} {a : α} (hfiber : s.fibers[i]? = some .waiting) (hfree : s.mutex_ = none)
      (hpeer : s.suitablePeer = some p) (ha : s.address p = some a) :
      Step s (.dial i p a) (s.dial i p)
  | attach {i p : ℕ} {a : α} (hfiber : s.fibers[i]? = some (.dialling p))
      (ha : s.address p = some a) : Step s (.attach i p a) (s.attach i p)
  | fail {i p : ℕ} {a : α} (hfiber : s.fibers[i]? = some (.dialling p))
      (ha : s.address p = some a) : Step s (.fail i p a) (s.fail i p)
  | refuse {i : ℕ} (hfiber : s.fibers[i]? = some .waiting) (hfree : s.mutex_ = none)
      (hnone : s.suitablePeer = none) : Step s (.refuse i) (s.refuse i)
  | finish {i p : ℕ} (hfiber : s.fibers[i]? = some (.serving p)) :
      Step s (.finish i) (s.finish i p)
  | release {i p : ℕ} {a : α} (hfiber : s.fibers[i]? = some (.closing p))
      (hfree : s.mutex_ = none) (ha : s.address p = some a) :
      Step s (.release i p a) (s.release i p)
  | setBackends (peers : List α) (hfree : s.mutex_ = none) :
      Step s (.setBackends peers) (s.setBackends peers)

/-! ## The peer that is chosen -/

namespace State

variable {s : State α} {i p q : ℕ} {a : α}

/-- The peers that may be chosen. -/
def alive (s : State α) : List ℕ := s.peers_.filter fun p ↦ !s.isDead p

/-- **The loop chooses the first least one.** -/
theorem suitablePeer_eq_argmin (s : State α) : s.suitablePeer = s.alive.argmin s.load := by
  rw [suitablePeer, alive, List.argmin, List.foldl_filter]
  congr 1
  funext suitable_peer peer
  rw [better]
  cases s.isDead peer with
  | true => simp
  | false =>
    cases suitable_peer with
    | none => simp [List.argAux]
    | some p => simp [List.argAux]

theorem mem_of_suitablePeer (h : s.suitablePeer = some p) : p ∈ s.peers_ ∧ s.isDead p = false := by
  rw [suitablePeer_eq_argmin] at h
  simpa [alive] using List.argmin_mem h

theorem lt_length_iff : p < s.heap.length ↔ ∃ a, s.address p = some a := by
  rw [address]
  by_cases h : p < s.heap.length
  · simp [h]
  · simp [h]

/-! ### What a step leaves alone -/

@[simp] theorem address_accept : s.accept.address = s.address := rfl
@[simp] theorem load_accept : s.accept.load = s.load := rfl
@[simp] theorem isDead_accept : s.accept.isDead = s.isDead := rfl

@[simp] theorem address_dial : (s.dial i p).address = s.address := rfl
@[simp] theorem load_dial : (s.dial i p).load = s.load := rfl
@[simp] theorem isDead_dial : (s.dial i p).isDead = s.isDead := rfl

@[simp] theorem address_refuse : (s.refuse i).address = s.address := rfl
@[simp] theorem load_refuse : (s.refuse i).load = s.load := rfl
@[simp] theorem isDead_refuse : (s.refuse i).isDead = s.isDead := rfl

@[simp] theorem address_finish : (s.finish i p).address = s.address := rfl
@[simp] theorem load_finish : (s.finish i p).load = s.load := rfl
@[simp] theorem isDead_finish : (s.finish i p).isDead = s.isDead := rfl

/-- What a change leaves alone is left alone everywhere. -/
theorem map_modify {γ : Type} {g : Peer α → γ} {f : Peer α → Peer α}
    (h : ∀ peer, g (f peer) = g peer) (heap : List (Peer α)) (p q : ℕ) :
    ((heap.modify p f)[q]?).map g = (heap[q]?).map g := by
  rw [List.getElem?_modify]
  cases heap[q]? with
  | none => rfl
  | some peer =>
    split
    · exact congrArg some (h peer)
    · rfl

@[simp] theorem address_attach : (s.attach i p).address = s.address := by
  refine funext fun q ↦ map_modify ?_ s.heap p q
  exact fun _ ↦ rfl

@[simp] theorem isDead_attach : (s.attach i p).isDead = s.isDead := by
  refine funext fun q ↦ congrArg (Option.getD · false) (map_modify ?_ s.heap p q)
  exact fun _ ↦ rfl

@[simp] theorem address_fail : (s.fail i p).address = s.address := by
  refine funext fun q ↦ map_modify ?_ s.heap p q
  exact fun _ ↦ rfl

@[simp] theorem load_fail : (s.fail i p).load = s.load := by
  refine funext fun q ↦ congrArg (Option.getD · 0) (map_modify ?_ s.heap p q)
  exact fun _ ↦ rfl

@[simp] theorem address_release : (s.release i p).address = s.address := by
  refine funext fun q ↦ map_modify ?_ s.heap p q
  exact fun _ ↦ rfl

@[simp] theorem isDead_release : (s.release i p).isDead = s.isDead := by
  refine funext fun q ↦ congrArg (Option.getD · false) (map_modify ?_ s.heap p q)
  exact fun _ ↦ rfl

/-! ### What a step changes -/

theorem load_attach (ha : s.address p = some a) (q : ℕ) :
    (s.attach i p).load q = if q = p then s.load q + 1 else s.load q := by
  obtain ⟨peer, hpeer, -⟩ := Option.map_eq_some_iff.1 ha
  rw [load, load, attach, List.getElem?_modify]
  by_cases hq : q = p
  · subst hq
    simp [hpeer]
  · simp [hq, Ne.symm hq]

theorem load_release (q : ℕ) :
    (s.release i p).load q = if q = p then s.load q - 1 else s.load q := by
  rw [load, load, release, List.getElem?_modify]
  by_cases hq : q = p
  · subst hq
    cases s.heap[q]? <;> simp
  · simp [hq, Ne.symm hq]

theorem isDead_fail (ha : s.address p = some a) (q : ℕ) :
    (s.fail i p).isDead q = if q = p then true else s.isDead q := by
  obtain ⟨peer, hpeer, -⟩ := Option.map_eq_some_iff.1 ha
  rw [isDead, isDead, fail, List.getElem?_modify]
  by_cases hq : q = p
  · subst hq
    simp [hpeer]
  · simp [hq, Ne.symm hq]

/-- `SetBackends` leaves the peers there have been alone. -/
theorem address_setBackends_of_lt (peers : List α) (hp : p < s.heap.length) :
    (s.setBackends peers).address p = s.address p := by
  rw [address, address, setBackends, List.getElem?_append_left hp]

theorem address_setBackends_of_le (peers : List α) (hp : s.heap.length ≤ p) :
    (s.setBackends peers).address p = peers[p - s.heap.length]? := by
  rw [address, setBackends, List.getElem?_append_right hp, List.getElem?_map, Option.map_map]
  cases peers[p - s.heap.length]? <;> rfl

/-- A new peer has no connections. -/
theorem load_setBackends_of_le (peers : List α) (hp : s.heap.length ≤ p) :
    (s.setBackends peers).load p = 0 := by
  rw [load, setBackends, List.getElem?_append_right hp, List.getElem?_map]
  cases peers[p - s.heap.length]? <;> rfl

theorem isDead_setBackends_of_le (peers : List α) (hp : s.heap.length ≤ p) :
    (s.setBackends peers).isDead p = false := by
  rw [isDead, setBackends, List.getElem?_append_right hp, List.getElem?_map]
  cases peers[p - s.heap.length]? <;> rfl

/-- The pointers of the new peers. -/
theorem mem_peers_setBackends (peers : List α) :
    p ∈ (s.setBackends peers).peers_
      ↔ s.heap.length ≤ p ∧ p < s.heap.length + peers.length := by
  rw [setBackends, List.mem_range'_1]

theorem map_address_setBackends (peers : List α) :
    (s.setBackends peers).peers_.map (s.setBackends peers).address = peers.map some := by
  refine List.ext_getElem ?_ fun j hj hj' ↦ ?_
  · simp [setBackends]
  · have haddress := address_setBackends_of_le peers (Nat.le_add_right s.heap.length j)
    rw [List.length_map] at hj'
    rw [Nat.add_sub_cancel_left, List.getElem?_eq_getElem hj'] at haddress
    have hlt : j < (s.setBackends peers).peers_.length := by simpa using hj
    have hpointer : (s.setBackends peers).peers_[j] = s.heap.length + j := by simp [setBackends]
    rw [List.getElem_map, List.getElem_map, hpointer, haddress]

end State

end Balancer
end ManyTasks
