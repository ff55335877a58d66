import ManyTasks.Lib.Atomic
import Mathlib.Data.Nat.Notation

/-!
# A map with snapshots

`SyncMap` answers most lookups from a snapshot that nobody changes any more, without a lock.  New
entries go into a second map, under the lock, and the snapshot then says that it is `dirty`: a key
that is not in it may be in the other map.  When enough lookups had to take the lock, the second map
gets the entries of the first and becomes the new snapshot.

A call reads the pointer to the snapshot (`Acquire`), then looks at the snapshot, at any time later,
and if this does not settle it, takes the lock and does the rest under it.  These are its steps, and
between them other calls may do theirs.  What is left out is when the memory of old snapshots is
given back.

Maps are known by their addresses, since the point is which of them is changed when.
-/

set_option autoImplicit false

namespace ManyTasks
namespace SyncMap

open Function (update)

/-- `Snapshot`, with the address of the map. -/
structure Snapshot where
  read_only : ℕ
  dirty : Bool
deriving DecidableEq, Repr

inductive Op (K V : Type) where
  | lookup (key : K)
  | insert (key : K) (value : V)
deriving DecidableEq, Repr

inductive Res (V : Type) where
  /-- `Lookup` returns true and has set `*value`, or returns false. -/
  | found (value : Option V)
  | inserted (res : Bool)
deriving DecidableEq, Repr

/-- Where a call is. -/
inductive Call (K V : Type) where
  | idle
  | called (op : Op K V)
  /-- Between `Acquire` and `Release`. -/
  | acquired (op : Op K V) (snapshot : Snapshot)
  /-- It needs the lock. -/
  | waiting (op : Op K V)
  | returning (op : Op K V) (res : Res V)
  | returned (op : Op K V) (res : Res V)
deriving DecidableEq, Repr

/-- The map, everything it points to, and the calls. -/
structure State (C K V : Type) where
  /-- What is in the map at the address. -/
  maps : ℕ → K → Option V
  /-- The next address. -/
  next : ℕ
  snapshot_ : Snapshot
  mutable_map_ : Option ℕ
  operation_count_ : ℕ
  calls : C → Call K V

/-- `kMaxOperationsCnt`. -/
def kMaxOperationsCnt : ℕ := 15

/-- The constructor. -/
def init {C K V : Type} : State C K V where
  maps := fun _ _ ↦ none
  next := 1
  snapshot_ := ⟨0, false⟩
  mutable_map_ := none
  operation_count_ := 0
  calls := fun _ ↦ .idle

variable {C K V : Type}

/-- What the call makes of the snapshot; nothing, if it needs the lock. -/
def readSnapshot (maps : ℕ → K → Option V) (snapshot : Snapshot) : Op K V → Option (Res V)
  | .lookup key =>
    match maps snapshot.read_only key with
    | some value => some (.found (some value))
    | none => if snapshot.dirty then none else some (.found none)
  | .insert key _ =>
    match maps snapshot.read_only key with
    | some _ => some (.inserted false)
    | none => none

/-- `insert` of all entries of another map, of those whose keys are new. -/
def insertAll (map other : K → Option V) : K → Option V := fun key ↦ (map key).or (other key)

/-- `Lookup`, under the lock. -/
def lookupLocked (key : K) (s : State C K V) : Option V × State C K V :=
  match s.maps s.snapshot_.read_only key with
  | some value => (some value, s)
  | none =>
    match s.mutable_map_ with
    | none => (none, s)
    | some map =>
      let found := s.maps map key
      let operation_count_ := s.operation_count_ + 1
      if operation_count_ = kMaxOperationsCnt then
        (found, { s with
          maps := update s.maps map (insertAll (s.maps map) (s.maps s.snapshot_.read_only)),
          snapshot_ := ⟨map, false⟩, mutable_map_ := none, operation_count_ := 0 })
      else (found, { s with operation_count_ := operation_count_ })

variable [DecidableEq C] [DecidableEq K]

/-- `Insert`, under the lock. -/
def insertLocked (key : K) (value : V) (s : State C K V) : Bool × State C K V :=
  match s.maps s.snapshot_.read_only key with
  | some _ => (false, s)
  | none =>
    match s.mutable_map_ with
    | none =>
      (true, { s with
        maps := update s.maps s.next (update (fun _ ↦ none) key (some value)),
        next := s.next + 1, mutable_map_ := some s.next,
        snapshot_ := ⟨s.snapshot_.read_only, true⟩ })
    | some map =>
      match s.maps map key with
      | none =>
        (true, { s with
          maps := update s.maps map (update (s.maps map) key (some value)),
          operation_count_ := 0 })
      | some _ => (false, s)

/-- The rest of a call, under the lock. -/
def locked (s : State C K V) : Op K V → Res V × State C K V
  | .lookup key => (lookupLocked key s).map .found id
  | .insert key value => (insertLocked key value s).map .inserted id

/-- One step. -/
inductive Step : State C K V → Lib.Label C (Op K V) (Res V) → State C K V → Prop where
  | call {s} (c op) (h : s.calls c = .idle) :
      Step s (.call c op) { s with calls := update s.calls c (.called op) }
  | acquire {s} (c op) (h : s.calls c = .called op) :
      Step s .tau { s with calls := update s.calls c (.acquired op s.snapshot_) }
  | read {s} (c op snapshot) (h : s.calls c = .acquired op snapshot) :
      Step s .tau { s with
        calls := update s.calls c
          ((readSnapshot s.maps snapshot op).elim (.waiting op) (.returning op)) }
  | lock {s} (c op) (h : s.calls c = .waiting op) :
      Step s .tau { (locked s op).2 with
        calls := update s.calls c (.returning op (locked s op).1) }
  | ret {s} (c op res) (h : s.calls c = .returning op res) :
      Step s (.ret c res) { s with calls := update s.calls c (.returned op res) }

end SyncMap
end ManyTasks
