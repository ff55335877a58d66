import ManyTasks.HazardPtr.Clients
import ManyTasks.Lib.Composition
import ManyTasks.SyncMap.Refinement

/-!
# The map with snapshots and its memory

`Lookup` and `Insert` read the snapshot between `Acquire` and `Release`, without the lock, and
whoever puts another snapshot in its place gives the old one to `Retire`.  When it is deleted, its
`shared_ptr` goes away, and with the last one for a map the map.

Here a snapshot is known by its address, and what is in the memory of a deleted snapshot, and of a
map that nothing points to any more, may be anything (`Whole.Step.delete`).  The hazard pointers run
beside the map, and nothing is promised about how the map uses them.  Still the map does what it
does with memory that is never given back (`map_over_hazard_pointers`): what a call reads is there,
since its thread holds the snapshot, and the snapshot has a pointer to the map (`Whole.Live`).

What is done under the lock up to the new snapshot is seen by nobody else, so it is one step with
the store of the pointer; but `new`, `Retire` and the end of the lock are steps of their own.
-/

set_option autoImplicit false

namespace ManyTasks
namespace SyncMap

open Function (update update_self update_of_ne)
open Lib (Moves Trace Atomic)

variable {C Θ A N K V : Type}

/-! ## The two together -/

/-- Where a call is. -/
inductive Place (A K V : Type) where
  | idle
  | called (op : Op K V)
  /-- In `Acquire`, which has loaded this. -/
  | acquiring (op : Op K V) (value : Option A)
  /-- `Acquire` has returned the snapshot. -/
  | reading (op : Op K V) (snapshot : A)
  /-- Before `Release`, with what the snapshot has told. -/
  | releasing (op : Op K V) (res : Option (Res V))
  /-- Before the lock. -/
  | waiting (op : Op K V)
  | locked (op : Op K V)
  /-- Before `snapshot_.store(new_snapshot)`. -/
  | storing (op : Op K V) (new_snapshot : A)
  /-- Before `Retire(old_snapshot)`. -/
  | retiring (op : Op K V) (old_snapshot : A) (res : Res V)
  /-- Before the lock is given back. -/
  | unlocking (op : Op K V) (res : Res V)
  | returning (op : Op K V) (res : Res V)
  | returned (op : Op K V) (res : Res V)
deriving DecidableEq, Repr

/-- The call has the lock. -/
def Place.Locked : Place A K V → Prop
  | .locked _ | .storing _ _ | .retiring _ _ _ | .unlocking _ _ => True
  | _ => False

/-- The call, if snapshots were values. -/
def Place.view (snapshots : A → Snapshot) : Place A K V → Call K V
  | .idle => .idle
  | .called op | .acquiring op _ => .called op
  | .reading op snapshot => .acquired op (snapshots snapshot)
  | .releasing op res => res.elim (.waiting op) (.returning op)
  | .waiting op | .locked op | .storing op _ => .waiting op
  | .retiring op _ res | .unlocking op res | .returning op res => .returning op res
  | .returned op res => .returned op res

/-- The map, the memory of maps and snapshots, the calls and the hazard pointers.  `snapshot_` is
the only location of the hazard pointers. -/
structure Whole (C Θ A N K V : Type) where
  maps : ℕ → K → Option V
  next : ℕ
  mutable_map_ : Option ℕ
  operation_count_ : ℕ
  mutex_ : Option C
  snapshots : A → Snapshot
  places : C → Place A K V
  hazard : HazardPtr.State Θ Unit A N

/-- What a step is for the map, and for the hazard pointers. -/
structure Use (C Θ A K V : Type) where
  map : Option (Lib.Label C (Op K V) (Res V))
  hazard : Option (HazardPtr.Label Θ A)

/-- What `snapshot_` points to. -/
def Whole.snapshot (x : Whole C Θ A N K V) : Snapshot :=
  (x.hazard.locations ()).elim ⟨0, false⟩ x.snapshots

/-- The map, if snapshots were values. -/
def Whole.view (x : Whole C Θ A N K V) : State C K V where
  maps := x.maps
  next := x.next
  snapshot_ := x.snapshot
  mutable_map_ := x.mutable_map_
  operation_count_ := x.operation_count_
  calls c := (x.places c).view x.snapshots

/-- Some `shared_ptr` points to the map. -/
def Whole.Live (x : Whole C Θ A N K V) (m : ℕ) : Prop :=
  x.mutable_map_ = some m ∨ ∃ a, x.hazard.status a ≠ .free ∧ (x.snapshots a).read_only = m

/-- The new snapshot that the call makes under the lock. -/
def renewed (s : State C K V) : Op K V → Option Snapshot
  | .lookup key =>
    match s.maps s.snapshot_.read_only key, s.mutable_map_ with
    | none, some map =>
      if s.operation_count_ + 1 = kMaxOperationsCnt then some ⟨map, false⟩ else none
    | _, _ => none
  | .insert key _ =>
    match s.maps s.snapshot_.read_only key, s.mutable_map_ with
    | none, none => some ⟨s.snapshot_.read_only, true⟩
    | _, _ => none

/-- What the lock protects is changed. -/
def Whole.write (x : Whole C Θ A N K V) (s : State C K V) : Whole C Θ A N K V :=
  { x with maps := s.maps, next := s.next, mutable_map_ := s.mutable_map_,
           operation_count_ := s.operation_count_ }

variable [DecidableEq C] [DecidableEq Θ] [DecidableEq A] [DecidableEq N] [DecidableEq K]

/-- The constructor has made the first snapshot, at `a`. -/
def Whole.init (a : A) (nodes : N → HazardPtr.RetiredPtr A N) (snapshots : A → Snapshot) :
    Whole C Θ A N K V where
  maps := fun _ _ ↦ none
  next := 1
  mutable_map_ := none
  operation_count_ := 0
  mutex_ := none
  snapshots := update snapshots a ⟨0, false⟩
  places := fun _ ↦ .idle
  hazard := { HazardPtr.init nodes with
    status := update (fun _ ↦ .free) a .allocated
    locations := update (fun _ ↦ none) () (some a) }

/-- A call goes on to another place. -/
def Whole.go (x : Whole C Θ A N K V) (c : C) (p : Place A K V) : Whole C Θ A N K V :=
  { x with places := update x.places c p }

/-- A call goes on that has begun, and so do the hazard pointers. -/
def Whole.both (x : Whole C Θ A N K V) (c : C) (p : Place A K V) (t : HazardPtr.State Θ Unit A N) :
    Whole C Θ A N K V :=
  { x with places := update x.places c p, hazard := t }

/-- The call has begun and has not returned. -/
def Place.Active : Place A K V → Prop
  | .idle | .returned _ _ => False
  | _ => True

/-- One step; `thread` says which thread makes a call. -/
inductive Whole.Step (thread : C → Θ) :
    Whole C Θ A N K V → Use C Θ A K V → Whole C Θ A N K V → Prop where
  | register {x} (θ) (h : x.hazard.places θ = .idle) (hlock : x.hazard.threads_lock = none) :
      Step thread x ⟨none, some .tau⟩
        { x with hazard := { x.hazard with threads := θ :: x.hazard.threads } }
  | unregister {x t} (θ) (h : HazardPtr.Step x.hazard (.unregister θ) t)
      (hcalls : ∀ c, (x.places c).Active → thread c ≠ θ) :
      Step thread x ⟨none, some (.unregister θ)⟩ { x with hazard := t }
  /-- A call begins. -/
  | call {x} (c op) (h : x.places c = .idle) (hθ : x.hazard.places (thread c) = .idle)
      (hregistered : thread c ∈ x.hazard.threads)
      (hcalls : ∀ d, (x.places d).Active → thread d ≠ thread c) :
      Step thread x ⟨some (.call c op), none⟩ (x.go c (.called op))
  /-- `Acquire(&snapshot_)` is called, and loads `snapshot_`. -/
  | acquire {x} (c op) (h : x.places c = .called op) (hθ : x.hazard.places (thread c) = .idle) :
      Step thread x ⟨none, some (.acquire (thread c))⟩
        (x.both c (.acquiring op (x.hazard.locations ()))
          (x.hazard.go (thread c) (.storing () (x.hazard.locations ()))))
  /-- `hazard_ptr.store(value)` -/
  | publish {x} (c op value) (h : x.places c = .acquiring op value)
      (hθ : x.hazard.places (thread c) = .storing () value) :
      Step thread x ⟨none, some .tau⟩
        { x with hazard := ({ x.hazard with
          hazard_ptr := update x.hazard.hazard_ptr (thread c) value }.go (thread c)
            (.validating () value)) }
  /-- `snapshot_` is loaded again, and is another pointer. -/
  | again {x} (c op value) (h : x.places c = .acquiring op value)
      (hθ : x.hazard.places (thread c) = .validating () value)
      (hlocation : x.hazard.locations () ≠ value) :
      Step thread x ⟨none, some .tau⟩
        (x.both c (.acquiring op (x.hazard.locations ()))
          (x.hazard.go (thread c) (.storing () (x.hazard.locations ()))))
  /-- `Acquire` returns the snapshot. -/
  | acquired {x} (c op a) (h : x.places c = .acquiring op (some a))
      (hθ : x.hazard.places (thread c) = .validating () (some a))
      (hlocation : x.hazard.locations () = some a) :
      Step thread x ⟨some .tau, some (.acquired (thread c) (some a))⟩
        (x.both c (.reading op a) (x.hazard.go (thread c) .idle))
  /-- The call reads the snapshot and its map. -/
  | read {x} (c op a) (h : x.places c = .reading op a) :
      Step thread x ⟨some .tau, none⟩
        (x.go c (.releasing op (readSnapshot x.maps (x.snapshots a) op)))
  | release {x} (c op res) (h : x.places c = .releasing op res)
      (hθ : x.hazard.places (thread c) = .idle) :
      Step thread x ⟨none, some (.release (thread c))⟩
        (x.both c (res.elim (.waiting op) (.returning op))
          { x.hazard with hazard_ptr := update x.hazard.hazard_ptr (thread c) none })
  | lock {x} (c op) (h : x.places c = .waiting op) (hmutex : x.mutex_ = none) :
      Step thread x ⟨none, none⟩ { x.go c (.locked op) with mutex_ := some c }
  /-- Under the lock, if the snapshot stays. -/
  | section {x} (c op) (h : x.places c = .locked op) (hnew : renewed x.view op = none) :
      Step thread x ⟨some .tau, none⟩
        ((x.write (SyncMap.locked x.view op).2).go c (.unlocking op (SyncMap.locked x.view op).1))
  /-- `new Snapshot{..}` -/
  | allocate {x} (c op a snapshot) (h : x.places c = .locked op)
      (hnew : renewed x.view op = some snapshot) (ha : x.hazard.status a = .free) :
      Step thread x ⟨none, some .tau⟩
        { x.both c (.storing op a) { x.hazard with
          status := update x.hazard.status a .allocated } with
          snapshots := update x.snapshots a snapshot }
  /-- `snapshot_.store(new_snapshot)`, with what has been done before it. -/
  | store {x} (c op a old) (h : x.places c = .storing op a)
      (hlocation : x.hazard.locations () = some old) :
      Step thread x ⟨some .tau, some .tau⟩
        ((x.write (SyncMap.locked x.view op).2).both c
          (.retiring op old (SyncMap.locked x.view op).1)
          { x.hazard with locations := update x.hazard.locations () (some a) })
  /-- `Retire(old_snapshot)` is called, and makes a node of the free list. -/
  | retire {x} (c op old res n) (h : x.places c = .retiring op old res)
      (hθ : x.hazard.places (thread c) = .idle) (hn : x.hazard.allocated n = false) :
      Step thread x ⟨none, some (.retire (thread c) old)⟩
        (x.both c (.unlocking op res) ({ x.hazard with
          status := update x.hazard.status old .retired,
          nodes := update x.hazard.nodes n ⟨old, x.hazard.free_list⟩,
          allocated := update x.hazard.allocated n true }.go (thread c) (.pushing n)))
  /-- `Retire` has returned, and the lock is given back. -/
  | unlock {x} (c op res) (h : x.places c = .unlocking op res)
      (hθ : x.hazard.places (thread c) = .idle) :
      Step thread x ⟨none, none⟩ { x.go c (.returning op res) with mutex_ := none }
  | ret {x} (c op res) (h : x.places c = .returning op res) :
      Step thread x ⟨some (.ret c res), none⟩ (x.go c (.returned op res))
  /-- A thread goes on in `Retire` or in `ScanFreeList`. -/
  | background {x t} (h : HazardPtr.Step x.hazard .tau t) (ht : x.hazard.Background t) :
      Step thread x ⟨none, some .tau⟩ { x with hazard := t }
  /-- A snapshot is deleted, and what is left there is anything; and so it is with the maps that no
  `shared_ptr` points to any more. -/
  | delete {x t} (θ a snapshot maps) (h : HazardPtr.Step x.hazard (.delete θ a) t)
      (hmaps : ∀ m, { x with hazard := t }.Live m → maps m = x.maps m) :
      Step thread x ⟨none, some (.delete θ a)⟩
        { x with maps := maps, snapshots := update x.snapshots a snapshot, hazard := t }

/-! ## What is done under the lock, in different memory -/

/-- The same but for maps that are not `live`, and for the calls. -/
structure Alike (live : ℕ → Prop) (s t : State C K V) : Prop where
  maps : ∀ m, live m → s.maps m = t.maps m
  next : s.next = t.next
  snapshot_ : s.snapshot_ = t.snapshot_
  mutable_map_ : s.mutable_map_ = t.mutable_map_
  operation_count_ : s.operation_count_ = t.operation_count_

section Locked

variable {s t : State C K V} {live live' : ℕ → Prop} {op : Op K V}

omit [DecidableEq C] in
theorem snapshot_locked (s : State C K V) (op : Op K V) :
    (locked s op).2.snapshot_ = (renewed s op).getD s.snapshot_ := by
  cases op with
  | lookup key =>
    simp only [locked, lookupLocked, renewed]
    cases s.maps s.snapshot_.read_only key with
    | some value => rfl
    | none =>
      cases s.mutable_map_ with
      | none => rfl
      | some map =>
        dsimp only
        split_ifs <;> rfl
  | insert key value =>
    simp only [locked, insertLocked, renewed]
    cases s.maps s.snapshot_.read_only key with
    | some value => rfl
    | none =>
      cases s.mutable_map_ with
      | none => rfl
      | some map =>
        dsimp only
        cases s.maps map key <;> rfl

omit [DecidableEq C] [DecidableEq K] in
/-- The map of a new snapshot is that of the old one, or the one that was changed. -/
theorem read_only_renewed {snapshot : Snapshot} (h : renewed s op = some snapshot) :
    snapshot.read_only = s.snapshot_.read_only ∨ s.mutable_map_ = some snapshot.read_only := by
  cases op with
  | lookup key =>
    simp only [renewed] at h
    cases hro : s.maps s.snapshot_.read_only key with
    | some value => simp [hro] at h
    | none =>
      cases hmap : s.mutable_map_ with
      | none => simp [hro, hmap] at h
      | some map =>
        simp only [hro, hmap] at h
        split_ifs at h
        obtain rfl := Option.some.inj h
        exact .inr rfl
  | insert key value =>
    simp only [renewed] at h
    cases hro : s.maps s.snapshot_.read_only key with
    | some value => simp [hro] at h
    | none =>
      cases hmap : s.mutable_map_ with
      | none =>
        simp only [hro, hmap] at h
        obtain rfl := Option.some.inj h
        exact .inl rfl
      | some map => simp [hro, hmap] at h

omit [DecidableEq C] [DecidableEq K] in
theorem Alike.mono (h : Alike live s t) (hlive : ∀ m, live' m → live m) : Alike live' s t :=
  ⟨fun m hm ↦ h.maps m (hlive m hm), h.next, h.snapshot_, h.mutable_map_, h.operation_count_⟩

omit [DecidableEq C] [DecidableEq K] in
theorem Alike.renewed (h : Alike live s t) (hro : live s.snapshot_.read_only) :
    renewed s op = renewed t op := by
  cases op with
  | lookup key =>
    simp only [SyncMap.renewed]
    rw [h.maps _ hro, h.snapshot_, h.mutable_map_, h.operation_count_]
  | insert key value =>
    simp only [SyncMap.renewed]
    rw [h.maps _ hro, h.snapshot_, h.mutable_map_]

omit [DecidableEq C] in
/-- **What is done under the lock depends on live maps only.** -/
theorem Alike.locked (h : Alike live s t) (hro : live s.snapshot_.read_only)
    (hmutable : ∀ m, s.mutable_map_ = some m → live m) :
    (locked s op).1 = (locked t op).1 ∧
      Alike (fun m ↦ live m ∨ (locked s op).2.mutable_map_ = some m) (locked s op).2
        (locked t op).2 := by
  obtain ⟨maps, next, snapshot, mutable, count, calls⟩ := s
  obtain ⟨maps', next', snapshot', mutable', count', calls'⟩ := t
  obtain ⟨hmaps, hnext, hsnapshot, hmutable', hcount⟩ := h
  dsimp only at hmaps hnext hsnapshot hmutable' hcount hro hmutable
  subst hnext hsnapshot hmutable' hcount
  have hread := hmaps _ hro
  -- the maps stay, or one of them is changed in both
  have hstay (m : ℕ) (hm : live m ∨ mutable = some m) : maps m = maps' m :=
    hmaps m (hm.elim id (hmutable m))
  have hwrite {n : ℕ} (map : K → Option V) (m : ℕ) (hm : m ≠ n → maps m = maps' m) :
      update maps n map m = update maps' n map m := by
    by_cases hmn : m = n
    · rw [hmn, update_self, update_self]
    · rw [update_of_ne hmn, update_of_ne hmn, hm hmn]
  cases op with
  | lookup key =>
    simp only [SyncMap.locked, lookupLocked, hread]
    cases maps' snapshot.read_only key with
    | some value => exact ⟨rfl, hstay, rfl, rfl, rfl, rfl⟩
    | none =>
      cases mutable with
      | none => exact ⟨rfl, hstay, rfl, rfl, rfl, rfl⟩
      | some map =>
        dsimp only
        rw [hmaps map (hmutable map rfl)]
        split_ifs
        · exact ⟨rfl, fun m hm ↦ hwrite _ m fun _ ↦ hmaps m (hm.resolve_right fun h ↦ by cases h),
            rfl, rfl, rfl, rfl⟩
        · exact ⟨rfl, hstay, rfl, rfl, rfl, rfl⟩
  | insert key value =>
    simp only [SyncMap.locked, insertLocked, hread]
    cases maps' snapshot.read_only key with
    | some value => exact ⟨rfl, hstay, rfl, rfl, rfl, rfl⟩
    | none =>
      cases mutable with
      | none =>
        refine ⟨rfl, fun m hm ↦ hwrite _ m fun hne ↦ hmaps m (hm.resolve_right fun h ↦ ?_), rfl,
          rfl, rfl, rfl⟩
        exact hne (Option.some.inj h).symm
      | some map =>
        dsimp only
        rw [hmaps map (hmutable map rfl)]
        cases maps' map key with
        | none => exact ⟨rfl, fun m hm ↦ hwrite _ m fun _ ↦ hstay m hm, rfl, rfl, rfl, rfl⟩
        | some value => exact ⟨rfl, hstay, rfl, rfl, rfl, rfl⟩

end Locked

/-! ## What holds in every state -/

/-- The calls of the map, as users of hazard pointers. -/
def client (A K V : Type) : HazardPtr.Client (Place A K V) Unit A where
  Active := Place.Active
  protects
    | .reading _ a => some a
    | _ => none
  acquiring
    | .acquiring _ value => some ((), value)
    | _ => none
  active_of_protects {p a} h := by
    cases p with
    | reading => trivial
    | _ => cases h
  active_of_acquiring {p y} h := by
    cases p with
    | acquiring => trivial
    | _ => cases h

/-- The map in its memory, and the map without. -/
structure Remembers (x : Whole C Θ A N K V) (t : State C K V) : Prop where
  alike : Alike x.Live x.view t
  calls : ∀ c, t.calls c = (x.places c).view x.snapshots
  location : ∃ a, x.hazard.locations () = some a
  mutex : ∀ c, (x.places c).Locked → x.mutex_ = some c
  storing : ∀ c op a, x.places c = .storing op a → x.hazard.status a = .allocated ∧
    x.hazard.locations () ≠ some a ∧ renewed t op = some (x.snapshots a)
  retiring : ∀ c op a res, x.places c = .retiring op a res → x.hazard.status a = .allocated ∧
    x.hazard.locations () ≠ some a

/-- The hazard pointers are as they are alone, the calls use them as they have to, and the map is as
it is without memory. -/
structure Whole.Inv (thread : C → Θ) (owned : Option Θ → List N) (holds : Θ → A → Prop)
    (x : Whole C Θ A N K V) (t : State C K V) : Prop where
  hazard : HazardPtr.Inv owned holds x.hazard
  uses : (client A K V).Uses thread holds x.places x.hazard
  memory : Remembers x t

section Memory

variable {thread : C → Θ} {owned : Option Θ → List N} {holds : Θ → A → Prop}
  {x x' : Whole C Θ A N K V} {t : State C K V} {u : Use C Θ A K V}

omit [DecidableEq C] [DecidableEq Θ] [DecidableEq A] [DecidableEq N] [DecidableEq K] in
theorem Whole.snapshot_eq {a : A} (ha : x.hazard.locations () = some a) :
    x.snapshot = x.snapshots a := by
  rw [Whole.snapshot, ha]
  rfl

omit [DecidableEq C] [DecidableEq Θ] [DecidableEq A] [DecidableEq N] [DecidableEq K] in
/-- What `snapshot_` points to has a map. -/
theorem Whole.Inv.snapshot_live (h : x.Inv thread owned holds t) : x.Live x.snapshot.read_only := by
  obtain ⟨a, ha⟩ := h.memory.location
  refine .inr ⟨a, ?_, by rw [Whole.snapshot_eq ha]⟩
  rw [h.hazard.linked ha]
  intro hfree
  cases hfree

omit [DecidableEq C] [DecidableEq Θ] [DecidableEq A] [DecidableEq N] [DecidableEq K] in
/-- What a call reads has not been freed. -/
theorem Whole.Inv.not_free (h : x.Inv thread owned holds t) {c : C} {op : Op K V} {a : A}
    (hc : x.places c = .reading op a) : x.hazard.status a ≠ .free :=
  (h.hazard.held (h.uses.holds (c := c) (by rw [hc]; rfl))).2.2

omit [DecidableEq C] [DecidableEq Θ] [DecidableEq A] [DecidableEq N] [DecidableEq K] in
/-- Only the hazard pointers go on, and neither free nor publish anything. -/
theorem Remembers.outside (h : Remembers x t) {hazard : HazardPtr.State Θ Unit A N}
    (hstatus : hazard.status = x.hazard.status)
    (hlocations : hazard.locations = x.hazard.locations) :
    Remembers { x with hazard := hazard } t := by
  obtain ⟨alike, calls, location, mutex, storing, retiring⟩ := h
  have hview : ({ x with hazard := hazard } : Whole C Θ A N K V).view = x.view := by
    simp only [Whole.view, Whole.snapshot, hlocations]
  have hlive : ({ x with hazard := hazard } : Whole C Θ A N K V).Live = x.Live := by
    unfold Whole.Live
    rw [hstatus]
  exact ⟨by rw [hview, hlive]; exact alike, calls, by rw [hlocations]; exact location, mutex,
    by rw [hstatus, hlocations]; exact storing, by rw [hstatus, hlocations]; exact retiring⟩

omit [DecidableEq Θ] [DecidableEq A] [DecidableEq N] [DecidableEq K] in
/-- A call goes on that is not about to store or to retire. -/
theorem Remembers.go (h : Remembers x t) {c : C} {p : Place A K V} {call : Call K V}
    (hcall : call = p.view x.snapshots) (hlocked : p.Locked → x.mutex_ = some c)
    (hp : (∀ op a, p ≠ .storing op a) ∧ ∀ op a res, p ≠ .retiring op a res) :
    Remembers (x.go c p) { t with calls := update t.calls c call } := by
  have hplaces {d : C} (hd : d ≠ c) : (x.go c p).places d = x.places d := update_of_ne hd _ _
  have hself : (x.go c p).places c = p := update_self _ _ _
  refine ⟨⟨h.alike.maps, h.alike.next, h.alike.snapshot_, h.alike.mutable_map_,
    h.alike.operation_count_⟩, fun d ↦ ?_, h.location, fun d hd ↦ ?_, fun d op a hd ↦ ?_,
    fun d op a res hd ↦ ?_⟩
  · change update t.calls c call d = ((x.go c p).places d).view x.snapshots
    by_cases hdc : d = c
    · subst hdc
      rw [hself, update_self]
      exact hcall
    · rw [hplaces hdc, update_of_ne hdc]
      exact h.calls d
  · by_cases hdc : d = c
    · subst hdc
      exact hlocked (hself ▸ hd)
    · exact h.mutex d (hplaces hdc ▸ hd)
  · by_cases hdc : d = c
    · subst hdc
      exact absurd (hself.symm.trans hd) (hp.1 op a)
    · exact h.storing d op a ((hplaces hdc).symm.trans hd)
  · by_cases hdc : d = c
    · subst hdc
      exact absurd (hself.symm.trans hd) (hp.2 op a res)
    · exact h.retiring d op a res ((hplaces hdc).symm.trans hd)

omit [DecidableEq Θ] [DecidableEq A] [DecidableEq N] [DecidableEq K] in
/-- The same, if the map without memory does not go on. -/
theorem Remembers.stay (h : Remembers x t) {c : C} {p : Place A K V}
    (hcall : p.view x.snapshots = (x.places c).view x.snapshots)
    (hlocked : p.Locked → x.mutex_ = some c)
    (hp : (∀ op a, p ≠ .storing op a) ∧ ∀ op a res, p ≠ .retiring op a res) :
    Remembers (x.go c p) t := by
  have hgo := h.go (c := c) ((h.calls c).trans hcall.symm) hlocked hp
  rwa [Function.update_eq_self] at hgo

omit [DecidableEq C] [DecidableEq Θ] [DecidableEq A] [DecidableEq N] [DecidableEq K] in
/-- Who has the lock is the only one that has it. -/
theorem Remembers.unlocked (h : Remembers x t) {c d : C} (hc : (x.places c).Locked) (hd : d ≠ c) :
    ¬(x.places d).Locked := fun hlocked ↦
  hd (Option.some.inj ((h.mutex d hlocked).symm.trans (h.mutex c hc)))

omit [DecidableEq Θ] [DecidableEq A] [DecidableEq N] in
/-- **The end of a section**: what has been done under the lock shows. -/
theorem Remembers.write (h : Remembers x t) (hlive : x.Live x.snapshot.read_only) {c : C}
    {op : Op K V} {p : Place A K V} {hazard : HazardPtr.State Θ Unit A N} (hc : (x.places c).Locked)
    (hp : p.view x.snapshots = .returning op (locked x.view op).1)
    (hstatus : hazard.status = x.hazard.status)
    (hlocation : ∃ a, hazard.locations () = some a ∧ x.snapshots a = (locked x.view op).2.snapshot_)
    (hstoring : ∀ op a, p ≠ .storing op a)
    (hretiring : ∀ op a res, p = .retiring op a res →
      x.hazard.status a = .allocated ∧ hazard.locations () ≠ some a) :
    Remembers ((x.write (locked x.view op).2).both c p hazard)
      { (locked t op).2 with calls := update t.calls c (.returning op (locked t op).1) } := by
  obtain ⟨hres, halike⟩ := h.alike.locked hlive fun m hm ↦ .inl hm
  set x' := (x.write (locked x.view op).2).both c p hazard with hx'
  have hplaces {d : C} (hd : d ≠ c) : x'.places d = x.places d := update_of_ne hd _ _
  have hself : x'.places c = p := update_self _ _ _
  have hother {d : C} (hd : d ≠ c) : ¬(x'.places d).Locked := by
    rw [hplaces hd]
    exact h.unlocked hc hd
  obtain ⟨a, ha, hsnapshot⟩ := hlocation
  have hview : x'.snapshot = (locked x.view op).2.snapshot_ :=
    (Whole.snapshot_eq (x := x') ha).trans hsnapshot
  refine ⟨⟨fun m hm ↦ halike.maps m ?_, halike.next, hview.trans halike.snapshot_,
    halike.mutable_map_, halike.operation_count_⟩, fun d ↦ ?_, ⟨a, ha⟩, fun d hd ↦ ?_,
    fun d op' b hd ↦ ?_, fun d op' b res hd ↦ ?_⟩
  · rcases hm with hm | ⟨b, hb, hm⟩
    · exact .inr hm
    · rw [show x'.hazard.status = x.hazard.status from hstatus] at hb
      exact .inl (.inr ⟨b, hb, hm⟩)
  · change update t.calls c _ d = (x'.places d).view x.snapshots
    by_cases hdc : d = c
    · subst hdc
      rw [hself, update_self, hp, hres]
    · rw [hplaces hdc, update_of_ne hdc]
      exact h.calls d
  · by_cases hdc : d = c
    · subst hdc
      exact h.mutex d hc
    · exact absurd hd (hother hdc)
  · by_cases hdc : d = c
    · subst hdc
      exact absurd (hself.symm.trans hd) (hstoring op' b)
    · exact absurd (by rw [hd]; trivial) (hother hdc)
  · by_cases hdc : d = c
    · subst hdc
      rw [show x'.hazard.status = x.hazard.status from hstatus]
      exact hretiring op' b res (hself.symm.trans hd)
    · exact absurd (by rw [hd]; trivial) (hother hdc)

omit [DecidableEq Θ] [DecidableEq N] [DecidableEq K] in
/-- A new snapshot is made. -/
theorem Whole.Inv.allocate (h : x.Inv thread owned holds t) {c : C} {op : Op K V} {a : A}
    {snapshot : Snapshot} (hc : x.places c = .locked op) (hnew : renewed x.view op = some snapshot)
    (ha : x.hazard.status a = .free) :
    Remembers
      { x.both c (.storing op a) { x.hazard with
        status := update x.hazard.status a .allocated } with
        snapshots := update x.snapshots a snapshot } t := by
  have hmemory := h.memory
  have hlocked : (x.places c).Locked := by
    rw [hc]
    trivial
  have hlive := h.snapshot_live
  have hin_use {b : A} (hb : x.hazard.status b ≠ .free) : b ≠ a := by
    rintro rfl
    exact hb ha
  obtain ⟨b, hb⟩ := hmemory.location
  have hba : b ≠ a := hin_use (by rw [h.hazard.linked hb]; intro hfree; cases hfree)
  set x' : Whole C Θ A N K V :=
    { x.both c (.storing op a) { x.hazard with status := update x.hazard.status a .allocated } with
      snapshots := update x.snapshots a snapshot } with hx'
  have hplaces {d : C} (hd : d ≠ c) : x'.places d = x.places d := update_of_ne hd _ _
  have hself : x'.places c = .storing op a := update_self _ _ _
  have hsnapshots {b : A} (hb : b ≠ a) : x'.snapshots b = x.snapshots b := update_of_ne hb _ _
  have hsnapshot : x'.snapshot = x.snapshot := by
    rw [Whole.snapshot_eq (x := x') hb, Whole.snapshot_eq hb, hsnapshots hba]
  refine ⟨⟨fun m hm ↦ hmemory.alike.maps m ?_, hmemory.alike.next,
    hsnapshot.trans hmemory.alike.snapshot_, hmemory.alike.mutable_map_,
      hmemory.alike.operation_count_⟩, fun d ↦ ?_, ⟨b, hb⟩, fun d hd ↦ ?_,
    fun d op' e hd ↦ ?_, fun d op' e res hd ↦ ?_⟩
  · rcases hm with hm | ⟨e, he, hm⟩
    · exact .inl hm
    · by_cases hea : e = a
      · subst hea
        rw [show x'.snapshots e = snapshot from update_self _ _ _] at hm
        subst hm
        rcases read_only_renewed hnew with hro | hmutable
        · rw [hro]
          exact hlive
        · exact .inl hmutable
      · rw [hsnapshots hea] at hm
        rw [show x'.hazard.status e = x.hazard.status e from update_of_ne hea _ _] at he
        exact .inr ⟨e, he, hm⟩
  · rw [hmemory.calls d]
    by_cases hdc : d = c
    · subst hdc
      rw [hself, hc]
      rfl
    · rw [hplaces hdc]
      cases hplace : x.places d with
      | reading op' e =>
        rw [Place.view, Place.view, hsnapshots (hin_use (h.not_free hplace))]
      | _ => rfl
  · by_cases hdc : d = c
    · subst hdc
      exact hmemory.mutex d hlocked
    · rw [hplaces hdc] at hd
      exact hmemory.mutex d hd
  · by_cases hdc : d = c
    · subst hdc
      obtain ⟨rfl, rfl⟩ := Place.storing.inj (hself.symm.trans hd)
      refine ⟨update_self _ _ _, ?_, ?_⟩
      · change x.hazard.locations () ≠ some a
        rw [hb]
        exact fun heq ↦ hba (Option.some.inj heq)
      · rw [← hmemory.alike.renewed hlive, hnew]
        exact congrArg some (update_self a snapshot x.snapshots).symm
    · rw [hplaces hdc] at hd
      exact absurd (by rw [hd]; trivial) (hmemory.unlocked hlocked hdc)
  · by_cases hdc : d = c
    · subst hdc
      cases hself.symm.trans hd
    · rw [hplaces hdc] at hd
      exact absurd (by rw [hd]; trivial) (hmemory.unlocked hlocked hdc)

omit [DecidableEq C] [DecidableEq K] in
/-- A snapshot is deleted: no call reads it, and none that is left has its map. -/
theorem Whole.Inv.delete (h : x.Inv thread owned holds t)
    {hazard : HazardPtr.State Θ Unit A N} {θ : Θ} {a : A} {snapshot : Snapshot}
    {maps : ℕ → K → Option V}
    (hstep : HazardPtr.Step x.hazard (.delete θ a) hazard)
    (hmaps : ∀ m, { x with hazard := hazard }.Live m → maps m = x.maps m) :
    Remembers
      { x with maps := maps, snapshots := update x.snapshots a snapshot, hazard := hazard } t := by
  have hmemory := h.memory
  obtain ⟨hretired, hnobody⟩ := h.hazard.not_holds_of_delete hstep
  have hallocated {b : A} (hb : x.hazard.status b = .allocated) : b ≠ a := by
    rintro rfl
    rw [hretired] at hb
    cases hb
  have hstatus : hazard.status = update x.hazard.status a .free := by
    cases hstep with
    | delete => rfl
  have hlocations : hazard.locations = x.hazard.locations := by
    cases hstep with
    | delete => rfl
  set x' : Whole C Θ A N K V :=
    { x with maps := maps, snapshots := update x.snapshots a snapshot, hazard := hazard } with hx'
  have hsnapshots {b : A} (hb : b ≠ a) : x'.snapshots b = x.snapshots b := update_of_ne hb _ _
  obtain ⟨b, hb⟩ := hmemory.location
  have hb' : x'.hazard.locations () = some b := by
    change hazard.locations () = some b
    rw [hlocations, hb]
  have hsnapshot : x'.snapshot = x.snapshot := by
    rw [Whole.snapshot_eq hb', Whole.snapshot_eq hb, hsnapshots (hallocated (h.hazard.linked hb))]
  -- a map that is still live was so before, and has not been freed
  have hlive (m : ℕ) (hm : x'.Live m) : ({ x with hazard := hazard } : Whole C Θ A N K V).Live m ∧
      x.Live m := by
    rcases hm with hm | ⟨e, he, hm⟩
    · exact ⟨.inl hm, .inl hm⟩
    · have he' : e ≠ a := by
        rintro rfl
        apply he
        change hazard.status e = .free
        rw [hstatus, update_self]
      rw [hsnapshots he'] at hm
      refine ⟨.inr ⟨e, he, hm⟩, .inr ⟨e, ?_, hm⟩⟩
      change hazard.status e ≠ .free at he
      rwa [hstatus, update_of_ne he'] at he
  refine ⟨⟨fun m hm ↦ ?_, hmemory.alike.next, hsnapshot.trans hmemory.alike.snapshot_,
    hmemory.alike.mutable_map_, hmemory.alike.operation_count_⟩, fun d ↦ ?_, ⟨b, hb'⟩,
    hmemory.mutex, fun d op e hd ↦ ?_, fun d op e res hd ↦ ?_⟩
  · obtain ⟨hm', hm⟩ := hlive m hm
    exact (hmaps m hm').trans (hmemory.alike.maps m hm)
  · rw [hmemory.calls d]
    change (x.places d).view x.snapshots = (x.places d).view x'.snapshots
    cases hplace : x.places d with
    | reading op e =>
      have hne : e ≠ a := by
        rintro rfl
        exact hnobody _ (h.uses.holds (c := d) (by rw [hplace]; rfl))
      rw [Place.view, Place.view, hsnapshots hne]
    | _ => rfl
  · obtain ⟨he, hlocation, hnew⟩ := hmemory.storing d op e hd
    refine ⟨?_, ?_, ?_⟩
    · change hazard.status e = .allocated
      rw [hstatus, update_of_ne (hallocated he), he]
    · change hazard.locations () ≠ some e
      rwa [hlocations]
    · rw [hnew, hsnapshots (hallocated he)]
  · obtain ⟨he, hlocation⟩ := hmemory.retiring d op e res hd
    refine ⟨?_, ?_⟩
    · change hazard.status e = .allocated
      rw [hstatus, update_of_ne (hallocated he), he]
    · change hazard.locations () ≠ some e
      rwa [hlocations]

omit [DecidableEq Θ] [DecidableEq N] [DecidableEq K] in
/-- The old snapshot is retired. -/
theorem Remembers.retire (h : Remembers x t) {c : C} {op : Op K V} {a : A} {res : Res V}
    (hc : x.places c = .retiring op a res) {hazard : HazardPtr.State Θ Unit A N}
    (hstatus : hazard.status = update x.hazard.status a .retired)
    (hlocations : hazard.locations = x.hazard.locations) :
    Remembers (x.both c (.unlocking op res) hazard) t := by
  have hlocked : (x.places c).Locked := by
    rw [hc]
    trivial
  have hgo := h.stay (c := c) (p := .unlocking op res) (by rw [hc]; rfl) (fun _ ↦ h.mutex c hlocked)
    (by simp)
  have hother {d : C} (hd : ((x.both c (.unlocking op res) hazard).places d).Locked) :
      (x.both c (.unlocking op res) hazard).places d = .unlocking op res := by
    obtain rfl := Option.some.inj ((hgo.mutex d hd).symm.trans (h.mutex c hlocked))
    exact update_self _ _ _
  obtain ⟨a₀, ha₀⟩ := h.location
  have hview : (x.both c (.unlocking op res) hazard).view = (x.go c (.unlocking op res)).view := by
    simp only [Whole.view, Whole.snapshot, Whole.both, Whole.go, hlocations]
  have hlive (m : ℕ) (hm : (x.both c (.unlocking op res) hazard).Live m) :
      (x.go c (.unlocking op res)).Live m := by
    refine hm.imp id ?_
    rintro ⟨b, hb, hm⟩
    refine ⟨b, ?_, hm⟩
    by_cases hba : b = a
    · subst hba
      change x.hazard.status b ≠ .free
      rw [(h.retiring c op b res hc).1]
      intro hfree
      cases hfree
    · change hazard.status b ≠ .free at hb
      rwa [hstatus, update_of_ne hba] at hb
  refine ⟨?_, hgo.calls, ⟨a₀, ?_⟩, hgo.mutex, fun d op' b hd ↦ ?_, fun d op' b res' hd ↦ ?_⟩
  · rw [hview]
    exact hgo.alike.mono hlive
  · change hazard.locations () = some a₀
    rw [hlocations, ha₀]
  · cases hd.symm.trans (hother (by rw [hd]; trivial))
  · cases hd.symm.trans (hother (by rw [hd]; trivial))

omit [DecidableEq Θ] [DecidableEq A] [DecidableEq N] [DecidableEq K] in
/-- A call takes the lock. -/
theorem Remembers.lock (h : Remembers x t) {c : C} {op : Op K V} (hc : x.places c = .waiting op)
    (hmutex : x.mutex_ = none) : Remembers { x.go c (.locked op) with mutex_ := some c } t := by
  have hfree (d : C) : ¬(x.places d).Locked := by
    intro hd
    cases hmutex.symm.trans (h.mutex d hd)
  have hcalls (d : C) : t.calls d = (update x.places c (.locked op) d).view x.snapshots := by
    rw [h.calls d]
    by_cases hdc : d = c
    · subst hdc
      rw [update_self, hc]
      rfl
    · rw [update_of_ne hdc]
  have hplace {d : C} {p : Place A K V} (hd : update x.places c (.locked op) d = p) :
      p = .locked op ∧ d = c ∨ x.places d = p := by
    by_cases hdc : d = c
    · subst hdc
      rw [update_self] at hd
      exact .inl ⟨hd.symm, rfl⟩
    · rw [update_of_ne hdc] at hd
      exact .inr hd
  refine ⟨⟨h.alike.maps, h.alike.next, h.alike.snapshot_, h.alike.mutable_map_,
    h.alike.operation_count_⟩, hcalls, h.location, fun d hd ↦ ?_, fun d op' a hd ↦ ?_,
      fun d op' a res hd ↦ ?_⟩
  · rcases hplace (d := d) rfl with ⟨-, rfl⟩ | hold
    · rfl
    · exact absurd (by rw [hold]; exact hd) (hfree d)
  · rcases hplace hd with ⟨heq, -⟩ | hold
    · cases heq
    · exact h.storing d op' a hold
  · rcases hplace hd with ⟨heq, -⟩ | hold
    · cases heq
    · exact h.retiring d op' a res hold

omit [DecidableEq Θ] [DecidableEq A] [DecidableEq N] [DecidableEq K] in
/-- A call gives the lock back. -/
theorem Remembers.unlock (h : Remembers x t) {c : C} {op : Op K V} {res : Res V}
    (hc : x.places c = .unlocking op res) :
    Remembers { x.go c (.returning op res) with mutex_ := none } t := by
  have hlocked : (x.places c).Locked := by
    rw [hc]
    trivial
  have hgo := h.stay (c := c) (p := .returning op res) (by rw [hc]; rfl) (fun h ↦ h.elim)
    (by simp)
  refine ⟨⟨hgo.alike.maps, hgo.alike.next, hgo.alike.snapshot_, hgo.alike.mutable_map_,
    hgo.alike.operation_count_⟩, hgo.calls, hgo.location, fun d hd ↦ ?_, hgo.storing, hgo.retiring⟩
  have hdc : d = c := Option.some.inj ((hgo.mutex d hd).symm.trans (h.mutex c hlocked))
  subst hdc
  have hself : (x.go d (.returning op res)).places d = .returning op res := update_self _ _ _
  change ((x.go d (.returning op res)).places d).Locked at hd
  rw [hself] at hd
  exact hd.elim

/-! ## The steps -/

/-- Who holds what after a step. -/
def Use.after (holds : Θ → A → Prop) (u : Use C Θ A K V) : Θ → A → Prop :=
  match u.hazard with
  | none => holds
  | some l => l.after holds

omit [DecidableEq C] [DecidableEq Θ] [DecidableEq A] [DecidableEq N] [DecidableEq K] in
/-- Most steps do not change who holds what. -/
theorem Use.after_of_quiet {o : Option (Lib.Label C (Op K V) (Res V))} {l : HazardPtr.Label Θ A}
    (hacquired : ∀ θ a, l ≠ .acquired θ a) (hkeeps : ∀ θ, ¬l.GivesUp θ) :
    (Use.mk o (some l)).after holds = holds :=
  HazardPtr.Label.after_of_quiet hacquired hkeeps

/-- For the hazard pointers it is a step as they make them alone: what is published is in use, and
what is retired is in use and not published. -/
theorem Whole.Inv.hazard_moves (h : x.Inv thread owned holds t) (hstep : Whole.Step thread x u x') :
    Moves HazardPtr.Step x.hazard u.hazard x'.hazard := by
  cases hstep with
  | register θ h hlock => exact .register θ h hlock
  | unregister θ h | background h => exact h
  | delete θ a snapshot maps h => exact h
  | call | read | lock | «section» | unlock | ret => rfl
  | acquire c op hc hθ =>
    exact .acquire (thread c) () hθ (h.uses.registered (c := c) (by rw [hc]; trivial))
  | publish c op value hc hθ => exact .store (thread c) () value hθ
  | again c op value hc hθ hlocation => exact .again (thread c) () value hθ hlocation
  | acquired c op a hc hθ hlocation => exact .acquired (thread c) () (some a) hθ hlocation
  | release c op res hc hθ => exact .release (thread c) hθ
  | allocate c op a snapshot hc hnew ha => exact .allocate a ha
  | store c op a old hc hlocation =>
    refine .exchange () (some a) fun b hb ↦ ?_
    obtain rfl := Option.some.inj hb
    exact (h.memory.storing c op a hc).1
  | retire c op old res n hc hθ hn =>
    obtain ⟨hallocated, hlocation⟩ := h.memory.retiring c op old res hc
    exact .retire (thread c) old n hθ hallocated (fun _ ↦ hlocation) hn

omit [DecidableEq Θ] [DecidableEq A] [DecidableEq N] [DecidableEq K] in
/-- A call goes on that the hazard pointers do not see. -/
theorem Whole.Inv.uses_go (h : x.Inv thread owned holds t) {c : C} {p : Place A K V}
    (hc : (x.places c).Active) (hp : (client A K V).protects p = none ∧
      (client A K V).acquiring p = none) :
    (client A K V).Uses thread holds (update x.places c p) x.hazard := by
  refine h.uses.go hc (fun _ _ ↦ rfl) rfl (fun _ _ _ h ↦ h) (fun a ha ↦ ?_) fun ptr value hv ↦ ?_
  · cases hp.1.symm.trans ha
  · cases hp.2.symm.trans hv

/-- Each step uses the hazard pointers as it has to. -/
theorem Whole.Inv.uses_step (h : x.Inv thread owned holds t) (hstep : Whole.Step thread x u x') :
    (client A K V).Uses thread (u.after holds) x'.places x'.hazard := by
  have huses := h.uses
  cases hstep with
  | register θ hθ hlock =>
    rw [Use.after_of_quiet (by simp) (by simp [HazardPtr.Label.GivesUp])]
    exact huses.outside (fun _ _ ↦ rfl) fun θ' hθ' ↦ List.mem_cons_of_mem θ hθ'
  | unregister θ hunregister hcalls => exact huses.unregister hunregister hcalls
  | call c op hc hθ hregistered hcalls =>
    refine huses.move c (fun d _ hd ↦ hcalls d hd) hregistered (fun d hd ↦ update_of_ne hd _ _)
      (fun _ _ ↦ rfl) rfl (fun _ _ _ h ↦ h) (fun a ha ↦ ?_) fun ptr value hv ↦ ?_
    · rw [show (x.go c (.called op)).places c = _ from update_self _ _ _] at ha
      cases ha
    · rw [show (x.go c (.called op)).places c = _ from update_self _ _ _] at hv
      cases hv
  | acquire c op hc hθ =>
    refine huses.go (by rw [hc]; trivial) (fun θ hθ ↦ update_of_ne hθ _ _) rfl
      (HazardPtr.after_of_ne (thread c) (by simp [HazardPtr.Label.GivesUp]))
        (fun a ha ↦ by cases ha)
      fun ptr value hv ↦ ?_
    cases hv
    exact .inl (update_self _ _ _)
  | publish c op value hc hθ =>
    rw [Use.after_of_quiet (by simp) (by simp [HazardPtr.Label.GivesUp])]
    have hmove := huses.go (c := c) (t := { x.hazard with
        hazard_ptr := update x.hazard.hazard_ptr (thread c) value }.go (thread c)
          (.validating () value))
      (p := x.places c) (by rw [hc]; trivial) (fun θ hθ ↦ update_of_ne hθ _ _) rfl (fun _ _ _ h ↦ h)
      (fun a ha ↦ huses.holds ha) fun ptr v hv ↦ ?_
    · rwa [Function.update_eq_self] at hmove
    · rw [hc] at hv
      cases hv
      exact .inr (update_self _ _ _)
  | again c op value hc hθ hlocation =>
    rw [Use.after_of_quiet (by simp) (by simp [HazardPtr.Label.GivesUp])]
    refine huses.go (by rw [hc]; trivial) (fun θ hθ ↦ update_of_ne hθ _ _) rfl (fun _ _ _ h ↦ h)
      (fun a ha ↦ by cases ha) fun ptr v hv ↦ ?_
    cases hv
    exact .inl (update_self _ _ _)
  | acquired c op a hc hθ hlocation =>
    refine huses.go (by rw [hc]; trivial) (fun θ hθ ↦ update_of_ne hθ _ _) rfl
      (HazardPtr.after_of_ne (thread c) (by simp [HazardPtr.Label.GivesUp])) (fun b hb ↦ ?_)
      fun ptr v hv ↦ by cases hv
    cases hb
    exact .inl rfl
  | read c op a hc => exact h.uses_go (by rw [hc]; trivial) ⟨rfl, rfl⟩
  | release c op res hc hθ =>
    refine huses.go (by rw [hc]; trivial) (fun _ _ ↦ rfl) rfl
      (HazardPtr.after_of_ne (thread c) (by simp [HazardPtr.Label.GivesUp])) (fun b hb ↦ ?_)
      fun ptr v hv ↦ ?_
    · cases res <;> cases hb
    · cases res <;> cases hv
  | lock c op hc hmutex => exact h.uses_go (by rw [hc]; trivial) ⟨rfl, rfl⟩
  | «section» c op hc hnew => exact h.uses_go (by rw [hc]; trivial) ⟨rfl, rfl⟩
  | allocate c op a snapshot hc hnew ha =>
    rw [Use.after_of_quiet (by simp) (by simp [HazardPtr.Label.GivesUp])]
    exact (h.uses_go (c := c) (p := .storing op a) (by rw [hc]; trivial) ⟨rfl, rfl⟩).outside
      (fun _ _ ↦ rfl) fun _ hmem ↦ hmem
  | store c op a old hc hlocation =>
    rw [Use.after_of_quiet (by simp) (by simp [HazardPtr.Label.GivesUp])]
    exact (h.uses_go (c := c) (by rw [hc]; trivial) ⟨rfl, rfl⟩).outside
      (fun _ _ ↦ rfl) fun _ hmem ↦ hmem
  | retire c op old res n hc hθ hn =>
    rw [Use.after_of_quiet (by simp) (by simp [HazardPtr.Label.GivesUp])]
    exact huses.go (by rw [hc]; trivial) (fun θ hθ ↦ update_of_ne hθ _ _) rfl (fun _ _ _ h ↦ h)
      (fun b hb ↦ by cases hb) fun ptr v hv ↦ by cases hv
  | unlock c op res hc hθ => exact h.uses_go (by rw [hc]; trivial) ⟨rfl, rfl⟩
  | ret c op res hc => exact h.uses_go (by rw [hc]; trivial) ⟨rfl, rfl⟩
  | @background hazard hbackground ht =>
    rw [Use.after_of_quiet (by simp) (by simp [HazardPtr.Label.GivesUp])]
    exact huses.outside ht.places fun θ hθ ↦ by rwa [ht.threads]
  | delete θ a snapshot maps hdelete hmaps =>
    rw [Use.after_of_quiet (by simp) (by simp [HazardPtr.Label.GivesUp])]
    exact huses.delete hdelete

omit [DecidableEq C] [DecidableEq Θ] [DecidableEq A] [DecidableEq N] [DecidableEq K] in
/-- A call is in the map without memory where its place says. -/
theorem Whole.Inv.call_eq (h : x.Inv thread owned holds t) {c : C} {p : Place A K V}
    (hc : x.places c = p) : t.calls c = p.view x.snapshots :=
  (h.memory.calls c).trans (by rw [hc])

/-- **Each step is one of the map without memory**, or none. -/
theorem Whole.Inv.map_moves (h : x.Inv thread owned holds t) (hstep : Whole.Step thread x u x') :
    ∃ t', Moves SyncMap.Step t u.map t' ∧ Remembers x' t' := by
  have hmemory := h.memory
  cases hstep with
  | register θ hθ hlock => exact ⟨t, rfl, hmemory.outside rfl rfl⟩
  | unregister θ hunregister hcalls =>
    cases hunregister with
    | unregister => exact ⟨t, rfl, hmemory.outside rfl rfl⟩
  | call c op hc hθ hregistered hcalls =>
    exact ⟨_, .call c op (h.call_eq hc), hmemory.go rfl (fun h ↦ h.elim) (by simp)⟩
  | acquire c op hc hθ =>
    refine ⟨t, rfl,
      (hmemory.stay (p := .acquiring op _) ?_ (fun h ↦ h.elim) (by simp)).outside rfl rfl⟩
    rw [hc]
    rfl
  | publish c op value hc hθ => exact ⟨t, rfl, hmemory.outside rfl rfl⟩
  | again c op value hc hθ hlocation =>
    refine ⟨t, rfl,
      (hmemory.stay (p := .acquiring op _) ?_ (fun h ↦ h.elim) (by simp)).outside rfl rfl⟩
    rw [hc]
    rfl
  | acquired c op a hc hθ hlocation =>
    refine ⟨_, .acquire c op (h.call_eq hc),
      (hmemory.go (p := .reading op a) ?_ (fun h ↦ h.elim) (by simp)).outside rfl rfl⟩
    rw [← hmemory.alike.snapshot_, Place.view]
    exact congrArg (Call.acquired op) (Whole.snapshot_eq hlocation)
  | read c op a hc =>
    refine ⟨_, .read c op (x.snapshots a) (h.call_eq hc),
      hmemory.go (c := c) ?_ (fun h ↦ h.elim) (by simp)⟩
    rw [Place.view]
    refine congrArg (fun r ↦ Option.elim r (Call.waiting op) (Call.returning op)) ?_
    exact (readSnapshot_congr (hmemory.alike.maps _ (.inr ⟨a, h.not_free hc, rfl⟩)) op).symm
  | release c op res hc hθ =>
    refine ⟨t, rfl, (hmemory.stay (c := c) ?_ ?_ ?_).outside rfl rfl⟩
    · rw [hc]
      cases res <;> rfl
    · cases res <;> exact fun h ↦ h.elim
    · cases res <;> simp
  | lock c op hc hmutex => exact ⟨t, rfl, hmemory.lock hc hmutex⟩
  | «section» c op hc hnew =>
    obtain ⟨a, ha⟩ := hmemory.location
    refine ⟨_, .lock c op (h.call_eq hc), hmemory.write h.snapshot_live
      (by rw [hc]; trivial) rfl rfl ⟨a, ha, ?_⟩ (fun _ _ h ↦ by cases h) fun _ _ _ h ↦ by cases h⟩
    rw [snapshot_locked, hnew]
    exact (Whole.snapshot_eq ha).symm
  | allocate c op a snapshot hc hnew ha => exact ⟨t, rfl, h.allocate hc hnew ha⟩
  | store c op a old hc hlocation =>
    obtain ⟨hallocated, hother, hnew⟩ := hmemory.storing c op a hc
    refine ⟨_, .lock c op (h.call_eq hc), hmemory.write h.snapshot_live
      (by rw [hc]; trivial) rfl rfl ⟨a, ?_, ?_⟩ (fun _ _ h ↦ by cases h) fun op' b res hb ↦ ?_⟩
    · exact update_self () (some a) x.hazard.locations
    · rw [snapshot_locked, hmemory.alike.renewed h.snapshot_live, hnew]
      rfl
    · obtain ⟨rfl, rfl, rfl⟩ := Place.retiring.inj hb
      refine ⟨h.hazard.linked hlocation, ?_⟩
      change update x.hazard.locations () (some a) () ≠ some old
      rw [update_self]
      intro heq
      exact hother (heq ▸ hlocation)
  | retire c op old res n hc hθ hn => exact ⟨t, rfl, hmemory.retire hc rfl rfl⟩
  | unlock c op res hc hθ => exact ⟨t, rfl, hmemory.unlock hc⟩
  | ret c op res hc =>
    exact ⟨_, .ret c op res (h.call_eq hc), hmemory.go rfl (fun h ↦ h.elim) (by simp)⟩
  | background hbackground ht => exact ⟨t, rfl, hmemory.outside ht.status ht.locations⟩
  | delete θ a snapshot maps hdelete hmaps => exact ⟨t, rfl, h.delete hdelete hmaps⟩

/-- The invariant is kept. -/
theorem Whole.Inv.step (h : x.Inv thread owned holds t) (hstep : Whole.Step thread x u x') :
    ∃ t', Moves SyncMap.Step t u.map t' ∧ ∃ owned', x'.Inv thread owned' (u.after holds) t' := by
  obtain ⟨t', hmoves, hmemory⟩ := h.map_moves hstep
  have huses := h.uses_step hstep
  have hhazard : ∃ owned', HazardPtr.Inv owned' (u.after holds) x'.hazard := by
    have hmoves := h.hazard_moves hstep
    rw [Use.after]
    cases hu : u.hazard with
    | none =>
      rw [hu, Lib.moves_none] at hmoves
      exact ⟨owned, hmoves ▸ h.hazard⟩
    | some l =>
      rw [hu, Lib.moves_some] at hmoves
      obtain ⟨owned', hinv, -⟩ := h.hazard.step hmoves
      exact ⟨owned', hinv⟩
  obtain ⟨owned', hhazard⟩ := hhazard
  exact ⟨t', hmoves, owned', hhazard, huses, hmemory⟩

omit [DecidableEq C] [DecidableEq Θ] [DecidableEq N] [DecidableEq K] in
theorem Whole.inv_init (thread : C → Θ) (a : A) (nodes : N → HazardPtr.RetiredPtr A N)
    (snapshots : A → Snapshot) :
    (Whole.init a nodes snapshots : Whole C Θ A N K V).Inv thread (fun _ ↦ []) (fun _ _ ↦ False)
      SyncMap.init where
  hazard := ((HazardPtr.inv_init nodes).allocate (a := a) rfl).exchange (by
    intro b hb
    obtain rfl := Option.some.inj hb
    exact update_self _ _ _)
  uses := by
    refine ⟨?_, ?_, ?_, ?_⟩
    · intro c b h
      cases h
    · intro c ptr value h
      cases h
    · intro c h
      exact h.elim
    · intro c d h
      exact h.elim
  memory := by
    have hlocation : (Whole.init a nodes snapshots : Whole C Θ A N K V).hazard.locations () =
        some a := by
      simp [Whole.init]
    have hsnapshot : (Whole.init a nodes snapshots : Whole C Θ A N K V).snapshot = ⟨0, false⟩ := by
      rw [Whole.snapshot_eq hlocation]
      simp [Whole.init]
    refine ⟨⟨fun _ _ ↦ rfl, rfl, hsnapshot, rfl, rfl⟩, fun _ ↦ rfl, ⟨a, hlocation⟩, ?_, ?_, ?_⟩
    · intro c h
      exact h.elim
    · intro c op b h
      cases h
    · intro c op b res h
      cases h

end Memory

/-! ## The main result -/

/-- **The map works in memory that is given back.**  Nothing is promised about how it uses the
hazard pointers: in every run of the two together, what happens to the map is a run of the map whose
memory is never given back, and what happens to the hazard pointers a run of them under their
promises.  A call that reads a snapshot reads memory that has not been freed, and finds there what
it would find if no memory ever were.  So the map is linearizable. -/
theorem map_over_hazard_pointers {thread : C → Θ} {a : A} {nodes : N → HazardPtr.RetiredPtr A N}
    {snapshots : A → Snapshot} {h : List (Whole C Θ A N K V × Use C Θ A K V)}
    {x : Whole C Θ A N K V}
    (hrun : Trace (Whole.Step thread) (Whole.init a nodes snapshots) h x) :
    (∃ h₁ t, Trace SyncMap.Step init h₁ t ∧ (h₁.map Prod.snd = h.filterMap fun y ↦ y.2.map) ∧
      ∀ c op b, x.places c = .reading op b → x.hazard.status b ≠ .free ∧
        t.calls c = .acquired op (x.snapshots b) ∧
        x.maps (x.snapshots b).read_only = t.maps (x.snapshots b).read_only) ∧
    (∃ h₂, Trace HazardPtr.Step (HazardPtr.init nodes) h₂ x.hazard ∧
      h₂.map Prod.snd = [.tau, .tau] ++ h.filterMap fun y ↦ y.2.hazard) ∧
    ∃ h₃ o, Trace (Atomic.Step apply) (.init fun _ ↦ none) h₃ o ∧
      h₃.map Prod.snd = h.filterMap fun y ↦ y.2.map := by
  have hinit := Whole.inv_init (C := C) (K := K) (V := V) thread a nodes snapshots
  have hkept (x : Whole C Θ A N K V) (u : Use C Θ A K V) (x' : Whole C Θ A N K V) (t : State C K V)
      (hx : ∃ owned holds, x.Inv thread owned holds t) (hstep : Whole.Step thread x u x') :
      ∃ t', Moves SyncMap.Step t u.map t' ∧ ∃ owned holds, x'.Inv thread owned holds t' := by
    obtain ⟨owned, holds, hx⟩ := hx
    obtain ⟨t', hmoves, owned', hx'⟩ := hx.step hstep
    exact ⟨t', hmoves, owned', _, hx'⟩
  have hinv (x : Whole C Θ A N K V) (u : Use C Θ A K V) (x' : Whole C Θ A N K V)
      (hx : ∃ owned holds t, x.Inv thread owned holds t) (hstep : Whole.Step thread x u x') :
      ∃ owned holds t, x'.Inv thread owned holds t := by
    obtain ⟨owned, holds, t, hx⟩ := hx
    obtain ⟨t', -, owned', hx'⟩ := hx.step hstep
    exact ⟨owned', _, t', hx'⟩
  obtain ⟨h₁, t, hmap, hlabels₁, owned, holds, hx⟩ :=
    hrun.follow Use.map ⟨_, _, hinit⟩ hkept
  obtain ⟨h₂, hhazard, hlabels₂⟩ := hrun.project Whole.hazard Use.hazard ⟨_, _, _, hinit⟩ hinv
    fun x u x' hx hstep ↦ by
      obtain ⟨_, _, _, hx⟩ := hx
      exact hx.hazard_moves hstep
  obtain ⟨h₃, o, hatomic, hlabels₃, -⟩ :=
    hmap.simulation implements_init fun _ _ _ _ hR hstep ↦ hR.step hstep
  refine ⟨⟨h₁, t, hmap, hlabels₁, fun c op b hc ↦ ⟨hx.not_free hc, hx.call_eq hc,
    hx.memory.alike.maps _ (.inr ⟨b, hx.not_free hc, rfl⟩)⟩⟩, ?_, h₃, o, hatomic,
      hlabels₃.trans hlabels₁⟩
  refine ⟨_, .cons (.allocate a rfl) (.cons (.exchange () (some a) fun b hb ↦ ?_) hhazard), ?_⟩
  · obtain rfl := Option.some.inj hb
    exact update_self _ _ _
  · simp [hlabels₂]

/-- A snapshot is retired while a call reads it. -/
theorem map_over_hazard_pointers_retired :
    ∃ (h : List (Whole Bool Bool ℕ ℕ ℕ ℕ × Use Bool Bool ℕ ℕ ℕ)) (x : Whole Bool Bool ℕ ℕ ℕ ℕ),
      Trace (Whole.Step fun c ↦ c) (Whole.init 0 (fun _ ↦ ⟨0, none⟩) fun _ ↦ ⟨0, false⟩) h x ∧
        x.hazard.status 0 = .retired ∧ x.places true = .reading (.lookup 7) 0 ∧
        ∃ t : State Bool ℕ ℕ, t.calls true = .acquired (.lookup 7) (x.snapshots 0) := by
  have hrun := (.nil : Trace (Whole.Step fun c ↦ c)
      (Whole.init 0 (fun _ ↦ ⟨0, none⟩) fun _ ↦ ⟨0, false⟩ : Whole Bool Bool ℕ ℕ ℕ ℕ) [] _)
    |>.snoc (.register true rfl rfl)
    |>.snoc (.register false rfl rfl)
    |>.snoc (.call true (.lookup 7) rfl rfl (by simp) (by simp [Whole.init, Place.Active]))
    |>.snoc (.acquire true _ rfl rfl)
    |>.snoc (.publish true _ _ rfl rfl)
    |>.snoc (.acquired true _ 0 rfl rfl rfl)
    |>.snoc (.call false (.insert 7 1) rfl rfl List.mem_cons_self (by
      intro d hd
      cases d with
      | false => exact hd.elim
      | true => simp))
    |>.snoc (.acquire false _ rfl rfl)
    |>.snoc (.publish false _ _ rfl rfl)
    |>.snoc (.acquired false _ 0 rfl rfl rfl)
    |>.snoc (.read false _ 0 rfl)
    |>.snoc (.release false _ _ rfl rfl)
    |>.snoc (.lock false _ rfl rfl)
    |>.snoc (.allocate false _ 1 ⟨0, true⟩ rfl rfl rfl)
    |>.snoc (.store false _ 1 0 rfl rfl)
    |>.snoc (.retire false _ 0 _ 0 rfl rfl rfl)
  obtain ⟨-, t, -, -, hreads⟩ := (map_over_hazard_pointers hrun).1
  exact ⟨_, _, hrun, rfl, rfl, t, (hreads true _ 0 rfl).2.1⟩

end SyncMap
end ManyTasks
