import ManyTasks.Lib.Chain
import ManyTasks.Lib.Transition

/-!
# Waiting for file descriptors

An `FDWatcher` has an `FDDesc` of the `Poller` while it watches a file descriptor.  A fiber that
waits for it is stored in the `FDDesc`, as its reader or its writer, and parks; an event, or
`Reset`, clears the slot and puts the fiber on the run queue.  A fiber can also be woken up without
that, by `Cancel` or by a timeout, and then it clears the slot itself, when it runs.  An `FDDesc`
that is given back goes on a free list, and is taken from there again before a new one is made.

All fibers are run by one thread, and a fiber is only left in `Park`, so that what one does in
between is one step.  What fibers do that are not in `Wait` is not followed: they may do anything to
themselves (`Step.elsewhere`).
-/

set_option autoImplicit false

namespace ManyTasks
namespace Cactus
namespace Poller

open Function (update update_self update_of_ne)

/-- `FDDesc`. -/
structure FDDesc (D F : Type) where
  fd : ℤ := -1
  reader : Option F := none
  writer : Option F := none
  next : Option D := none
deriving DecidableEq, Repr

/-- The slot of the reader or of the writer. -/
def FDDesc.slot {D F : Type} (desc : FDDesc D F) (read : Bool) : Option F :=
  if read then desc.reader else desc.writer

def FDDesc.setSlot {D F : Type} (desc : FDDesc D F) (read : Bool) (f : Option F) : FDDesc D F :=
  if read then { desc with reader := f } else { desc with writer := f }

/-- A call of `Wait` that has parked, and the slot it has a reference to. -/
structure Waiting (W D : Type) where
  watcher : W
  desc : D
  read : Bool
deriving DecidableEq, Repr

/-- `FiberImpl`, as far as `Park` looks at it. -/
structure FiberImpl (W D : Type) where
  canceled_ : Bool := false
  timedout_ : Bool := false
  cancel_guarded_ : Bool := false
  /-- Is it on the run queue? -/
  isLinked : Bool := false
  /-- The call of `Wait` it is parked in. -/
  waiting : Option (Waiting W D) := none
deriving DecidableEq, Repr

/-- What `epoll_wait` reports. -/
structure Event (D : Type) where
  ptr : D
  epollin : Bool := false
  epollout : Bool := false
  epollrdhup : Bool := false
  epollhup : Bool := false
  epollerr : Bool := false
deriving DecidableEq, Repr

/-- A `Poller` with its watchers and the fibers. -/
structure State (W D F : Type) where
  descs : D → FDDesc D F
  /-- Is there an `FDDesc` at the address? -/
  allocated : D → Bool
  free_list_ : Option D
  desc_ : W → Option D
  /-- The last `Init` of the watcher threw. -/
  threw : W → Bool
  fibers : F → FiberImpl W D

variable {W D F : Type}

/-- `FDDesc::next`. -/
def State.next (s : State W D F) (d : D) : Option D := (s.descs d).next

/-- No watcher has a descriptor, and nobody waits. -/
def start (descs : D → FDDesc D F) : State W D F where
  descs := descs
  allocated _ := false
  free_list_ := none
  desc_ _ := none
  threw _ := false
  fibers _ := {}

/-! ## Operations -/

section Updates

variable [DecidableEq D] {s : State W D F} {d e : D} {desc : FDDesc D F}

def State.setDesc (s : State W D F) (d : D) (desc : FDDesc D F) : State W D F :=
  { s with descs := update s.descs d desc }

theorem State.setDesc_self : (s.setDesc d desc).descs d = desc := update_self _ _ _

theorem State.setDesc_of_ne (h : e ≠ d) : (s.setDesc d desc).descs e = s.descs e :=
  update_of_ne h _ _

end Updates

section Updates

variable [DecidableEq F] {s : State W D F} {f g : F} {fiber : FiberImpl W D}

def State.setFiber (s : State W D F) (f : F) (fiber : FiberImpl W D) : State W D F :=
  { s with fibers := update s.fibers f fiber }

theorem State.setFiber_self : (s.setFiber f fiber).fibers f = fiber := update_self _ _ _

theorem State.setFiber_of_ne (h : g ≠ f) : (s.setFiber f fiber).fibers g = s.fibers g :=
  update_of_ne h _ _

end Updates

variable [DecidableEq W] [DecidableEq D] [DecidableEq F]

/-- `slot = f` -/
def State.setSlot (s : State W D F) (d : D) (read : Bool) (f : Option F) : State W D F :=
  s.setDesc d ((s.descs d).setSlot read f)

/-- `desc->fd = fd` -/
def State.setFd (s : State W D F) (d : D) (fd : ℤ) : State W D F :=
  s.setDesc d { s.descs d with fd := fd }

/-- `desc_ = desc` -/
def State.setWatcher (s : State W D F) (w : W) (d : Option D) : State W D F :=
  { s with desc_ := update s.desc_ w d }

def State.setThrew (s : State W D F) (w : W) (b : Bool) : State W D F :=
  { s with threw := update s.threw w b }

/-- `FiberImpl::Unpark`. -/
def State.unpark (s : State W D F) (f : F) : State W D F :=
  s.setFiber f { s.fibers f with isLinked := true }

/-- `FiberImpl::Cancel`. -/
def State.cancel (s : State W D F) (f : F) : State W D F :=
  s.setFiber f { s.fibers f with
    canceled_ := true, isLinked := (s.fibers f).isLinked || !(s.fibers f).cancel_guarded_ }

/-- `FiberImpl::NotifyTimeout`. -/
def State.notifyTimeout (s : State W D F) (f : F) : State W D F :=
  s.setFiber f { s.fibers f with
    timedout_ := true, isLinked := (s.fibers f).isLinked || !(s.fibers f).cancel_guarded_ }

/-- `if (slot) { slot->Unpark(); slot = nullptr; }` -/
def State.wake (s : State W D F) (d : D) (read : Bool) : State W D F :=
  match (s.descs d).slot read with
  | some f => (s.unpark f).setSlot d read none
  | none => s

/-- The loop over the events in `Poller::Poll`, for one of them. -/
def State.handle (s : State W D F) (e : Event D) : State W D F :=
  let s' := if e.epollin || e.epollhup || e.epollrdhup || e.epollerr then s.wake e.ptr true else s
  if e.epollout || e.epollhup || e.epollerr then s'.wake e.ptr false else s'

/-- `Poller::Poll`, with the events that `epoll_wait` has written. -/
def State.poll (s : State W D F) (events : List (Event D)) : State W D F :=
  events.foldl State.handle s

def kEpollBatchSize : ℕ := 64

/-- The descriptor that `Poller::NewDesc` returns, if `new` returns `fresh`. -/
def State.newDesc (s : State W D F) (fresh : D) : D := s.free_list_.getD fresh

/-- What `Poller::NewDesc` does. -/
def State.afterNewDesc (s : State W D F) (fresh : D) : State W D F :=
  match s.free_list_ with
  | some d => { s with free_list_ := s.next d }
  | none => { s.setDesc fresh {} with allocated := update s.allocated fresh true }

/-- `Poller::FreeDesc`. -/
def State.freeDesc (s : State W D F) (d : D) : State W D F :=
  { s.setDesc d { s.descs d with next := s.free_list_ } with free_list_ := some d }

/-- `FDWatcher::Init`, up to `epoll_ctl`. -/
def State.addDesc (s : State W D F) (w : W) (fd : ℤ) (fresh : D) : State W D F :=
  ((s.afterNewDesc fresh).setWatcher w (some (s.newDesc fresh))).setFd (s.newDesc fresh) fd

/-- `FDWatcher::Init` when `epoll_ctl` succeeds. -/
def State.init (s : State W D F) (w : W) (fd : ℤ) (fresh : D) : State W D F :=
  (s.addDesc w fd fresh).setThrew w false

/-- `FDWatcher::Init` when `epoll_ctl` fails: the descriptor is freed, and `desc_` is left as it
is. -/
def State.initFails (s : State W D F) (w : W) (fd : ℤ) (fresh : D) : State W D F :=
  (((s.addDesc w fd fresh).setFd (s.newDesc fresh) (-1)).freeDesc (s.newDesc fresh)).setThrew w true

/-- `FDWatcher::Reset`, with the descriptor of the watcher. -/
def State.reset (s : State W D F) (w : W) (d : D) : State W D F :=
  ((((s.setFd d (-1)).wake d false).wake d true).freeDesc d).setWatcher w none

/-- What `check` in `Park` throws, if anything. -/
inductive Exc where
  | canceled
  | timeout
deriving DecidableEq, Repr

/-- `check` in `Park`. -/
def FiberImpl.check (fiber : FiberImpl W D) : Option Exc :=
  if fiber.cancel_guarded_ then none
  else if fiber.canceled_ then some .canceled
  else if fiber.timedout_ then some .timeout
  else none

/-- The fiber after `check`. -/
def FiberImpl.afterCheck (fiber : FiberImpl W D) : FiberImpl W D :=
  match fiber.check with
  | none => fiber
  | some .canceled => { fiber with isLinked := false }
  | some .timeout => { fiber with isLinked := false, timedout_ := false }

/-- The cleanup that `Wait` gives to `Park`. -/
def State.cleanup (s : State W D F) (p : Waiting W D) : State W D F :=
  if (s.desc_ p.watcher).isSome then s.setSlot p.desc p.read none else s

/-- `Wait` up to the switch to another fiber. -/
def State.park (s : State W D F) (f : F) (p : Waiting W D) : State W D F :=
  (s.setSlot p.desc p.read (some f)).setFiber f { s.fibers f with waiting := some p }

/-- `Wait` when `check` throws before the fiber is left. -/
def State.parkThrows (s : State W D F) (f : F) (p : Waiting W D) : State W D F :=
  ((s.setSlot p.desc p.read (some f)).setFiber f (s.fibers f).afterCheck).cleanup p

/-- A fiber is taken from the run queue, and goes on in `Park`.  The cleanup is called whether
`check` throws or not. -/
def State.resume (s : State W D F) (f : F) (p : Waiting W D) : State W D F :=
  (s.setFiber f (FiberImpl.afterCheck
    { s.fibers f with isLinked := false, waiting := none })).cleanup p

/-! ## Steps -/

inductive Label (W D F : Type) where
  | init (w : W) (fd : ℤ)
  /-- `Init`, when `epoll_ctl` fails. -/
  | initFails (w : W) (fd : ℤ)
  | wait (f : F) (w : W) (read : Bool)
  | resume (f : F)
  | poll (events : List (Event D))
  | reset (w : W)
  | cancel (f : F)
  | notifyTimeout (f : F)
  | elsewhere (f : F)
deriving DecidableEq, Repr

/-- One step. -/
inductive Step : State W D F → Label W D F → State W D F → Prop where
  | init {s} (w fd fresh) (hw : s.desc_ w = none)
      (hfresh : s.free_list_ = none → s.allocated fresh = false) :
      Step s (.init w fd) (s.init w fd fresh)
  | initFails {s} (w fd fresh) (hw : s.desc_ w = none)
      (hfresh : s.free_list_ = none → s.allocated fresh = false) :
      Step s (.initFails w fd) (s.initFails w fd fresh)
  /-- `CHECK(!slot)` is `hslot`. -/
  | wait {s} (f w d read) (hf : (s.fibers f).waiting = none) (hw : s.desc_ w = some d)
      (hslot : (s.descs d).slot read = none) (hcheck : (s.fibers f).check = none) :
      Step s (.wait f w read) (s.park f ⟨w, d, read⟩)
  | waitThrows {s} (f w d read) (hf : (s.fibers f).waiting = none) (hw : s.desc_ w = some d)
      (hslot : (s.descs d).slot read = none) (hcheck : (s.fibers f).check ≠ none) :
      Step s (.wait f w read) (s.parkThrows f ⟨w, d, read⟩)
  | resume {s} (f p) (hf : (s.fibers f).waiting = some p) (hlinked : (s.fibers f).isLinked = true) :
      Step s (.resume f) (s.resume f p)
  | poll {s} (events : List (Event D)) (hlen : events.length ≤ kEpollBatchSize) :
      Step s (.poll events) (s.poll events)
  | reset {s} (w d) (hw : s.desc_ w = some d) : Step s (.reset w) (s.reset w d)
  | cancel {s} (f) : Step s (.cancel f) (s.cancel f)
  | notifyTimeout {s} (f) : Step s (.notifyTimeout f) (s.notifyTimeout f)
  /-- A fiber that is not in `Wait` does something, or is parked or woken up. -/
  | elsewhere {s} (f) (fiber : FiberImpl W D) (hf : (s.fibers f).waiting = none)
      (hfiber : fiber.waiting = none) : Step s (.elsewhere f) (s.setFiber f fiber)

/-- No `epoll_ctl` of an `Init` fails here. -/
def Label.Succeeds : Label W D F → Prop
  | .initFails _ _ => False
  | _ => True

end Poller
end Cactus
end ManyTasks
