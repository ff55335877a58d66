import ManyTasks.Lib.Transition
import ManyTasks.Lib.Waiting

/-!
# A channel with a buffer

`Send` waits until the queue has room or the channel is closed, `Recv` until the queue has something
or the channel is closed; each has a condition variable of its own.  Everything that concerns the
queue is done under the mutex `edit_queue_`.  `Close` does not take it: it sets the flag
`is_closed_`, and then notifies first all who wait in `Recv` and then all who wait in `Send`.

So between any two steps that a call does under the mutex the flag may be set.  This is why a
critical section is several steps here: a look at the condition of the wait, going to sleep or going
on, and for `Send` the test of the flag and the push.

A call is known by an identifier of its own.  A thread that makes several calls makes them under
several identifiers, one after the other.
-/

set_option autoImplicit false

namespace ManyTasks
namespace BufferedChannel

open Function (update)

/-- The calls that wait. -/
inductive Op (V : Type) where
  | send (value : V)
  | recv
deriving DecidableEq, Repr

/-- Where a call is. -/
inductive Place (V : Type) where
  | idle
  /-- Before the mutex is taken. -/
  | called (op : Op V)
  /-- Before the wait looks at its condition. -/
  | testing (op : Op V)
  /-- The condition did not hold; the call is about to sleep, and still has the mutex. -/
  | tired (op : Op V)
  | asleep (op : Op V)
  /-- Woken, before the mutex is taken again. -/
  | awake (op : Op V)
  /-- The condition did hold, and the wait is over. -/
  | passed (op : Op V)
  /-- In `Send`, after the test of the flag. -/
  | pushing (value : V)
  /-- In `Close`, before `test_and_set`. -/
  | closing
  /-- In `Close`, before `may_read_.notify_all()`. -/
  | flagged
  /-- In `Close`, before `may_write_.notify_all()`. -/
  | notified
  | sent
  | threw
  | received (value : V)
  | nullopt
  | closed
deriving DecidableEq, Repr

/-- The channel and the calls. -/
structure State (C V : Type) where
  max_size_ : ℕ
  queue_ : List V
  is_closed_ : Bool
  /-- Who holds `edit_queue_`. -/
  edit_queue_ : Option C
  places : C → Place V

variable {C V : Type}

/-- The constructor. -/
def init (size : ℕ) : State C V := ⟨size, [], false, none, fun _ ↦ .idle⟩

/-- What a step is, and whose. -/
inductive Label (C V : Type) where
  | call (c : C)
  /-- The mutex is taken, at the beginning or after a sleep. -/
  | lock (c : C) (op : Op V)
  | test (c : C)
  | sleep (c : C)
  | wakeUp (c : C)
  /-- `Send` throws. -/
  | reject (c : C)
  | accept (c : C) (value : V)
  | receive (c : C) (value : V)
  /-- `Recv` returns `nullopt`. -/
  | nothing (c : C)
  | setFlag (c : C)
  | notifyReaders (c : C)
  /-- The last step of `Close`. -/
  | notifyWriters (c : C)

/-- The condition of the wait. -/
def State.ready (s : State C V) : Op V → Bool
  | .send _ => s.queue_.length < s.max_size_ || s.is_closed_
  | .recv => !s.queue_.isEmpty || s.is_closed_

/-- Who waits on `may_read_`. -/
def awakenReader : Place V → Option (Place V)
  | .asleep .recv => some (.awake .recv)
  | _ => none

/-- Who waits on `may_write_`. -/
def awakenWriter : Place V → Option (Place V)
  | .asleep (.send value) => some (.awake (.send value))
  | _ => none

variable [DecidableEq C]

/-- One step of one call. -/
inductive Step : State C V → Label C V → State C V → Prop where
  | call {s} (c op) (h : s.places c = .idle) :
      Step s (.call c) { s with places := update s.places c (.called op) }
  | enter {s} (c op) (h : s.places c = .called op) (hm : s.edit_queue_ = none) :
      Step s (.lock c op)
        { s with edit_queue_ := some c, places := update s.places c (.testing op) }
  | relock {s} (c op) (h : s.places c = .awake op) (hm : s.edit_queue_ = none) :
      Step s (.lock c op)
        { s with edit_queue_ := some c, places := update s.places c (.testing op) }
  | pass {s} (c op) (h : s.places c = .testing op) (hr : s.ready op = true) :
      Step s (.test c) { s with places := update s.places c (.passed op) }
  | fail {s} (c op) (h : s.places c = .testing op) (hr : s.ready op = false) :
      Step s (.test c) { s with places := update s.places c (.tired op) }
  | sleep {s} (c op) (h : s.places c = .tired op) :
      Step s (.sleep c)
        { s with edit_queue_ := none, places := update s.places c (.asleep op) }
  /-- A wake-up without a reason. -/
  | spurious {s} (c op) (h : s.places c = .asleep op) :
      Step s (.wakeUp c) { s with places := update s.places c (.awake op) }
  | accepted {s} (c value) (h : s.places c = .passed (.send value)) (hc : s.is_closed_ = false) :
      Step s (.test c) { s with places := update s.places c (.pushing value) }
  | reject {s} (c value) (h : s.places c = .passed (.send value)) (hc : s.is_closed_ = true) :
      Step s (.reject c) { s with edit_queue_ := none, places := update s.places c .threw }
  | accept {s} (c value f) (h : s.places c = .pushing value)
      (hf : Lib.NotifyOne awakenReader (update s.places c .sent) f) :
      Step s (.accept c value)
        { s with queue_ := s.queue_ ++ [value], edit_queue_ := none, places := f }
  | receive {s} (c value rest f) (h : s.places c = .passed .recv) (hq : s.queue_ = value :: rest)
      (hf : Lib.NotifyOne awakenWriter (update s.places c (.received value)) f) :
      Step s (.receive c value) { s with queue_ := rest, edit_queue_ := none, places := f }
  | nothing {s} (c) (h : s.places c = .passed .recv) (hq : s.queue_ = []) :
      Step s (.nothing c) { s with edit_queue_ := none, places := update s.places c .nullopt }
  | callClose {s} (c) (h : s.places c = .idle) :
      Step s (.call c) { s with places := update s.places c .closing }
  | setFlag {s} (c) (h : s.places c = .closing) :
      Step s (.setFlag c) { s with is_closed_ := true, places := update s.places c .flagged }
  | notifyReaders {s} (c) (h : s.places c = .flagged) :
      Step s (.notifyReaders c)
        { s with places := update (Lib.notifyAll awakenReader s.places) c .notified }
  | notifyWriters {s} (c) (h : s.places c = .notified) :
      Step s (.notifyWriters c)
        { s with places := update (Lib.notifyAll awakenWriter s.places) c .closed }

/-! ## What a step leaves alone -/

/-- Whose step it is. -/
def Label.actor : Label C V → C
  | .call c | .lock c _ | .test c | .sleep c | .wakeUp c | .reject c | .accept c _ | .receive c _
  | .nothing c | .setFlag c | .notifyReaders c | .notifyWriters c => c

omit [DecidableEq C] in
theorem eq_of_awakenReader {p p' : Place V} (h : awakenReader p = some p') :
    p = .asleep .recv ∧ p' = .awake .recv := by
  unfold awakenReader at h
  split at h
  · exact ⟨rfl, (Option.some.inj h).symm⟩
  · cases h

omit [DecidableEq C] in
theorem eq_of_awakenWriter {p p' : Place V} (h : awakenWriter p = some p') :
    ∃ value, p = .asleep (.send value) ∧ p' = .awake (.send value) := by
  unfold awakenWriter at h
  split at h
  · exact ⟨_, rfl, (Option.some.inj h).symm⟩
  · cases h

/-- Another call stays where it is, or is woken. -/
theorem Step.other {s s' : State C V} {l : Label C V} (h : Step s l s') {c : C} (hc : c ≠ l.actor) :
    s'.places c = s.places c ∨
      ∃ op, s.places c = .asleep op ∧ s'.places c = .awake op := by
  have hreader {f f' : C → Place V} (hf : f' c = f c ∨ awakenReader (f c) = some (f' c))
      (hsame : f c = s.places c) :
      f' c = s.places c ∨ ∃ op, s.places c = .asleep op ∧ f' c = .awake op := by
    rw [← hsame]
    exact hf.imp id fun hf ↦ ⟨.recv, eq_of_awakenReader hf⟩
  have hwriter {f f' : C → Place V} (hf : f' c = f c ∨ awakenWriter (f c) = some (f' c))
      (hsame : f c = s.places c) :
      f' c = s.places c ∨ ∃ op, s.places c = .asleep op ∧ f' c = .awake op := by
    rw [← hsame]
    refine hf.imp id fun hf ↦ ?_
    obtain ⟨value, hold, hnew⟩ := eq_of_awakenWriter hf
    exact ⟨.send value, hold, hnew⟩
  cases h with
  | accept c' value f h hf => exact hreader (hf.apply c) (Function.update_of_ne hc _ _)
  | receive c' value rest f h hq hf => exact hwriter (hf.apply c) (Function.update_of_ne hc _ _)
  | notifyReaders c' h =>
    simp only [Function.update_of_ne (show c ≠ c' from hc)]
    exact hreader (Lib.notifyAll_apply _ _ c) rfl
  | notifyWriters c' h =>
    simp only [Function.update_of_ne (show c ≠ c' from hc)]
    exact hwriter (Lib.notifyAll_apply _ _ c) rfl
  | _ => exact .inl (Function.update_of_ne hc _ _)

end BufferedChannel
end ManyTasks
