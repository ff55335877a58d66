import ManyTasks.Lib.Transition
import ManyTasks.Lib.Waiting

/-!
# A channel without a buffer

`Send` puts an element into the queue and waits until a `Recv` has taken it.  The element has,
besides the value, a flag `is_received` and a condition variable, and both belong to the one call of
`Send`, so that here an element is the value and the call.  `Recv` waits until the queue has an
element, sets its flag and wakes its sender.  `Close` empties the queue and wakes everybody.

All of this is done under the mutex `edit_queue_`, also the changes of the flag `is_closed_`, so
that a critical section is one step.  A call is known by an identifier of its own.
-/

set_option autoImplicit false

namespace ManyTasks
namespace UnbufferedChannel

open Function (update update_self update_of_ne)

/-- The calls that wait. -/
inductive Op (V : Type) where
  | send (value : V)
  | recv
deriving DecidableEq, Repr

/-- Where a call is. -/
inductive Place (C V : Type) where
  | idle
  /-- Before the mutex is taken. -/
  | called (op : Op V)
  /-- In the wait, asleep or not. -/
  | waiting (op : Op V) (awake : Bool)
  | closing
  | sent
  | threw
  | received (sender : C) (value : V)
  | nullopt
  | closed
deriving DecidableEq, Repr

/-- The channel and the calls. -/
structure State (C V : Type) where
  queue_ : List (C × V)
  is_closed_ : Bool
  /-- The flag of the element that the call has made. -/
  is_received : C → Bool
  places : C → Place C V

variable {C V : Type}

/-- The constructor. -/
def init : State C V := ⟨[], false, fun _ ↦ false, fun _ ↦ .idle⟩

/-- What a step is, and whose. -/
inductive Label (C V : Type) where
  | call (c : C)
  /-- `Send` takes the mutex first. -/
  | enter (c : C) (value : V)
  /-- A wait looks at its condition, and it does not hold, or it ends a call without a value. -/
  | test (c : C)
  | wakeUp (c : C)
  | receive (c sender : C) (value : V)
  | close (c : C)

/-- Who waits on `may_read_`. -/
def awakenReader : Place C V → Option (Place C V)
  | .waiting .recv false => some (.waiting .recv true)
  | _ => none

/-- Who waits on the condition variable of its element. -/
def awakenSender : Place C V → Option (Place C V)
  | .waiting (.send value) false => some (.waiting (.send value) true)
  | _ => none

/-- Where `Send` is after it has looked at the condition of its wait. -/
def testSend (is_received is_closed_ : Bool) (value : V) : Place C V :=
  if is_received || is_closed_ then if is_received then .sent else .threw
  else .waiting (.send value) false

variable [DecidableEq C]

/-- `cond_var->notify_one()`, for the element of one call. -/
def notifySender (f : C → Place C V) (c : C) : C → Place C V :=
  update f c ((awakenSender (f c)).getD (f c))

/-- One step of one call. -/
inductive Step : State C V → Label C V → State C V → Prop where
  | call {s} (c op) (h : s.places c = .idle) :
      Step s (.call c) { s with places := update s.places c (.called op) }
  | callClose {s} (c) (h : s.places c = .idle) :
      Step s (.call c) { s with places := update s.places c .closing }
  /-- `Send`, up to the first look at the condition. -/
  | enter {s} (c value f) (h : s.places c = .called (.send value))
      (hf : Lib.NotifyOne awakenReader
        (update s.places c (testSend (s.is_received c) s.is_closed_ value)) f) :
      Step s (.enter c value) { s with queue_ := s.queue_ ++ [(c, value)], places := f }
  | recheck {s} (c value) (h : s.places c = .waiting (.send value) true) :
      Step s (.test c)
        { s with places := update s.places c (testSend (s.is_received c) s.is_closed_ value) }
  /-- A wake-up without a reason. -/
  | spurious {s} (c op) (h : s.places c = .waiting op false) :
      Step s (.wakeUp c) { s with places := update s.places c (.waiting op true) }
  /-- `Recv`, at the beginning or after a sleep, in an empty channel. -/
  | sleep {s} (c) (h : s.places c = .called .recv ∨ s.places c = .waiting .recv true)
      (hc : s.is_closed_ = false) (hq : s.queue_ = []) :
      Step s (.test c) { s with places := update s.places c (.waiting .recv false) }
  | nothing {s} (c) (h : s.places c = .called .recv ∨ s.places c = .waiting .recv true)
      (hc : s.is_closed_ = true) :
      Step s (.test c) { s with places := update s.places c .nullopt }
  | receive {s} (c sender value rest)
      (h : s.places c = .called .recv ∨ s.places c = .waiting .recv true)
      (hc : s.is_closed_ = false) (hq : s.queue_ = (sender, value) :: rest) :
      Step s (.receive c sender value)
        { s with queue_ := rest, is_received := update s.is_received sender true,
                 places := update (notifySender s.places sender) c (.received sender value) }
  | close {s} (c) (h : s.places c = .closing) :
      Step s (.close c)
        { s with queue_ := [], is_closed_ := true,
                 places := update (Lib.notifyAll awakenReader
                   ((s.queue_.map Prod.fst).foldl notifySender s.places)) c .closed }

/-! ## Notifications -/

/-- It has been woken, or nothing has happened to it. -/
def Place.Woken (p p' : Place C V) : Prop :=
  p' = p ∨ ∃ op, p = .waiting op false ∧ p' = .waiting op true

omit [DecidableEq C] in
theorem Place.Woken.trans {p p' p'' : Place C V} (h : p.Woken p') (h' : p'.Woken p'') :
    p.Woken p'' := by
  rcases h with rfl | ⟨op, hp, hp'⟩
  · exact h'
  · rcases h' with rfl | ⟨op', hp'', -⟩
    · exact .inr ⟨op, hp, hp'⟩
    · simp [hp'] at hp''

omit [DecidableEq C] in
/-- Whoever sleeps has not been woken. -/
theorem Place.Woken.asleep {p p' : Place C V} {op : Op V} (h : p.Woken p')
    (hp' : p' = .waiting op false) : p = .waiting op false := by
  rcases h with rfl | ⟨op', -, hawake⟩
  · exact hp'
  · simp [hp'] at hawake

omit [DecidableEq C] in
theorem woken_of_awakenReader {p p' : Place C V} (h : p' = p ∨ awakenReader p = some p') :
    p.Woken p' := by
  refine h.imp_right fun h ↦ ?_
  unfold awakenReader at h
  split at h
  · exact ⟨.recv, rfl, (Option.some.inj h).symm⟩
  · cases h

theorem notifySender_apply (f : C → Place C V) (c c' : C) :
    notifySender f c c' = if c' = c then (awakenSender (f c')).getD (f c') else f c' := by
  by_cases hc : c' = c
  · subst hc
    rw [notifySender, update_self, if_pos rfl]
  · rw [notifySender, update_of_ne hc, if_neg hc]

theorem woken_notifySender (f : C → Place C V) (c c' : C) : (f c').Woken (notifySender f c c') := by
  rw [notifySender_apply]
  split
  · cases hw : awakenSender (f c') with
    | none => exact .inl rfl
    | some p =>
      unfold awakenSender at hw
      split at hw
      · rename_i hp
        exact .inr ⟨_, hp, (Option.some.inj hw).symm⟩
      · cases hw
  · exact .inl rfl

theorem woken_notifySenders (cs : List C) (f : C → Place C V) (c : C) :
    (f c).Woken (cs.foldl notifySender f c) := by
  induction cs generalizing f with
  | nil => exact .inl rfl
  | cons c' cs ih => exact (woken_notifySender f c' c).trans (ih (notifySender f c'))

/-- Whose element is in the queue does not sleep any more. -/
theorem notifySenders_ne_asleep {cs : List C} (f : C → Place C V) {c : C} (hc : c ∈ cs)
    (value : V) :
    cs.foldl notifySender f c ≠ .waiting (.send value) false := by
  induction cs generalizing f with
  | nil => cases hc
  | cons c' cs ih =>
    by_cases hcs : c ∈ cs
    · exact ih _ hcs
    · obtain rfl : c = c' := (List.mem_cons.mp hc).resolve_right hcs
      intro hasleep
      have hbefore := (woken_notifySenders cs (notifySender f c) c).asleep hasleep
      have hold := (woken_notifySender f c c).asleep hbefore
      simp [notifySender, hold, awakenSender] at hbefore

/-! ## What a step leaves alone -/

/-- Whose step it is. -/
def Label.actor : Label C V → C
  | .call c | .enter c _ | .test c | .wakeUp c | .receive c _ _ | .close c => c

/-- Another call stays where it is, or is woken. -/
theorem Step.other {s s' : State C V} {l : Label C V} (h : Step s l s') {c : C} (hc : c ≠ l.actor) :
    (s.places c).Woken (s'.places c) := by
  cases h with
  | enter c' value f h hf =>
    have hwoken := woken_of_awakenReader (hf.apply c)
    have heq := update_of_ne hc (testSend (s.is_received c') s.is_closed_ value) s.places
    simp only [Label.actor] at heq
    rwa [heq] at hwoken
  | receive c' sender value rest h hopen hq =>
    have heq := update_of_ne hc (.received sender value) (notifySender s.places sender)
    simp only [Label.actor] at heq
    simp only [heq]
    exact woken_notifySender _ _ _
  | close c' h =>
    have heq := update_of_ne hc .closed (Lib.notifyAll awakenReader
      ((s.queue_.map Prod.fst).foldl notifySender s.places))
    simp only [Label.actor] at heq
    simp only [heq]
    exact (woken_notifySenders _ _ _).trans (woken_of_awakenReader (Lib.notifyAll_apply _ _ _))
  | _ => exact .inl (update_of_ne hc _ _)

/-- A `Send` that has entered is where the test has brought it. -/
theorem Step.entered {s s' : State C V} {c : C} {value : V} (h : Step s (.enter c value) s') :
    s'.places c = testSend (s.is_received c) s.is_closed_ value := by
  cases h with
  | enter c value f h hf =>
    rcases hf.apply c with heq | hwoken
    · exact heq.trans (update_self _ _ _)
    · rw [update_self, testSend] at hwoken
      split at hwoken
      · split at hwoken <;> cases hwoken
      · cases hwoken

end UnbufferedChannel
end ManyTasks
