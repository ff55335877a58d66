import ManyTasks.Lib.Ring
import Mathlib.Data.List.Induction

/-!
# The intrusive lists

A `List` is a head, which is a `ListElement` like those that are put into lists.  `Attach` and
`Unlink` write four pointers each, and their order matters: the later ones are found by following
those that have been written.

As long as only elements that are not linked are put into lists, the pointers are a permutation and
its inverse, and the two calls exchange two of its values (`attach_eq`, `unlink_eq`).

The queue of the fibers that can run is such a list.  To every fiber in it belongs the call of
`Unpark` that has put it there, and the fibers run in the order of these calls
(`Tickets.ordered_run`).
-/

set_option autoImplicit false

namespace ManyTasks
namespace Cactus

open Function (update update_self update_of_ne)
open Equiv (Perm swap swap_apply_left swap_apply_right swap_apply_of_ne_of_ne)
open Lib (Node Path Rings Apart without)

/-! ## The model -/

/-- `next` and `prev` of all `ListElement`s. -/
structure Links (N : Type) where
  next : N → N
  prev : N → N

namespace Links

section

variable {N : Type} [DecidableEq N]

/-- `ListElement::ListElement`, of all of them. -/
def init : Links N := ⟨fun this ↦ this, fun this ↦ this⟩

def setNext (s : Links N) (a b : N) : Links N := { s with next := update s.next a b }

def setPrev (s : Links N) (a b : N) : Links N := { s with prev := update s.prev a b }

/-- `ListElement::Attach` -/
def attach (s : Links N) (this other : N) : Links N :=
  let s := s.setNext other (s.next this)
  let s := s.setPrev other this
  let s := s.setPrev (s.next this) other
  s.setNext this other

/-- `ListElement::Unlink` -/
def unlink (s : Links N) (this : N) : Links N :=
  let s := s.setNext (s.prev this) (s.next this)
  let s := s.setPrev (s.next this) (s.prev this)
  let s := s.setNext this this
  s.setPrev this this

/-- `ListElement::IsLinked` -/
def isLinked (s : Links N) (this : N) : Bool := s.prev this != this

/-- The pointers of a permutation. -/
def ofPerm (σ : Perm N) : Links N := ⟨σ, σ.symm⟩

end

section

variable {L E : Type} [DecidableEq L] [DecidableEq E]

/-- `List::IsEmpty` -/
def isEmpty (s : Links (Node L E)) (l : L) : Bool := !s.isLinked (.head l)

/-- `List::Begin` -/
def begin (s : Links (Node L E)) (l : L) : Node L E := s.next (.head l)

/-- `List::PushBack` -/
def pushBack (s : Links (Node L E)) (l : L) (element : E) : Links (Node L E) :=
  s.attach (s.prev (.head l)) (.element element)

/-- `List::Erase` -/
def erase (s : Links (Node L E)) (element : E) : Links (Node L E) := s.unlink (.element element)

/-- `ListElement::~ListElement` -/
def destroy (s : Links (Node L E)) (element : E) : Links (Node L E) := s.unlink (.element element)

end

/-! ## Permutations -/

section

variable {N : Type} [DecidableEq N] {σ : Perm N} {a b : N}

omit [DecidableEq N] in
theorem ofPerm_eq {f g : N → N} (hf : ∀ c, f c = σ c) (hg : ∀ c, σ (g c) = c) :
    (⟨f, g⟩ : Links N) = ofPerm σ := by
  rw [ofPerm, Links.mk.injEq]
  exact ⟨funext hf, funext fun c ↦ (Equiv.eq_symm_apply σ).mpr (hg c)⟩

/-- A node that is alone comes after `a`. -/
theorem attach_eq (hb : σ b = b) (hab : a ≠ b) :
    (ofPerm σ).attach a b = ofPerm (swap b (σ a) * σ) := by
  have hne : b ≠ σ a := fun h ↦ hab (σ.injective (h.symm.trans hb.symm))
  -- the pointer to the next node of `a` has not been written when it is followed
  have hnext : update (⇑σ) b (σ a) a = σ a := update_of_ne hab _ _
  simp only [attach, setNext, setPrev, ofPerm, hnext]
  refine ofPerm_eq (fun c ↦ ?_) fun c ↦ ?_
  · rw [Equiv.Perm.mul_apply]
    by_cases hca : c = a
    · rw [hca, update_self, swap_apply_right]
    · rw [update_of_ne hca]
      by_cases hcb : c = b
      · rw [hcb, update_self, hb, swap_apply_left]
      · rw [update_of_ne hcb, swap_apply_of_ne_of_ne]
        · exact fun h ↦ hcb (σ.injective (h.trans hb.symm))
        · exact fun h ↦ hca (σ.injective h)
  · rw [Equiv.Perm.mul_apply]
    by_cases hca : c = σ a
    · rw [hca, update_self, hb, swap_apply_left]
    · rw [update_of_ne hca]
      by_cases hcb : c = b
      · rw [hcb, update_self, swap_apply_right]
      · rw [update_of_ne hcb, Equiv.apply_symm_apply, swap_apply_of_ne_of_ne hcb hca]

/-- A node becomes alone. -/
theorem unlink_eq (σ : Perm N) (a : N) : (ofPerm σ).unlink a = ofPerm (swap a (σ a) * σ) := by
  -- the previous node may be `a` itself, and then the pointer that is followed has been written
  have hnext : update (⇑σ) (σ.symm a) (σ a) a = σ a := by
    by_cases ha : a = σ.symm a
    · rw [← ha, update_self]
    · exact update_of_ne ha _ _
  simp only [unlink, setNext, setPrev, ofPerm, hnext]
  refine ofPerm_eq (fun c ↦ ?_) fun c ↦ ?_
  · rw [Equiv.Perm.mul_apply]
    by_cases hca : c = a
    · rw [hca, update_self, swap_apply_right]
    · rw [update_of_ne hca]
      by_cases hprev : c = σ.symm a
      · rw [hprev, update_self, Equiv.apply_symm_apply, swap_apply_left]
      · rw [update_of_ne hprev, swap_apply_of_ne_of_ne]
        · exact fun h ↦ hprev ((Equiv.eq_symm_apply σ).mpr h)
        · exact fun h ↦ hca (σ.injective h)
  · rw [Equiv.Perm.mul_apply]
    by_cases hca : c = a
    · rw [hca, update_self, swap_apply_right]
    · rw [update_of_ne hca]
      by_cases hnext' : c = σ a
      · rw [hnext', update_self, Equiv.apply_symm_apply, swap_apply_left]
      · rw [update_of_ne hnext', Equiv.apply_symm_apply, swap_apply_of_ne_of_ne hca hnext']

theorem isLinked_ofPerm (σ : Perm N) (a : N) : (ofPerm σ).isLinked a = false ↔ σ a = a := by
  rw [isLinked, bne_eq_false_iff_eq, ofPerm, Equiv.symm_apply_eq, eq_comm]

end

end Links

/-! ## Any calls -/

/-- What is done with the lists. -/
inductive ListCall (L E : Type) where
  | pushBack (l : L) (e : E)
  | unlink (e : E)
  | erase (e : E)
  | destroy (e : E)
deriving DecidableEq, Repr

section Calls

variable {L E : Type} [DecidableEq L] [DecidableEq E]

namespace Links

def call (s : Links (Node L E)) : ListCall L E → Links (Node L E)
  | .pushBack l e => s.pushBack l e
  | .unlink e => s.unlink (.element e)
  | .erase e => s.erase e
  | .destroy e => s.destroy e

def run (s : Links (Node L E)) (calls : List (ListCall L E)) : Links (Node L E) :=
  calls.foldl call s

end Links

/-- Only an element that is not linked is put into a list. -/
def ListCall.Legal (s : Links (Node L E)) : ListCall L E → Prop
  | .pushBack _ e => s.isLinked (.element e) = false
  | .unlink _ => True
  | .erase _ => True
  | .destroy _ => True

/-- Every call is legal at its time. -/
def Links.Legal : Links (Node L E) → List (ListCall L E) → Prop
  | _, [] => True
  | s, c :: calls => c.Legal s ∧ Legal (s.call c) calls

/-- The elements that have been put into the lists and not been removed, in the order of the
calls. -/
def ListCall.apply (contents : L → List E) : ListCall L E → L → List E
  | .pushBack l e => update contents l (contents l ++ [e])
  | .unlink e => without contents e
  | .erase e => without contents e
  | .destroy e => without contents e

/-- The elements of the lists after some calls. -/
def contentsAfter (calls : List (ListCall L E)) : L → List E :=
  calls.foldl ListCall.apply fun _ ↦ []

namespace Links

variable {s : Links (Node L E)} {contents : L → List E}

/-- The pointers are those of a permutation with these rings. -/
def Linked (s : Links (Node L E)) (contents : L → List E) : Prop :=
  ∃ σ : Perm (Node L E), s = ofPerm σ ∧ Rings σ contents

omit [DecidableEq L] [DecidableEq E] in
theorem linked_init : (init : Links (Node L E)).Linked fun _ ↦ [] := ⟨1, rfl, Lib.rings_one⟩

theorem Linked.isLinked_eq_false (h : s.Linked contents) (e : E) :
    s.isLinked (.element e) = false ↔ ∀ l, e ∉ contents l := by
  obtain ⟨σ, rfl, hrings⟩ := h
  rw [isLinked_ofPerm, hrings.fixed_iff]

theorem Linked.pushBack (h : s.Linked contents) (l : L) {e : E}
    (he : s.isLinked (.element e) = false) :
    (s.pushBack l e).Linked (update contents l (contents l ++ [e])) := by
  have hnot := (h.isLinked_eq_false e).mp he
  obtain ⟨σ, rfl, hrings⟩ := h
  have halone := hrings.alone e hnot
  have hlast : σ (σ.symm (.head l)) = .head l := σ.apply_symm_apply _
  have hne : σ.symm (.head l) ≠ .element e := fun heq ↦ by
    rw [heq, halone] at hlast
    exact Lib.element_ne_head e l hlast
  refine ⟨_, ?_, hrings.push l hnot⟩
  have hattach := attach_eq halone hne
  rwa [hlast] at hattach

theorem Linked.unlink (h : s.Linked contents) (e : E) :
    (s.unlink (.element e)).Linked (without contents e) := by
  obtain ⟨σ, rfl, hrings⟩ := h
  exact ⟨_, unlink_eq σ _, hrings.remove e⟩

/-- A call keeps the rings. -/
theorem Linked.call (h : s.Linked contents) {c : ListCall L E} (hlegal : c.Legal s) :
    (s.call c).Linked (c.apply contents) := by
  cases c with
  | pushBack l e => exact h.pushBack l hlegal
  | unlink e => exact h.unlink e
  | erase e => exact h.unlink e
  | destroy e => exact h.unlink e

theorem Linked.run (h : s.Linked contents) {calls : List (ListCall L E)} (hlegal : s.Legal calls) :
    (s.run calls).Linked (calls.foldl ListCall.apply contents) := by
  induction calls generalizing s contents with
  | nil => exact h
  | cons c calls ih => exact ih (h.call hlegal.1) hlegal.2

/-- The pointers of lists with these elements. -/
structure Good (s : Links (Node L E)) (contents : L → List E) : Prop extends Apart contents where
  next_prev : ∀ a, s.next (s.prev a) = a
  prev_next : ∀ a, s.prev (s.next a) = a
  ring : ∀ l, Path s.next (.head l) ((contents l).map .element) (.head l)
  alone : ∀ e, (∀ l, e ∉ contents l) → s.next (.element e) = .element e ∧
    s.prev (.element e) = .element e
  isLinked : ∀ e, s.isLinked (.element e) = true ↔ ∃ l, e ∈ contents l
  isEmpty : ∀ l, s.isEmpty l = true ↔ contents l = []

theorem Linked.good (h : s.Linked contents) : s.Good contents where
  toApart := h.choose_spec.2.toApart
  next_prev a := by
    obtain ⟨σ, rfl, -⟩ := h
    exact σ.apply_symm_apply a
  prev_next a := by
    obtain ⟨σ, rfl, -⟩ := h
    exact σ.symm_apply_apply a
  ring l := by
    obtain ⟨σ, rfl, hrings⟩ := h
    exact hrings.ring l
  alone e he := by
    obtain ⟨σ, rfl, hrings⟩ := h
    exact ⟨hrings.alone e he, (Equiv.symm_apply_eq σ).mpr (hrings.alone e he).symm⟩
  isLinked e := by
    rw [← Bool.not_eq_false, h.isLinked_eq_false e, not_forall_not]
  isEmpty l := by
    obtain ⟨σ, rfl, hrings⟩ := h
    rw [Links.isEmpty, Bool.not_eq_true', isLinked_ofPerm, hrings.head_fixed_iff]

end Links

end Calls

/-! ## The queue of the fibers that can run -/

/-- What is done with `run_queue_`. -/
inductive QueueEvent (F : Type) where
  | unpark (f : F)
  /-- The loop of the scheduler takes a fiber and runs it. -/
  | next
  /-- `Park` takes its own fiber out, when this is canceled or has timed out. -/
  | erase (f : F)
  | destroy (f : F)
deriving DecidableEq, Repr

/-- `run_queue_`, and the fibers that have been run. -/
structure RunQueue (F : Type) where
  links : Links (Node Unit F)
  ran : List (Node Unit F)

/-- The fibers in the queue and those that have been run, each with the number of the event that has
put it into the queue. -/
structure Tickets (F : Type) where
  time : ℕ
  waiting : List (F × ℕ)
  ran : List (F × ℕ)

section Queue

variable {F : Type} [DecidableEq F]

namespace RunQueue

def init : RunQueue F := ⟨Links.init, []⟩

def event (s : RunQueue F) : QueueEvent F → RunQueue F
  -- `FiberImpl::Unpark`
  | .unpark f =>
    if s.links.isLinked (.element f) then s else { s with links := s.links.pushBack () f }
  -- in `Scheduler::RunLoop`
  | .next =>
    if s.links.isEmpty () then s
    else
      let next := s.links.begin ()
      { links := s.links.unlink next, ran := s.ran ++ [next] }
  | .erase f => { s with links := s.links.erase f }
  | .destroy f => { s with links := s.links.destroy f }

def run (s : RunQueue F) (events : List (QueueEvent F)) : RunQueue F := events.foldl event s

end RunQueue

namespace Tickets

def init : Tickets F := ⟨0, [], []⟩

/-- The fibers in the queue. -/
def queue (t : Tickets F) : List F := t.waiting.map Prod.fst

/-- A fiber that is in the queue stays where it is; another one comes to the end. -/
def event (t : Tickets F) : QueueEvent F → Tickets F
  | .unpark f =>
    { t with
      time := t.time + 1, waiting := if f ∈ t.queue then t.waiting else t.waiting ++ [(f, t.time)] }
  | .next =>
    { time := t.time + 1, waiting := t.waiting.tail, ran := t.ran ++ t.waiting.head?.toList }
  | .erase f => { t with time := t.time + 1, waiting := t.waiting.filter fun p ↦ p.1 ≠ f }
  | .destroy f => { t with time := t.time + 1, waiting := t.waiting.filter fun p ↦ p.1 ≠ f }

def run (t : Tickets F) (events : List (QueueEvent F)) : Tickets F := events.foldl event t

end Tickets

/-- The queue is that of the tickets, and the fibers have been run that the tickets say. -/
structure Follows (s : RunQueue F) (t : Tickets F) : Prop where
  linked : s.links.Linked fun _ ↦ t.queue
  ran : s.ran = t.ran.map fun p ↦ .element p.1

omit [DecidableEq F] in
theorem follows_init : Follows (RunQueue.init : RunQueue F) Tickets.init := ⟨Links.linked_init, rfl⟩

theorem without_queue (t : Tickets F) (f : F) :
    (without (fun _ : Unit ↦ t.queue) f) = fun _ ↦
    (t.waiting.filter fun p ↦ p.1 ≠ f).map Prod.fst := by
  funext l
  rw [without, Tickets.queue, List.filter_map]
  rfl

theorem Follows.erase {s : RunQueue F} {t : Tickets F} (h : Follows s t) (f : F) :
    (s.links.unlink (.element f)).Linked fun _ ↦
    (t.waiting.filter fun p ↦ p.1 ≠ f).map Prod.fst := by
  have hlinked := h.linked.unlink f
  rwa [without_queue] at hlinked

/-- The event does to the queue what it does to the tickets. -/
theorem Follows.event {s : RunQueue F} {t : Tickets F} (h : Follows s t) (e : QueueEvent F) :
    Follows (s.event e) (t.event e) := by
  cases e with
  | unpark f =>
    have hlinked := h.linked.isLinked_eq_false f
    by_cases hf : f ∈ t.queue
    · have htrue : s.links.isLinked (.element f) = true := by
        rw [← Bool.not_eq_false, hlinked]
        exact fun hnot ↦ hnot () hf
      simp only [RunQueue.event, Tickets.event, if_pos htrue, if_pos hf]
      exact ⟨h.linked, h.ran⟩
    · have hfalse : s.links.isLinked (.element f) = false := hlinked.mpr fun _ ↦ hf
      simp only [RunQueue.event, Tickets.event, hfalse, if_neg hf, Bool.false_eq_true, if_false]
      have hpush := h.linked.pushBack () hfalse
      have hqueue : update (fun _ : Unit ↦ t.queue) () (t.queue ++ [f]) =
          fun _ ↦ (t.waiting ++ [(f, t.time)]).map Prod.fst := by
        funext l
        rw [update_self, List.map_append]
        rfl
      rw [hqueue] at hpush
      exact ⟨hpush, h.ran⟩
  | next =>
    have hempty := h.linked.good.isEmpty ()
    cases hwaiting : t.waiting with
    | nil =>
      have htrue : s.links.isEmpty () = true := by
        rw [hempty, Tickets.queue, hwaiting]
        rfl
      simp only [RunQueue.event, Tickets.event, if_pos htrue, hwaiting]
      refine ⟨?_, by simpa using h.ran⟩
      have hlinked := h.linked
      rw [Tickets.queue, hwaiting] at hlinked
      exact hlinked
    | cons p rest =>
      have hqueue : t.queue = p.1 :: rest.map Prod.fst := by
        rw [Tickets.queue, hwaiting, List.map_cons]
      have hfalse : s.links.isEmpty () = false := by
        rw [← Bool.not_eq_true, hempty, hqueue]
        exact List.cons_ne_nil _ _
      have hbegin : s.links.begin () = .element p.1 := by
        obtain ⟨σ, hσ, hrings⟩ := h.linked
        rw [hσ]
        exact hrings.head_eq hqueue
      have hrest : (t.waiting.filter fun q ↦ q.1 ≠ p.1) = rest := by
        have hnodup := h.linked.good.nodup ()
        rw [hqueue, List.nodup_cons] at hnodup
        rw [hwaiting, List.filter_cons_of_neg (by simp), List.filter_eq_self]
        intro q hq
        exact decide_eq_true fun heq ↦ hnodup.1 (heq ▸ List.mem_map_of_mem hq)
      have herase := h.erase p.1
      rw [hrest] at herase
      simp only [RunQueue.event, Tickets.event, hfalse, hbegin, hwaiting,
        Bool.false_eq_true, if_false]
      exact ⟨herase, by rw [h.ran]; simp⟩
  | erase f => exact ⟨h.erase f, h.ran⟩
  | destroy f => exact ⟨h.erase f, h.ran⟩

theorem Follows.run {s : RunQueue F} {t : Tickets F} (h : Follows s t)
    (events : List (QueueEvent F)) :
    Follows (s.run events) (t.run events) := by
  induction events generalizing s t with
  | nil => exact h
  | cons e events ih => exact ih (h.event e)

/-! ## The order of the tickets -/

/-- A new ticket has the number of its event. -/
def Tickets.issued (t : Tickets F) : QueueEvent F → List (F × ℕ)
  | .unpark f => [(f, t.time)]
  | _ => []

omit [DecidableEq F] in
theorem Tickets.issued_cases (t : Tickets F) (e : QueueEvent F) :
    t.issued e = [] ∨ ∃ f, e = .unpark f ∧ t.issued e = [(f, t.time)] := by
  cases e with
  | unpark f => exact .inr ⟨f, rfl, rfl⟩
  | next => exact .inl rfl
  | erase f => exact .inl rfl
  | destroy f => exact .inl rfl

/-- An event adds at most its own ticket, and nothing changes places. -/
theorem Tickets.event_sublist (t : Tickets F) (e : QueueEvent F) :
    ((t.event e).ran ++ (t.event e).waiting).Sublist (t.ran ++ t.waiting ++ t.issued e) := by
  cases e with
  | unpark f =>
    simp only [event, issued, List.append_assoc]
    refine List.Sublist.append (List.Sublist.refl _) ?_
    split
    · exact List.sublist_append_left _ _
    · exact List.Sublist.refl _
  | next =>
    simp only [event, issued, List.append_nil, List.append_assoc]
    refine List.Sublist.append (List.Sublist.refl _) ?_
    cases t.waiting with
    | nil => exact List.Sublist.refl _
    | cons p rest => exact List.Sublist.refl _
  | erase f =>
    simp only [event, issued, List.append_nil]
    exact List.Sublist.append (List.Sublist.refl _) List.filter_sublist
  | destroy f =>
    simp only [event, issued, List.append_nil]
    exact List.Sublist.append (List.Sublist.refl _) List.filter_sublist

/-- The fibers that have run come first, and all are in the order of the calls of `Unpark` that have
put them into the queue. -/
structure Tickets.Ordered (t : Tickets F) (events : List (QueueEvent F)) : Prop where
  increasing : (t.ran ++ t.waiting).Pairwise fun p q ↦ p.2 < q.2
  unparked : ∀ p ∈ t.ran ++ t.waiting, events[p.2]? = some (.unpark p.1)

theorem Tickets.run_time (t : Tickets F) (events : List (QueueEvent F)) :
    (t.run events).time = t.time + events.length := by
  induction events generalizing t with
  | nil => rfl
  | cons e events ih =>
    have htime : (t.event e).time = t.time + 1 := by cases e <;> rfl
    have hrun := ih (t.event e)
    rw [htime] at hrun
    rw [List.length_cons, Tickets.run, List.foldl_cons]
    exact hrun.trans (by omega)

theorem Tickets.ordered_run (events : List (QueueEvent F)) : (init.run events).Ordered events := by
  induction events using List.reverseRecOn with
  | nil => exact ⟨List.Pairwise.nil, fun p hp ↦ absurd hp List.not_mem_nil⟩
  | append_singleton events e ih =>
    have hsub := (init.run events).event_sublist e
    have hlt (p : F × ℕ) (hp : p ∈ (init.run events).ran ++ (init.run events).waiting) :
        p.2 < events.length := (List.getElem?_eq_some_iff.mp (ih.unparked p hp)).1
    have hrun : init.run (events ++ [e]) = (init.run events).event e := by
      rw [run, List.foldl_append]
      rfl
    have hold (p : F × ℕ) (hp : p ∈ (init.run events).ran ++ (init.run events).waiting) :
        (events ++ [e])[p.2]? = some (.unpark p.1) := by
      rw [List.getElem?_append_left (hlt p hp)]
      exact ih.unparked p hp
    rw [hrun]
    rcases (init.run events).issued_cases e with hnone | ⟨f, rfl, hone⟩
    · rw [hnone, List.append_nil] at hsub
      exact ⟨ih.increasing.sublist hsub, fun p hp ↦ hold p (hsub.subset hp)⟩
    · have htime : (init.run events).time = events.length :=
        (init.run_time events).trans (Nat.zero_add _)
      rw [hone, htime] at hsub
      refine ⟨.sublist hsub (List.pairwise_append.mpr
        ⟨ih.increasing, List.pairwise_singleton _ _, ?_⟩), ?_⟩
      · intro p hp q hq
        rw [List.mem_singleton.mp hq]
        exact hlt p hp
      · intro p hp
        rcases List.mem_append.mp (hsub.subset hp) with hp | hp
        · exact hold p hp
        · rw [List.mem_singleton.mp hp, List.getElem?_append_right (Nat.le_refl _), Nat.sub_self]
          rfl

/-! ## The lists and the queue -/

/-- **After any calls the rings are those of the lists.**  And in the queue a fiber is at most once,
and fibers run in the order in which `Unpark` has put them into it. -/
theorem intrusive_list_correct {L E : Type} [DecidableEq L] [DecidableEq E] :
    (∀ calls : List (ListCall L E), (Links.init : Links (Node L E)).Legal calls →
      (Links.init.run calls).Good (contentsAfter calls)) ∧
    ∀ events : List (QueueEvent F),
      (RunQueue.init.run events).links.Good (fun _ ↦ (Tickets.init.run events).queue) ∧
        (Tickets.init.run events).queue.Nodup ∧
        (RunQueue.init.run events).ran = (Tickets.init.run events).ran.map (fun p ↦ .element p.1) ∧
        (Tickets.init.run events).Ordered events := by
  refine ⟨fun calls hlegal ↦ (Links.linked_init.run hlegal).good, fun events ↦ ?_⟩
  have hfollows := follows_init.run events
  have hgood := hfollows.linked.good
  exact ⟨hgood, hgood.nodup (), hfollows.ran, Tickets.ordered_run events⟩

theorem intrusive_list_correct_two :
    (Links.init.run [.pushBack () true, .pushBack () false, .unlink true, .pushBack () true]).Good
      (contentsAfter [.pushBack () true, .pushBack () false, .unlink true, .pushBack () true]) ∧
    (RunQueue.init.run [.unpark 3, .unpark 5, .unpark 3, .next, .next]).ran =
    [.element 3, .element 5] :=
  ⟨(intrusive_list_correct (F := ℕ)).1 _ ⟨rfl, rfl, trivial, rfl, trivial⟩, rfl⟩

end Queue

end Cactus
end ManyTasks
