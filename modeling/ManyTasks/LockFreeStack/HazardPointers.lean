import ManyTasks.HazardPtr.Clients
import ManyTasks.Lib.Composition
import ManyTasks.LockFreeStack.Refinement

/-!
# The stack with its hazard pointers

`Pop` protects the node that it reads by `Acquire` and `Release`, and what `Pop` and `Clear` take
away goes to `Retire`.  The two programs have been looked at alone, and each has promised the other
something: the stack that only nodes in use get into `head_`, and that a node is retired once and
when `head_` does not point to it any more; the hazard pointers that what a call has from `Acquire`
is not freed.

Here they run together, and none of these promises is a condition of a step (`Both.Step`).  They
hold nevertheless (`Both.Inv`), each because of the other one: so a run of both is a run of the
stack as it was looked at alone, and a run of the hazard pointers (`stack_over_hazard_pointers`).

A thread makes its calls one after the other, and is registered while it makes one.
-/

set_option autoImplicit false

namespace ManyTasks

open Function (update update_self update_of_ne)
open Lib (Chain Moves Trace)

namespace LockFreeStack

variable {C Θ A N V : Type}

/-- What an address is used for, as the hazard pointers see it. -/
def Status.hazard : Status → HazardPtr.Status
  | .free => .free
  | .allocated => .allocated
  | .retired => .retired

/-- The call has begun and has not returned. -/
def Place.Active : Place A V → Prop
  | .idle | .pushed | .popped _ | .empty | .cleared => False
  | _ => True

/-- The next step of the call is about its own nodes, and is no exchange of `head_` that
succeeds. -/
def Place.Inner : Place A V → Prop
  | .pushing _ | .pushExchange _ _ _ | .linking _ _ _ | .reading _ | .popExchange _ _ | .moving _
  | .clearing | .clearExchange _ | .walking _ => True
  | _ => False

/-- The node that the call is about to retire. -/
def Place.retires : Place A V → Option A
  | .retiring a _ | .dropping a _ => some a
  | _ => none

/-- Whose step it is. -/
def Label.call : Label C A V → Option C
  | .push c _ | .pop c | .clear c | .empty c | .popped c _ | .cleared c _ | .tau c => some c
  | .free _ => none

/-- An exchange of `head_` has succeeded. -/
def Label.Exchanges (c : C) (l : Label C A V) : Prop :=
  (∃ value, l = .push c value) ∨ l = .pop c ∨ l = .clear c

/-- `Retire` is called. -/
def Label.Retires (c : C) (l : Label C A V) : Prop :=
  ∃ value, l = .popped c value ∨ l = .cleared c value

/-! ## Running together -/

/-- The stack, and the hazard pointers; `head_` is their only location. -/
structure Both (C Θ A N V : Type) where
  stack : State C A V
  hazard : HazardPtr.State Θ Unit A N

/-- What a step is for the stack, and for the hazard pointers. -/
structure Use (C Θ A V : Type) where
  stack : Option (Label C A V)
  hazard : Option (HazardPtr.Label Θ A)

/-- Nothing has been done, and any memory. -/
def Both.init (nodes : A → Node A V) (retired : N → HazardPtr.RetiredPtr A N) : Both C Θ A N V :=
  ⟨LockFreeStack.init nodes, HazardPtr.init retired⟩

variable [DecidableEq C] [DecidableEq Θ] [DecidableEq A] [DecidableEq N]

/-- One step; `thread` says which thread makes a call. -/
inductive Both.Step (thread : C → Θ) : Both C Θ A N V → Use C Θ A V → Both C Θ A N V → Prop where
  | register {x} (θ) (h : x.hazard.places θ = .idle) (hlock : x.hazard.threads_lock = none) :
      Step thread x ⟨none, some .tau⟩
        { x with hazard := { x.hazard with threads := θ :: x.hazard.threads } }
  | unregister {x t} (θ) (h : HazardPtr.Step x.hazard (.unregister θ) t)
      (hcalls : ∀ c, (x.stack.places c).Active → thread c ≠ θ) :
      Step thread x ⟨none, some (.unregister θ)⟩ { x with hazard := t }
  /-- A call begins. -/
  | call {x s} (c) (h : LockFreeStack.Step x.stack (.tau c) s) (hc : x.stack.places c = .idle)
      (hθ : x.hazard.places (thread c) = .idle) (hregistered : thread c ∈ x.hazard.threads)
      (hcalls : ∀ d, (x.stack.places d).Active → thread d ≠ thread c) :
      Step thread x ⟨some (.tau c), none⟩ { x with stack := s }
  | inner {x s} (c) (h : LockFreeStack.Step x.stack (.tau c) s) (hc : (x.stack.places c).Inner)
      (hθ : x.hazard.places (thread c) = .idle) :
      Step thread x ⟨some (.tau c), none⟩ { x with stack := s }
  /-- `new Node{value, old_head}` -/
  | allocate {x} (c value old_head a) (hc : x.stack.places c = .allocating value old_head)
      (hθ : x.hazard.places (thread c) = .idle) (ha : x.stack.status a = .free) :
      Step thread x ⟨some (.tau c), some .tau⟩
        ⟨((x.stack.mark a .allocated).write a ⟨value, old_head⟩).go c
          (.pushExchange value a old_head),
            { x.hazard with status := update x.hazard.status a .allocated }⟩
  /-- An exchange of `head_` succeeds. -/
  | exchange {x l s} (c) (h : LockFreeStack.Step x.stack l s) (hl : l.Exchanges c)
      (hθ : x.hazard.places (thread c) = .idle) :
      Step thread x ⟨some l, some .tau⟩
        ⟨s, { x.hazard with locations := update x.hazard.locations () s.head_ }⟩
  /-- `Acquire(&head_)` is called, and loads `head_`. -/
  | acquire {x} (c) (hc : x.stack.places c = .popping) (hθ : x.hazard.places (thread c) = .idle) :
      Step thread x ⟨some (.tau c), some (.acquire (thread c))⟩
        ⟨x.stack.go c (.acquiring x.stack.head_), x.hazard.go (thread c)
          (.storing () x.stack.head_)⟩
  /-- `hazard_ptr.store(value)` -/
  | store {x} (c value) (hc : x.stack.places c = .acquiring value)
      (hθ : x.hazard.places (thread c) = .storing () value) :
      Step thread x ⟨none, some .tau⟩
        { x with hazard := ({ x.hazard with
          hazard_ptr := update x.hazard.hazard_ptr (thread c) value }.go (thread c)
            (.validating () value)) }
  /-- `head_` is loaded again, and is another pointer. -/
  | again {x} (c value) (hc : x.stack.places c = .acquiring value)
      (hθ : x.hazard.places (thread c) = .validating () value) (hhead : x.stack.head_ ≠ value) :
      Step thread x ⟨some (.tau c), some .tau⟩
        ⟨x.stack.go c (.acquiring x.stack.head_), x.hazard.go (thread c)
          (.storing () x.stack.head_)⟩
  /-- `Acquire` returns a node. -/
  | acquired {x} (c a) (hc : x.stack.places c = .acquiring (some a))
      (hθ : x.hazard.places (thread c) = .validating () (some a)) (hhead : x.stack.head_ = some a) :
      Step thread x ⟨some (.tau c), some (.acquired (thread c) (some a))⟩
        ⟨x.stack.go c (.reading a), x.hazard.go (thread c) .idle⟩
  /-- `Acquire` returns `nullptr`, and `Pop` false. -/
  | empty {x} (c) (hc : x.stack.places c = .acquiring none)
      (hθ : x.hazard.places (thread c) = .validating () none) (hhead : x.stack.head_ = none) :
      Step thread x ⟨some (.empty c), some (.acquired (thread c) none)⟩
        ⟨x.stack.go c .empty, x.hazard.go (thread c) .idle⟩
  | release {x} (c a value) (hc : x.stack.places c = .releasing a value)
      (hθ : x.hazard.places (thread c) = .idle) :
      Step thread x ⟨some (.tau c), some (.release (thread c))⟩
        ⟨x.stack.go c (.retiring a value),
          { x.hazard with hazard_ptr := update x.hazard.hazard_ptr (thread c) none }⟩
  /-- `Retire` is called, and makes a node of the free list. -/
  | retire {x l s} (c a n) (h : LockFreeStack.Step x.stack l s) (hl : l.Retires c)
      (hc : (x.stack.places c).retires = some a) (hθ : x.hazard.places (thread c) = .idle)
      (hn : x.hazard.allocated n = false) :
      Step thread x ⟨some l, some (.retire (thread c) a)⟩
        ⟨s, ({ x.hazard with
          status := update x.hazard.status a .retired,
          nodes := update x.hazard.nodes n ⟨a, x.hazard.free_list⟩,
          allocated := update x.hazard.allocated n true }.go (thread c) (.pushing n))⟩
  /-- A thread goes on in `Retire` or in `ScanFreeList`. -/
  | background {x t} (h : HazardPtr.Step x.hazard .tau t) (ht : x.hazard.Background t) :
      Step thread x ⟨none, some .tau⟩ { x with hazard := t }
  /-- The deleter is run for a node, and what is left there is anything. -/
  | delete {x t} (θ a m) (h : HazardPtr.Step x.hazard (.delete θ a) t) :
      Step thread x ⟨some (.free a), some (.delete θ a)⟩
        ⟨(x.stack.mark a .free).write a m, t⟩

/-! ## What a step is for each of them -/

section Stack

variable {x x' : Both C Θ A N V} {s s' : State C A V} {l : Label C A V} {c : C}

omit [DecidableEq Θ] [DecidableEq N] in
/-- A step of a call leaves the other calls where they are. -/
theorem Step.places_of_ne (h : Step s l s') (hl : l.call = some c) {d : C} (hd : d ≠ c) :
    s'.places d = s.places d := by
  cases h with
  | free => cases hl
  | _ =>
    obtain rfl := Option.some.inj hl
    exact update_of_ne hd _ _

/-- What a step of a call does to what the hazard pointers see of it. -/
structure Shows (s s' : State C A V) (c : C) (head : Option A) (status : A → Status) : Prop where
  head : s'.head_ = head
  status : s'.status = status
  protects : ∀ a, (s'.places c).protects = some a → (s.places c).protects = some a
  acquiring : ∀ value, s'.places c ≠ .acquiring value

theorem Step.shows_inner (h : Step s (.tau c) s') (hc : (s.places c).Inner ∨ s.places c = .idle) :
    Shows s s' c s.head_ s.status := by
  cases h with
  | allocate | acquireLoad | acquireAgain | acquired | release => simp_all [Place.Inner]
  | _ =>
    constructor
    · rfl
    · rfl
    · simp_all [State.go, State.write, Place.protects]
    · simp [State.go, State.write]

omit [DecidableEq C] [DecidableEq A] in
theorem Label.Exchanges.call (h : l.Exchanges c) : l.call = some c := by
  rcases h with ⟨value, rfl⟩ | rfl | rfl
  · rfl
  · rfl
  · rfl

/-- A successful exchange is made by a call that has begun, and changes `head_` only. -/
theorem Step.shows_exchange (h : Step s l s') (hl : l.Exchanges c) :
    (s.places c).Active ∧ Shows s s' c s'.head_ s.status := by
  rcases hl with ⟨value, rfl⟩ | rfl | rfl
  · cases h with
    | push c value a old_head h hhead =>
      refine ⟨by simp [h, Place.Active], rfl, rfl, ?_, ?_⟩
      · simp [State.go, Place.protects]
      · simp [State.go]
  · cases h with
    | pop c a next h hhead =>
      refine ⟨by simp [h, Place.Active], rfl, rfl, ?_, ?_⟩
      · simp [State.go, Place.protects, h]
      · simp [State.go]
  · cases h with
    | clear c old_head h hhead =>
      refine ⟨by simp [h, Place.Active], rfl, rfl, ?_, ?_⟩
      · simp [State.go, Place.protects]
      · simp [State.go]

omit [DecidableEq C] [DecidableEq A] in
theorem Label.Retires.call (h : l.Retires c) : l.call = some c := by
  rcases h with ⟨value, rfl | rfl⟩
  · rfl
  · rfl

/-- What a call retires is its first node, and `head_` stays as it is. -/
theorem Step.shows_retire (h : Step s l s') (hl : l.Retires c) {a : A}
    (hc : (s.places c).retires = some a) :
    (s.places c).Active ∧ Shows s s' c s.head_ (update s.status a .retired) := by
  rcases hl with ⟨value, rfl | rfl⟩
  · cases h with
    | retire c b value h =>
      obtain rfl : b = a := by simpa [h, Place.retires] using hc
      refine ⟨by simp [h, Place.Active], rfl, rfl, ?_, ?_⟩
      · simp [State.go, Place.protects]
      · simp [State.go]
  · cases h with
    | drop c b old_head h =>
      obtain rfl : b = a := by simpa [h, Place.retires] using hc
      refine ⟨by simp [h, Place.Active], rfl, rfl, ?_, ?_⟩
      · simp [State.go, State.mark, Place.protects]
      · simp [State.go, State.mark]

omit [DecidableEq C] [DecidableEq A] in
theorem Place.Owns.mem_of_retires {p : Place A V} {next : A → Option A} {as : List A}
    (h : p.Owns next as) {a : A} (ha : p.retires = some a) : a ∈ as := by
  cases p with
  | retiring b value =>
    obtain rfl := Option.some.inj ha
    rw [show as = [b] from h]
    exact List.mem_singleton_self b
  | dropping b old_head =>
    obtain rfl := Option.some.inj ha
    obtain ⟨bs, rfl, -⟩ := h
    exact List.mem_cons_self
  | _ => cases ha

omit [DecidableEq C] [DecidableEq A] in
theorem Place.active_of_inner {p : Place A V} (h : p.Inner) : p.Active := by
  cases p with
  | idle | pushed | popped | empty | cleared => exact h
  | _ => trivial

omit [DecidableEq C] [DecidableEq A] in
theorem Place.active_of_protects {p : Place A V} {a : A} (h : p.protects = some a) : p.Active := by
  cases p with
  | idle | pushed | popped | empty | cleared => cases h
  | _ => trivial

end Stack

/-! ## What the two promise each other -/

/-- The two agree on `head_` and on what the addresses are used for; what a call has from `Acquire`
its thread holds; and a thread makes one call at a time. -/
structure Coupled (thread : C → Θ) (holds : Θ → A → Prop) (x : Both C Θ A N V) : Prop where
  head : x.hazard.locations () = x.stack.head_
  status : ∀ a, x.hazard.status a = (x.stack.status a).hazard
  holds : ∀ {c a}, (x.stack.places c).protects = some a → holds (thread c) a
  acquiring : ∀ {c value}, x.stack.places c = .acquiring value →
    x.hazard.places (thread c) = .storing () value ∨
      x.hazard.places (thread c) = .validating () value
  registered : ∀ {c}, (x.stack.places c).Active → thread c ∈ x.hazard.threads
  unique : ∀ {c d}, (x.stack.places c).Active → (x.stack.places d).Active →
    thread c = thread d → c = d

/-- Each of the two is as it is alone, and they are coupled. -/
structure Both.Inv (thread : C → Θ) (owned : Option C → List A) (owned' : Option Θ → List N)
    (holds : Θ → A → Prop) (x : Both C Θ A N V) : Prop where
  stack : LockFreeStack.Inv owned x.stack
  hazard : HazardPtr.Inv owned' holds x.hazard
  coupled : Coupled thread holds x

section Promises

variable {thread : C → Θ} {owned : Option C → List A} {owned' : Option Θ → List N}
  {holds holds' : Θ → A → Prop} {x x' : Both C Θ A N V} {u : Use C Θ A V}

/-- Who holds what after a step. -/
def Use.after (holds : Θ → A → Prop) (u : Use C Θ A V) : Θ → A → Prop :=
  match u.hazard with
  | none => holds
  | some l => l.after holds

omit [DecidableEq C] [DecidableEq Θ] [DecidableEq A] [DecidableEq N] in
/-- Most steps do not change who holds what. -/
theorem Use.after_of_quiet {o : Option (Label C A V)} {l : HazardPtr.Label Θ A}
    (hacquired : ∀ θ a, l ≠ .acquired θ a) (hkeeps : ∀ θ, ¬l.GivesUp θ) :
    (Use.mk o (some l)).after holds = holds :=
  HazardPtr.Label.after_of_quiet hacquired hkeeps

omit [DecidableEq C] [DecidableEq Θ] [DecidableEq A] [DecidableEq N] in
theorem Use.after_tau (o : Option (Label C A V)) : (Use.mk o (some .tau)).after holds = holds :=
  HazardPtr.after_tau holds

omit [DecidableEq C] [DecidableEq Θ] [DecidableEq A] [DecidableEq N] in
theorem Both.inv_init (thread : C → Θ) (nodes : A → Node A V)
    (retired : N → HazardPtr.RetiredPtr A N) :
    Both.Inv thread (fun _ ↦ []) (fun _ ↦ []) (fun _ _ ↦ False) (Both.init nodes retired) where
  stack := LockFreeStack.inv_init nodes
  hazard := HazardPtr.inv_init retired
  coupled := by
    refine ⟨rfl, fun _ ↦ rfl, ?_, ?_, ?_, ?_⟩
    · intro c a h
      cases h
    · intro c value h
      cases h
    · intro c h
      exact h.elim
    · intro c d h
      exact h.elim

omit [DecidableEq C] [DecidableEq Θ] [DecidableEq A] [DecidableEq N] in
theorem Coupled.free (h : Coupled thread holds x) {c : C} (hc : (x.stack.places c).Active) (d : C)
    (hdc : d ≠ c) (hd : (x.stack.places d).Active) : thread d ≠ thread c :=
  fun heq ↦ hdc (h.unique hd hc heq)

omit [DecidableEq C] [DecidableEq Θ] [DecidableEq N] in
theorem Coupled.status_update (h : Coupled thread holds x) (a : A) (status : Status) (b : A) :
    update x.hazard.status a status.hazard b = (update x.stack.status a status b).hazard := by
  by_cases hba : b = a
  · rw [hba, update_self, update_self]
  · rw [update_of_ne hba, update_of_ne hba]
    exact h.status b

omit [DecidableEq C] [DecidableEq Θ] [DecidableEq A] [DecidableEq N] in
/-- A call goes on, and nobody else makes a call in its thread. -/
theorem Coupled.move (h : Coupled thread holds x) {s : State C A V}
    {t : HazardPtr.State Θ Unit A N} {c : C} (hfree : ∀ d, d ≠ c → (x.stack.places d).Active →
      thread d ≠ thread c)
    (hregistered : thread c ∈ x.hazard.threads)
    (hother : ∀ d, d ≠ c → s.places d = x.stack.places d)
    (hplaces : ∀ θ, θ ≠ thread c → t.places θ = x.hazard.places θ)
    (hthreads : t.threads = x.hazard.threads) (hhead : t.locations () = s.head_)
    (hstatus : ∀ a, t.status a = (s.status a).hazard)
    (hkept : ∀ θ a, θ ≠ thread c → holds θ a → holds' θ a)
    (hprotects : ∀ a, (s.places c).protects = some a → holds' (thread c) a)
    (hacquiring : ∀ value, s.places c = .acquiring value →
      t.places (thread c) = .storing () value ∨ t.places (thread c) = .validating () value) :
    Coupled thread holds' ⟨s, t⟩ where
  head := hhead
  status := hstatus
  holds {d a} hd := by
    by_cases hdc : d = c
    · subst hdc
      exact hprotects a hd
    · rw [show s.places d = _ from hother d hdc] at hd
      exact hkept _ a (hfree d hdc (Place.active_of_protects hd)) (h.holds hd)
  acquiring {d value} hd := by
    by_cases hdc : d = c
    · subst hdc
      exact hacquiring value hd
    · rw [show s.places d = _ from hother d hdc] at hd
      have hne : thread d ≠ thread c := hfree d hdc (by rw [hd]; trivial)
      change t.places _ = _ ∨ t.places _ = _
      rw [hplaces _ hne]
      exact h.acquiring hd
  registered {d} hd := by
    change thread d ∈ t.threads
    rw [hthreads]
    by_cases hdc : d = c
    · subst hdc
      exact hregistered
    · rw [show s.places d = _ from hother d hdc] at hd
      exact h.registered hd
  unique {d e} hd he heq := by
    by_cases hdc : d = c
    · subst hdc
      by_cases hed : e = d
      · exact hed.symm
      · rw [show s.places e = _ from hother e hed] at he
        exact absurd heq.symm (hfree e hed he)
    · rw [show s.places d = _ from hother d hdc] at hd
      by_cases hec : e = c
      · subst hec
        exact absurd heq (hfree d hdc hd)
      · rw [show s.places e = _ from hother e hec] at he
        exact h.unique hd he heq

/-- For the stack it is a step as it makes them alone: what the deleter is run for is not
protected. -/
theorem Both.Inv.stack_moves (hinv : Both.Inv thread owned owned' holds x)
    (hstep : Both.Step thread x u x') : Moves LockFreeStack.Step x.stack u.stack x'.stack := by
  cases hstep with
  | register | unregister | store | background => rfl
  | call c h | inner c h | exchange c h | retire c a n h => exact h
  | allocate c value old_head a hc hθ ha => exact .allocate c value old_head a hc ha
  | acquire c hc => exact .acquireLoad c hc
  | again c value hc hθ hhead => exact .acquireAgain c value hc hhead
  | acquired c a hc hθ hhead => exact .acquired c a hc hhead
  | empty c hc hθ hhead => exact .empty c hc hhead
  | release c a value hc => exact .release c a value hc
  | delete θ a m h =>
    obtain ⟨hretired, hnobody⟩ := hinv.hazard.not_holds_of_delete h
    refine .free a m ?_ fun c hc ↦ hnobody _ (hinv.coupled.holds hc)
    have hstatus := (hinv.coupled.status a).symm.trans hretired
    cases hst : x.stack.status a with
    | retired => rfl
    | free | allocated =>
      rw [hst] at hstatus
      cases hstatus

omit [DecidableEq C] [DecidableEq Θ] [DecidableEq A] [DecidableEq N] in
/-- What is in `head_` is in use. -/
theorem Inv.head_allocated {s : State C A V} (hinv : LockFreeStack.Inv owned s) {a : A}
    (ha : s.head_ = some a) : a ∈ owned none ∧ s.status a = .allocated := by
  obtain ⟨rest, hlist, -⟩ := (ha ▸ hinv.chain).exists_cons
  have hmem : a ∈ owned none := hlist ▸ List.mem_cons_self
  exact ⟨hmem, hinv.allocated hmem⟩

/-- For the hazard pointers it is a step as they make them alone: what gets into `head_` is in use,
and what is retired is in use and not in `head_`. -/
theorem Both.Inv.hazard_moves (hinv : Both.Inv thread owned owned' holds x)
    (hstep : Both.Step thread x u x') : Moves HazardPtr.Step x.hazard u.hazard x'.hazard := by
  have hlocation := hinv.coupled.head
  cases hstep with
  | register θ h hlock => exact .register θ h hlock
  | unregister θ h | background h | delete θ a m h => exact h
  | call | inner => rfl
  | allocate c value old_head a hc hθ ha =>
    refine .allocate a ?_
    rw [hinv.coupled.status, ha]
    rfl
  | exchange c h hl hθ =>
    obtain ⟨owned₁, hinv₁, -⟩ := hinv.stack.step h
    refine .exchange () _ fun a ha ↦ ?_
    have hallocated := (hinv₁.head_allocated ha).2
    rw [(h.shows_exchange hl).2.status] at hallocated
    rw [hinv.coupled.status, hallocated]
    rfl
  | acquire c hc hθ =>
    have hregistered := hinv.coupled.registered (c := c) (by rw [hc]; trivial)
    have hacquire : HazardPtr.Step x.hazard (.acquire (thread c))
        (x.hazard.go (thread c) (.storing () (x.hazard.locations ()))) :=
      .acquire (thread c) () hθ hregistered
    rwa [hlocation] at hacquire
  | store c value hc hθ => exact .store (thread c) () value hθ
  | again c value hc hθ hhead =>
    have hagain := HazardPtr.Step.again (thread c) () value hθ (by rwa [hlocation])
    rwa [hlocation] at hagain
  | acquired c a hc hθ hhead => exact .acquired (thread c) () (some a) hθ (hlocation.trans hhead)
  | empty c hc hθ hhead => exact .acquired (thread c) () none hθ (hlocation.trans hhead)
  | release c a value hc hθ => exact .release (thread c) hθ
  | retire c a n h hl hc hθ hn =>
    have hmem := (hinv.stack.owns c).mem_of_retires hc
    refine .retire (thread c) a n hθ ?_ (fun _ ha ↦ ?_) hn
    · rw [hinv.coupled.status, hinv.stack.allocated hmem]
      rfl
    · rw [hlocation] at ha
      exact hinv.stack.notMem_list hmem (hinv.stack.head_allocated ha).1

/-- The step keeps the two coupled. -/
theorem Both.Inv.coupled_step (hinv : Both.Inv thread owned owned' holds x)
    (hstep : Both.Step thread x u x') : Coupled thread (u.after holds) x' := by
  have hx := hinv.coupled
  cases hstep with
  | register θ h hlock =>
    rw [Use.after_tau]
    exact ⟨hx.head, hx.status, hx.holds, hx.acquiring,
      fun hc ↦ List.mem_cons_of_mem θ (hx.registered hc), hx.unique⟩
  | @unregister t θ h hcalls =>
    have hne {c : C} (hc : (x.stack.places c).Active) : thread c ≠ θ := hcalls c hc
    cases h with
    | unregister _ hidle hlock =>
      refine ⟨hx.head, hx.status, fun {c a} hc ↦ ?_, fun {c value} hc ↦ ?_, fun {c} hc ↦ ?_,
        hx.unique⟩
      · refine HazardPtr.after_of_ne θ ?_ _ _ (hne (Place.active_of_protects hc)) (hx.holds hc)
        simp [HazardPtr.Label.GivesUp]
      · have hplace := hne (c := c) (by rw [hc]; trivial)
        change update _ θ _ (thread c) = _ ∨ update _ θ _ (thread c) = _
        rw [update_of_ne hplace]
        exact hx.acquiring hc
      · exact (List.mem_erase_of_ne (hne hc)).mpr (hx.registered hc)
  | @call s c h hc hθ hregistered hcalls =>
    obtain ⟨hhead, hstatus, hprotects, hacquiring⟩ := h.shows_inner (.inr hc)
    refine hx.move (fun d _ hd ↦ hcalls d hd) hregistered (fun d hd ↦ h.places_of_ne rfl hd)
      (fun _ _ ↦ rfl) rfl (hx.head.trans hhead.symm) (fun a ↦ ?_) (fun _ _ _ h ↦ h) (fun a ha ↦ ?_)
      fun value hv ↦ absurd hv (hacquiring value)
    · rw [hstatus]
      exact hx.status a
    · exact hx.holds (hprotects a ha)
  | @inner s c h hc hθ =>
    have hactive := Place.active_of_inner hc
    obtain ⟨hhead, hstatus, hprotects, hacquiring⟩ := h.shows_inner (.inl hc)
    refine hx.move (hx.free hactive) (hx.registered hactive) (fun d hd ↦ h.places_of_ne rfl hd)
      (fun _ _ ↦ rfl) rfl (hx.head.trans hhead.symm) (fun a ↦ ?_) (fun _ _ _ h ↦ h) (fun a ha ↦ ?_)
      fun value hv ↦ absurd hv (hacquiring value)
    · rw [hstatus]
      exact hx.status a
    · exact hx.holds (hprotects a ha)
  | allocate c value old_head a hc hθ ha =>
    have hactive : (x.stack.places c).Active := by rw [hc]; trivial
    rw [Use.after_tau]
    refine hx.move (hx.free hactive) (hx.registered hactive) (fun d hd ↦ update_of_ne hd _ _)
      (fun _ _ ↦ rfl) rfl hx.head (hx.status_update a .allocated) (fun _ _ _ h ↦ h) (fun b hb ↦ ?_)
      fun v hv ↦ ?_
    · rw [show ((x.stack.mark a .allocated).write a _ |>.go c _).places c =
        _ from update_self _ _ _] at hb
      cases hb
    · rw [show ((x.stack.mark a .allocated).write a _ |>.go c _).places c =
        _ from update_self _ _ _] at hv
      cases hv
  | @exchange l s c h hl hθ =>
    obtain ⟨hactive, -, hstatus, hprotects, hacquiring⟩ := h.shows_exchange hl
    have hhead : update x.hazard.locations () s.head_ () = s.head_ := update_self _ _ _
    rw [Use.after_tau]
    refine hx.move (hx.free hactive) (hx.registered hactive) (fun d hd ↦ h.places_of_ne hl.call hd)
      (fun _ _ ↦ rfl) rfl hhead (fun a ↦ ?_) (fun _ _ _ h ↦ h) (fun a ha ↦ ?_)
      fun value hv ↦ absurd hv (hacquiring value)
    · rw [hstatus]
      exact hx.status a
    · exact hx.holds (hprotects a ha)
  | acquire c hc hθ =>
    have hactive : (x.stack.places c).Active := by rw [hc]; trivial
    have hself : (x.stack.go c (.acquiring x.stack.head_)).places c = _ := update_self _ _ _
    refine hx.move (hx.free hactive) (hx.registered hactive) (fun d hd ↦ update_of_ne hd _ _)
      (fun θ hθ ↦ update_of_ne hθ _ _) rfl hx.head hx.status
      (HazardPtr.after_of_ne (thread c) (by simp [HazardPtr.Label.GivesUp]))
        (fun a ha ↦ ?_) fun value hv ↦ .inl ?_
    · rw [hself] at ha
      cases ha
    · rw [hself] at hv
      cases hv
      exact update_self _ _ _
  | store c value hc hθ =>
    have hactive : (x.stack.places c).Active := by rw [hc]; trivial
    rw [Use.after_tau]
    refine hx.move (hx.free hactive) (hx.registered hactive) (fun _ _ ↦ rfl)
      (fun θ hθ ↦ update_of_ne hθ _ _) rfl hx.head hx.status (fun _ _ _ h ↦ h)
        (fun a ha ↦ hx.holds ha)
      fun v hv ↦ .inr ?_
    obtain rfl : value = v := Place.acquiring.inj (hc.symm.trans hv)
    exact update_self _ _ _
  | again c value hc hθ hhead =>
    have hactive : (x.stack.places c).Active := by rw [hc]; trivial
    have hself : (x.stack.go c (.acquiring x.stack.head_)).places c = _ := update_self _ _ _
    rw [Use.after_tau]
    refine hx.move (hx.free hactive) (hx.registered hactive) (fun d hd ↦ update_of_ne hd _ _)
      (fun θ hθ ↦ update_of_ne hθ _ _) rfl hx.head hx.status (fun _ _ _ h ↦ h) (fun a ha ↦ ?_)
      fun v hv ↦ .inl ?_
    · rw [hself] at ha
      cases ha
    · rw [hself] at hv
      cases hv
      exact update_self _ _ _
  | acquired c a hc hθ hhead =>
    have hactive : (x.stack.places c).Active := by rw [hc]; trivial
    have hself : (x.stack.go c (.reading a)).places c = _ := update_self _ _ _
    refine hx.move (hx.free hactive) (hx.registered hactive) (fun d hd ↦ update_of_ne hd _ _)
      (fun θ hθ ↦ update_of_ne hθ _ _) rfl hx.head hx.status
      (HazardPtr.after_of_ne (thread c) (by simp [HazardPtr.Label.GivesUp]))
        (fun b hb ↦ ?_) fun v hv ↦ ?_
    · rw [hself] at hb
      cases hb
      exact .inl rfl
    · rw [hself] at hv
      cases hv
  | empty c hc hθ hhead =>
    have hactive : (x.stack.places c).Active := by rw [hc]; trivial
    have hself : (x.stack.go c .empty).places c = _ := update_self _ _ _
    refine hx.move (hx.free hactive) (hx.registered hactive) (fun d hd ↦ update_of_ne hd _ _)
      (fun θ hθ ↦ update_of_ne hθ _ _) rfl hx.head hx.status
      (HazardPtr.after_of_ne (thread c) (by simp [HazardPtr.Label.GivesUp]))
        (fun b hb ↦ ?_) fun v hv ↦ ?_
    · rw [hself] at hb
      cases hb
    · rw [hself] at hv
      cases hv
  | release c a value hc hθ =>
    have hactive : (x.stack.places c).Active := by rw [hc]; trivial
    have hself : (x.stack.go c (.retiring a value)).places c = _ := update_self _ _ _
    refine hx.move (hx.free hactive) (hx.registered hactive) (fun d hd ↦ update_of_ne hd _ _)
      (fun _ _ ↦ rfl) rfl hx.head hx.status
      (HazardPtr.after_of_ne (thread c) (by simp [HazardPtr.Label.GivesUp]))
        (fun b hb ↦ ?_) fun v hv ↦ ?_
    · rw [hself] at hb
      cases hb
    · rw [hself] at hv
      cases hv
  | @retire l s c a n h hl hc hθ hn =>
    obtain ⟨hactive, hhead, hstatus, hprotects, hacquiring⟩ := h.shows_retire hl hc
    rw [Use.after_of_quiet (by simp) (by simp [HazardPtr.Label.GivesUp])]
    refine hx.move (hx.free hactive) (hx.registered hactive) (fun d hd ↦ h.places_of_ne hl.call hd)
      (fun θ hθ ↦ update_of_ne hθ _ _) rfl (hx.head.trans hhead.symm) (fun b ↦ ?_) (fun _ _ _ h ↦ h)
      (fun b hb ↦ hx.holds (hprotects b hb)) fun v hv ↦ absurd hv (hacquiring v)
    rw [hstatus]
    exact hx.status_update a .retired b
  | @background t h ht =>
    rw [Use.after_tau]
    refine ⟨?_, fun a ↦ ?_, hx.holds, fun {c value} hc ↦ ?_, fun hc ↦ ?_, hx.unique⟩
    · rw [ht.locations]
      exact hx.head
    · rw [ht.status]
      exact hx.status a
    · have hsame : t.places (thread c) = x.hazard.places (thread c) := by
        refine ht.places _ ?_
        rcases hx.acquiring hc with h | h
        · rw [h]
          exact id
        · rw [h]
          exact id
      rw [hsame]
      exact hx.acquiring hc
    · rw [ht.threads]
      exact hx.registered hc
  | @delete t θ a m h =>
    rw [Use.after_of_quiet (by simp) (by simp [HazardPtr.Label.GivesUp])]
    cases h with
    | delete _ n hazard hplace hn =>
      refine ⟨hx.head, hx.status_update _ .free, hx.holds, fun {c value} hc ↦ ?_, hx.registered,
        hx.unique⟩
      · have hne : thread c ≠ θ := by
          rintro rfl
          rcases hx.acquiring hc with h | h
          · cases h.symm.trans hplace
          · cases h.symm.trans hplace
        change update _ θ _ (thread c) = _ ∨ update _ θ _ (thread c) = _
        rw [update_of_ne hne]
        exact hx.acquiring hc

/-- **Each keeps its promises as long as the other one does.** -/
theorem Both.Inv.step (hinv : Both.Inv thread owned owned' holds x)
    (hstep : Both.Step thread x u x') :
    ∃ owned₁ owned₁', Both.Inv thread owned₁ owned₁' (u.after holds) x' := by
  have hcoupled := hinv.coupled_step hstep
  have hstack : ∃ owned₁, LockFreeStack.Inv owned₁ x'.stack := by
    have hmoves := hinv.stack_moves hstep
    cases hu : u.stack with
    | none =>
      rw [hu, Lib.moves_none] at hmoves
      exact ⟨owned, hmoves ▸ hinv.stack⟩
    | some l =>
      rw [hu, Lib.moves_some] at hmoves
      obtain ⟨owned₁, hinv₁, -⟩ := hinv.stack.step hmoves
      exact ⟨owned₁, hinv₁⟩
  have hhazard : ∃ owned₁', HazardPtr.Inv owned₁' (u.after holds) x'.hazard := by
    have hmoves := hinv.hazard_moves hstep
    rw [Use.after]
    cases hu : u.hazard with
    | none =>
      rw [hu, Lib.moves_none] at hmoves
      exact ⟨owned', hmoves ▸ hinv.hazard⟩
    | some l =>
      rw [hu, Lib.moves_some] at hmoves
      obtain ⟨owned₁', hinv₁, -⟩ := hinv.hazard.step hmoves
      exact ⟨owned₁', hinv₁⟩
  obtain ⟨owned₁, hstack⟩ := hstack
  obtain ⟨owned₁', hhazard⟩ := hhazard
  exact ⟨owned₁, owned₁', hstack, hhazard, hcoupled⟩

end Promises

/-! ## The main result -/

section Runs

variable {thread : C → Θ} {nodes : A → Node A V} {retired : N → HazardPtr.RetiredPtr A N}
  {h : List (Both C Θ A N V × Use C Θ A V)} {x : Both C Θ A N V}

/-- The stack and the list from `head_`, after a trace of the stack. -/
theorem exists_abstract {h : List (State C A V × Label C A V)} {s : State C A V}
    (hrun : Trace Step (init nodes) h s) :
    ∃ h' o as, Trace Abstract.Step Abstract.init h' o ∧ h'.map Prod.snd = h.map Prod.snd ∧
      Chain s.next s.head_ as ∧ o.stack = as.map s.value := by
  have hstep (s : State C A V) (l : Label C A V) (s' : State C A V) (o : Abstract C V)
      (hs : ∃ owned, Inv owned s ∧ o = abs owned s) (hstep : Step s l s') :
      ∃ o', Abstract.Step o l o' ∧ ∃ owned, Inv owned s' ∧ o' = abs owned s' := by
    obtain ⟨owned, hinv, rfl⟩ := hs
    obtain ⟨owned₁, hinv₁, habs⟩ := hinv.step hstep
    exact ⟨_, habs, owned₁, hinv₁, rfl⟩
  have hinit : ∃ owned : Option C → List A, Inv owned (init nodes) ∧
      Abstract.init = abs owned (init nodes) := ⟨fun _ ↦ [], inv_init nodes, rfl⟩
  obtain ⟨h', o, habstract, hlabels, owned, hinv, rfl⟩ := hrun.simulation hinit hstep
  exact ⟨h', _, owned none, habstract, hlabels, hinv.chain, rfl⟩

/-- **The stack works with these hazard pointers, and they with this stack.**  Nothing is promised:
in every run of the two together, what happens to the stack is a run of the stack under the promise
that no protected node is freed, and what happens to the hazard pointers a run of them under the
promises that are made about `head_` and `Retire`.  So no call reads a node that has been freed, and
the calls do what the abstract stack does, which holds the values of the nodes from `head_` on. -/
theorem stack_over_hazard_pointers (hrun : Trace (Both.Step thread) (Both.init nodes retired) h x) :
    (∃ h₁, Trace Step (init nodes) h₁ x.stack ∧
      h₁.map Prod.snd = h.filterMap fun y ↦ y.2.stack) ∧
    (∃ h₂, Trace HazardPtr.Step (HazardPtr.init retired) h₂ x.hazard ∧
      h₂.map Prod.snd = h.filterMap fun y ↦ y.2.hazard) ∧
    (∀ c a, (x.stack.places c).protects = some a → x.stack.status a ≠ .free) ∧
    ∃ h₃ o as, Trace Abstract.Step Abstract.init h₃ o ∧
      h₃.map Prod.snd = (h.filterMap fun y ↦ y.2.stack) ∧
      Chain x.stack.next x.stack.head_ as ∧ o.stack = as.map x.stack.value := by
  have hinit : ∃ owned owned' holds, Both.Inv thread owned owned' holds (Both.init nodes retired) :=
    ⟨_, _, _, Both.inv_init thread nodes retired⟩
  have hkept (x : Both C Θ A N V) (u : Use C Θ A V) (x' : Both C Θ A N V)
      (hx : ∃ owned owned' holds, Both.Inv thread owned owned' holds x)
        (hstep : Both.Step thread x u x') :
      ∃ owned owned' holds, Both.Inv thread owned owned' holds x' := by
    obtain ⟨owned, owned', holds, hinv⟩ := hx
    obtain ⟨owned₁, owned₁', hinv₁⟩ := hinv.step hstep
    exact ⟨owned₁, owned₁', _, hinv₁⟩
  obtain ⟨h₁, hstack, hlabels₁⟩ :=
    hrun.project Both.stack Use.stack hinit hkept fun x u x' hx hstep ↦ by
    obtain ⟨_, _, _, hinv⟩ := hx
    exact hinv.stack_moves hstep
  obtain ⟨h₂, hhazard, hlabels₂⟩ :=
    hrun.project Both.hazard Use.hazard hinit hkept fun x u x' hx hstep ↦ by
    obtain ⟨_, _, _, hinv⟩ := hx
    exact hinv.hazard_moves hstep
  obtain ⟨owned, owned', holds, hinv⟩ := hrun.invariant (I := fun _ x ↦
    ∃ owned owned' holds, Both.Inv thread owned owned' holds x) hinit fun _ x u x' ↦ hkept x u x'
  obtain ⟨h₃, o, as, habstract, hlabels₃, hchain, hvalues⟩ := exists_abstract hstack
  exact ⟨⟨h₁, hstack, hlabels₁⟩, ⟨h₂, hhazard, hlabels₂⟩, fun c a hc ↦ hinv.stack.inUse hc,
    h₃, o, as, habstract, hlabels₃.trans hlabels₁, hchain, hvalues⟩

end Runs

/-- A thread pushes a value and calls `Pop`, which has its node from `Acquire` and reads it. -/
theorem stack_over_hazard_pointers_pop :
    ∃ (h : List (Both Bool Unit ℕ ℕ ℕ × Use Bool Unit ℕ ℕ)) (x : Both Bool Unit ℕ ℕ ℕ),
      Trace (Both.Step fun _ ↦ ()) (Both.init (fun _ ↦ ⟨0, none⟩) fun _ ↦ ⟨0, none⟩) h x ∧
        (x.stack.places true).protects = some 0 ∧ x.stack.status 0 ≠ .free := by
  have hrun := (.nil : Trace (Both.Step fun _ ↦ ())
      (Both.init (fun _ ↦ ⟨0, none⟩) fun _ ↦ ⟨0, none⟩ : Both Bool Unit ℕ ℕ ℕ) [] _)
    |>.snoc (.register () rfl rfl)
    |>.snoc (.call false (.callPush false 7 rfl) rfl rfl (by simp)
      (by simp [Both.init, init, Place.Active]))
    |>.snoc (.inner false (.pushLoad false 7 rfl) trivial rfl)
    |>.snoc (.allocate false 7 none 0 rfl rfl rfl)
    |>.snoc (.exchange false (.push false 7 0 none rfl rfl) (.inl ⟨7, rfl⟩) rfl)
    |>.snoc (.call true (.callPop true rfl) rfl rfl (by simp) (by
      intro d hd
      cases d with
      | false => exact hd.elim
      | true => exact hd.elim))
    |>.snoc (.acquire true rfl rfl)
    |>.snoc (.store true (some 0) rfl rfl)
    |>.snoc (.acquired true 0 rfl rfl rfl)
  have hprotects := (stack_over_hazard_pointers hrun).2.2.1 true 0 rfl
  exact ⟨_, _, hrun, rfl, hprotects⟩

end LockFreeStack
end ManyTasks
