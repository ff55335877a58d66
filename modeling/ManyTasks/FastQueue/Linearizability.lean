import ManyTasks.FastQueue.Steps
import ManyTasks.Lib.Atomic

/-!
# The queue from outside

What is seen of the queue from outside is when the calls begin and what they return.  All of it can
be seen of a list as well, to which an `Enqueue` that succeeds appends its value at one moment of
the call, and from which a `Dequeue` that succeeds takes the first one (`queue_linearizable`).  The
moments are those at which the calls take their tickets, and the list holds the values of the
tickets between `head_` and `tail_`, though some of them may still have to be written.

A call may fail though the list is neither full nor empty, because it does not wait for another one:
`Enqueue` only if a `Dequeue` is under way that has taken its value already, and `Dequeue` only if
the `Enqueue` of the first value is under way.
-/

set_option autoImplicit false

namespace ManyTasks
namespace FastQueue

open Function (update update_self update_of_ne)
open Lib (Label Progress Trace)

variable {C V : Type}

/-! ## What is seen -/

/-- The functions of the queue. -/
inductive Op (V : Type) where
  | enqueue (value : V)
  | dequeue
deriving DecidableEq, Repr

/-- What they return; `Dequeue` also what it has written to `data`. -/
inductive Result (V : Type) where
  | enqueued (ok : Bool)
  | dequeued (data : Option V)
deriving DecidableEq, Repr

/-- What is seen when a call gets from one place to another. -/
def Place.seen (c : C) : Place V → Place V → Label C (Op V) (Result V)
  | .idle, .enqueuing value => .call c (.enqueue value)
  | .idle, .dequeuing => .call c .dequeue
  | _, .enqueued _ _ => .ret c (.enqueued true)
  | _, .full _ => .ret c (.enqueued false)
  | _, .dequeued _ data => .ret c (.dequeued data)
  | _, .empty => .ret c (.dequeued none)
  | _, _ => .tau

/-! ## The list -/

/-- The values, each with the call that has put it in, and how far the calls are. -/
structure Abstract (C V : Type) where
  items : List (C × V)
  calls : C → Progress (Op V) (Result V)

/-- Nothing has been done. -/
def Abstract.init : Abstract C V := ⟨[], fun _ ↦ .idle⟩

variable [DecidableEq C]

/-- One step of one call, as far as it is seen. -/
def State.Seen (s : State C V) (l : Label C (Op V) (Result V)) (s' : State C V) : Prop :=
  ∃ c, Step s c s' ∧ l = (s.places c).seen c (s'.places c)

def Abstract.go (o : Abstract C V) (c : C) (p : Progress (Op V) (Result V)) : Abstract C V :=
  { o with calls := update o.calls c p }

@[simp]
theorem Abstract.go_calls (o : Abstract C V) (c : C) (p : Progress (Op V) (Result V)) :
    (o.go c p).calls = update o.calls c p := rfl

/-- What the calls do to the list. -/
inductive Abstract.Step (size : ℕ) : Abstract C V → Label C (Op V) (Result V) → Abstract C V →
    Prop where
  | call {o} (c op) (h : o.calls c = .idle) : Step size o (.call c op) (o.go c (.called op))
  /-- A value is appended. -/
  | enqueue {o} (c value) (h : o.calls c = .called (.enqueue value))
      (hroom : o.items.length < size) :
      Step size o .tau (Abstract.go { o with items := o.items ++ [(c, value)] } c
        (.done (.enqueue value) (.enqueued true)))
  /-- There is no room, or who makes it has not returned yet. -/
  | full {o} (c value) (h : o.calls c = .called (.enqueue value))
      (hfull : o.items.length = size ∨ ∃ d v, o.calls d = .done .dequeue (.dequeued (some v))) :
      Step size o (.ret c (.enqueued false)) (o.go c (.returned (.enqueue value) (.enqueued false)))
  /-- The first value is taken. -/
  | dequeue {o} (c d value items) (h : o.calls c = .called .dequeue)
      (hitems : o.items = (d, value) :: items) :
      Step size o .tau (Abstract.go { o with items := items } c
        (.done .dequeue (.dequeued (some value))))
  /-- There is no value, or who appends the first one has not returned yet. -/
  | empty {o} (c) (h : o.calls c = .called .dequeue)
      (hempty : ∀ d value items, o.items = (d, value) :: items →
        o.calls d = .done (.enqueue value) (.enqueued true)) :
      Step size o (.ret c (.dequeued none)) (o.go c (.returned .dequeue (.dequeued none)))
  | ret {o} (c op res) (h : o.calls c = .done op res) :
      Step size o (.ret c res) (o.go c (.returned op res))
  | stutter {o} : Step size o .tau o

/-! ## What the list stands for -/

/-- The value of an `Enqueue` that has taken a ticket, and the ticket. -/
def Place.pushes : Place V → Option (V × ℕ)
  | .writing value tail | .publishing value tail | .enqueued value tail => some (value, tail)
  | _ => none

/-- Where a call is, and how far it is from outside. -/
def Place.Matches (s : State C V) : Place V → Progress (Op V) (Result V) → Prop
  | .idle, p => p = .idle
  | .enqueuing value, p | .checkTail value _, p | .claimTail value _, p =>
    p = .called (.enqueue value)
  | .writing value _, p | .publishing value _, p => p = .done (.enqueue value) (.enqueued true)
  | .enqueued value _, p => p = .returned (.enqueue value) (.enqueued true)
  | .full value, p => p = .returned (.enqueue value) (.enqueued false)
  | .dequeuing, p | .checkHead _, p | .claimHead _, p => p = .called .dequeue
  | .reading head, p => ∃ c value, (s.places c).pushes = some (value, head) ∧
      p = .done .dequeue (.dequeued (some value))
  | .freeing _ data, p => p = .done .dequeue (.dequeued data)
  | .dequeued _ data, p => p = .returned .dequeue (.dequeued data)
  | .empty, p => p = .returned .dequeue (.dequeued none)

/-- The list has the values of the tickets between the two ends. -/
structure Represents (k : ℕ) (s : State C V) (o : Abstract C V) : Prop where
  inv : Inv k s
  length : s.head_ + o.items.length = s.tail_
  items : ∀ j c value, o.items[j]? = some (c, value) →
    (s.places c).pushes = some (value, s.head_ + j)
  calls : ∀ c, (s.places c).Matches s (o.calls c)

omit [DecidableEq C] in
theorem represents_init (k : ℕ) : Represents k (init (2 ^ k) : State C V) Abstract.init where
  inv := inv_init k
  length := rfl
  items j c value h := by simp [Abstract.init] at h
  calls _ := rfl

omit [DecidableEq C] in
theorem Place.pushed_of_pushes {p : Place V} {value : V} {t : ℕ} (h : p.pushes = some (value, t)) :
    p.pushed = some t := by
  cases p with
  | writing | publishing | enqueued =>
    simp only [Place.pushes, Option.some.injEq, Prod.mk.injEq] at h
    exact congrArg some h.2
  | _ => simp [Place.pushes] at h

/-- A ticket keeps its value. -/
theorem Step.pushes {s s' : State C V} {c c' : C} (hstep : Step s c s') {x : V × ℕ}
    (h : (s.places c').pushes = some x) : (s'.places c').pushes = some x := by
  by_cases hc : c' = c
  · subst hc
    cases hstep with
    | write value tail hplace | publish value tail hplace =>
      simp only [update_self]
      rwa [hplace] at h
    | _ hplace => simp [*, Place.pushes] at h
  · cases hstep <;> simpa only [update_of_ne hc] using h

omit [DecidableEq C] in
/-- What a call is seen to have done stays so, as long as the tickets keep their values. -/
theorem Place.Matches.mono {s s' : State C V} {p : Place V} {q : Progress (Op V) (Result V)}
    (h : p.Matches s q) (hpushes : ∀ c x, (s.places c).pushes = some x →
      (s'.places c).pushes = some x) : p.Matches s' q := by
  cases p with
  | reading head =>
    obtain ⟨c, value, hc, hq⟩ := h
    exact ⟨c, value, hpushes c _ hc, hq⟩
  | _ => exact h

/-! ## Why a call fails -/

section Failures

variable {k : ℕ} {s : State C V}

omit [DecidableEq C] in
/-- The generation of a slot does not fall behind a ticket that has been taken for it. -/
theorem Inv.le_generation (hinv : Inv k s) {t : ℕ} (ht : t < s.tail_) :
    t ≤ s.generation (s.index t) := by
  induction hn : s.tail_ - t using Nat.strong_induction_on generalizing t with
  | _ n ih =>
    have hpos := hinv.pos
    rcases Nat.lt_or_ge (t + s.max_size_) s.tail_ with hlater | hlast
    · -- a later ticket has the same slot
      have hle := ih (s.tail_ - (t + s.max_size_)) (by omega) hlater rfl
      have hslot : s.index (t + s.max_size_) = s.index t := by
        rw [hinv.index, hinv.index, Nat.add_mod_right]
      rw [hslot] at hle
      omega
    · obtain ⟨c, hc⟩ := hinv.pushed.taken t ht
      have hclaims := hinv.claims c
      generalize s.places c = p at hc hclaims
      cases p with
      | writing v t' | publishing v t' =>
        obtain rfl : t' = t := by simpa [Place.pushed] using hc
        have hgen : s.generation (s.index t') = t' := hclaims (t', t') rfl
        exact hgen.ge
      | enqueued v t' =>
        obtain rfl : t' = t := by simpa [Place.pushed] using hc
        rcases Nat.lt_or_ge t' s.head_ with hgone | hthere
        · obtain ⟨d, hd⟩ := hinv.popped.taken t' hgone
          have hdclaims := hinv.claims d
          generalize s.places d = q at hd hdclaims
          cases q with
          | reading h | freeing h data =>
            obtain rfl : h = t' := by simpa [Place.popped] using hd
            have hgen : s.generation (s.index h) = h + 1 := hdclaims (h, h + 1) rfl
            omega
          | dequeued h data =>
            obtain rfl : h = t' := by simpa [Place.popped] using hd
            have hgen : s.generation (s.index h) = h + s.max_size_ :=
              hdclaims (h, h + s.max_size_) (by simp [Place.claims, hlast])
            omega
          | _ => simp [Place.popped] at hd
        · have hgen : s.generation (s.index t') = t' + 1 :=
            hclaims (t', t' + 1) (by simp [Place.claims, hthere])
          omega
      | _ => simp [Place.pushed] at hc

omit [DecidableEq C] in
/-- `Enqueue` fails: there are as many values as slots, or the one it has to wait for is being
taken. -/
theorem Inv.full_cases (hinv : Inv k s) (hk : 1 ≤ k) {t : ℕ} (ht : t ≤ s.tail_)
    (hfull : s.generation (s.index t) + s.bit_mask_ ≤ t) :
    s.tail_ = s.head_ + s.max_size_ ∨
      ∃ c h, s.places c = .reading h ∨ ∃ data, s.places c = .freeing h data := by
  have htwo := hinv.two_le hk
  rw [State.bit_mask_] at hfull
  have heq : t = s.tail_ := by
    rcases ht.lt_or_eq with hlt | heq
    · have hle := hinv.le_generation hlt
      omega
    · exact heq
  subst heq
  rcases hinv.tail_slot with ⟨hroom, hgen | ⟨hgen, -⟩⟩ | ⟨heq, -⟩
  · omega
  · right
    have hused : s.max_size_ ≤ s.tail_ := by
      by_contra hlt
      have hfresh := hinv.fresh s.tail_ (by omega) le_rfl
      rw [hinv.index, Nat.mod_eq_of_lt (by omega)] at hgen
      omega
    obtain ⟨h, hh⟩ := Nat.exists_eq_add_of_le' hused
    obtain ⟨c, hc⟩ := hinv.popped.taken h (by omega)
    have hclaims := hinv.claims c
    refine ⟨c, h, ?_⟩
    cases hp : s.places c with
    | reading h' =>
      obtain rfl : h' = h := by simpa [hp, Place.popped] using hc
      exact .inl rfl
    | freeing h' data =>
      obtain rfl : h' = h := by simpa [hp, Place.popped] using hc
      exact .inr ⟨data, rfl⟩
    | dequeued h' data =>
      obtain rfl : h' = h := by simpa [hp, Place.popped] using hc
      rw [hp] at hclaims
      have hfree : s.generation (s.index h') = h' + s.max_size_ :=
        hclaims (h', h' + s.max_size_) (by simp [Place.claims, hh])
      have hslot : s.index s.tail_ = s.index h' := by
        rw [hinv.index, hinv.index, hh, Nat.add_mod_right]
      rw [hslot] at hgen
      omega
    | _ => simp [hp, Place.popped] at hc
  · exact .inl heq

omit [DecidableEq C] in
/-- `Dequeue` fails: there is no value, or the first one is being put in. -/
theorem Inv.empty_cases (hinv : Inv k s) {h : ℕ} (hh : h ≤ s.head_)
    (hempty : s.generation (s.index h) < h + 1) :
    s.head_ = s.tail_ ∨ ∃ c v, s.places c = .writing v s.head_ ∨
      s.places c = .publishing v s.head_ := by
  have heq : h = s.head_ := by
    rcases hh.lt_or_eq with hlt | heq
    · obtain ⟨d, hd⟩ := hinv.popped.taken h hlt
      have hclaims := hinv.claims d
      have hpos := hinv.pos
      generalize s.places d = q at hd hclaims
      cases q with
      | reading h' | freeing h' data =>
        obtain rfl : h' = h := by simpa [Place.popped] using hd
        have hgen : s.generation (s.index h') = h' + 1 := hclaims (h', h' + 1) rfl
        omega
      | dequeued h' data =>
        obtain rfl : h' = h := by simpa [Place.popped] using hd
        rcases Nat.lt_or_ge (h' + s.max_size_) s.tail_ with hlater | hlast
        · have hle := hinv.le_generation hlater
          have hslot : s.index (h' + s.max_size_) = s.index h' := by
            rw [hinv.index, hinv.index, Nat.add_mod_right]
          rw [hslot] at hle
          omega
        · have hgen : s.generation (s.index h') = h' + s.max_size_ :=
            hclaims (h', h' + s.max_size_) (by simp [Place.claims, hlast])
          omega
      | _ => simp [Place.popped] at hd
    · exact heq
  subst heq
  rcases hinv.lower.lt_or_eq with hlt | heq
  · right
    obtain ⟨c, hc⟩ := hinv.pushed.taken s.head_ hlt
    have hclaims := hinv.claims c
    cases hp : s.places c with
    | writing v t =>
      obtain rfl : t = s.head_ := by simpa [hp, Place.pushed] using hc
      exact ⟨c, v, .inl hp⟩
    | publishing v t =>
      obtain rfl : t = s.head_ := by simpa [hp, Place.pushed] using hc
      exact ⟨c, v, .inr hp⟩
    | enqueued v t =>
      obtain rfl : t = s.head_ := by simpa [hp, Place.pushed] using hc
      rw [hp] at hclaims
      have hgen : s.generation (s.index s.head_) = s.head_ + 1 :=
        hclaims (s.head_, s.head_ + 1) (by simp [Place.claims])
      omega
    | _ => simp [hp, Place.pushed] at hc
  · exact .inl heq

end Failures

section Simulation

variable {k : ℕ} {s s' : State C V} {o : Abstract C V} {c : C}

/-- A call goes on. -/
theorem Represents.move (h : Represents k s o) (hinv : Inv k s') {p : Place V}
    (hp : s'.places = update s.places c p)
    (hpushes : ∀ c' x, (s.places c').pushes = some x → (s'.places c').pushes = some x)
    {q : Progress (Op V) (Result V)} (hq : p.Matches s' q) {items : List (C × V)}
    (hlength : s'.head_ + items.length = s'.tail_)
    (hitems : ∀ j d value, items[j]? = some (d, value) →
      (s'.places d).pushes = some (value, s'.head_ + j)) :
    Represents k s' (Abstract.go { o with items := items } c q) where
  inv := hinv
  length := hlength
  items := hitems
  calls d := by
    by_cases hd : d = c
    · subst hd
      rw [hp, Abstract.go_calls, update_self, update_self]
      exact hq
    · rw [hp, Abstract.go_calls, update_of_ne hd, update_of_ne hd]
      exact (h.calls d).mono hpushes

/-- A call goes on, and the list stays as it is. -/
theorem Represents.go (h : Represents k s o) (hinv : Inv k s') {p : Place V}
    (hp : s'.places = update s.places c p) (hhead : s'.head_ = s.head_) (htail : s'.tail_ = s.tail_)
    (hpushes : ∀ c' x, (s.places c').pushes = some x → (s'.places c').pushes = some x)
    {q : Progress (Op V) (Result V)} (hq : p.Matches s' q) : Represents k s' (o.go c q) := by
  refine h.move hinv hp hpushes hq ?_ fun j d value hj ↦ ?_
  · rw [hhead, htail]
    exact h.length
  · rw [hhead]
    exact hpushes d _ (h.items j d value hj)

/-- A call goes on, and nothing is seen of it. -/
theorem Represents.quiet (h : Represents k s o) (hinv : Inv k s') {p : Place V}
    (hp : s'.places = update s.places c p) (hhead : s'.head_ = s.head_) (htail : s'.tail_ = s.tail_)
    (hpushes : ∀ c' x, (s.places c').pushes = some x → (s'.places c').pushes = some x)
    (hq : p.Matches s' (o.calls c)) : Represents k s' o := by
  have hgo := h.go hinv hp hhead htail hpushes hq
  rwa [Abstract.go, Function.update_eq_self] at hgo

omit [DecidableEq C] in
/-- A call that has not returned from taking a value. -/
theorem Represents.taking (h : Represents k s o) {t : ℕ}
    (hc : s.places c = .reading t ∨ ∃ data, s.places c = .freeing t data) :
    ∃ v, o.calls c = .done .dequeue (.dequeued (some v)) := by
  have hmatches := h.calls c
  have hholds := h.inv.holds c
  rcases hc with hc | ⟨data, hc⟩
  · rw [hc] at hmatches
    obtain ⟨d, v, -, hq⟩ := hmatches
    exact ⟨v, hq⟩
  · rw [hc] at hmatches hholds
    obtain ⟨v, -, rfl⟩ := hholds
    exact ⟨v, hmatches⟩

omit [DecidableEq C] in
/-- What `Dequeue` finds in its slot is the value of its ticket. -/
theorem Represents.value_eq (h : Represents k s o) {t : ℕ} {d : C} {v : V}
    (hc : s.places c = .reading t) (hd : (s.places d).pushes = some (v, t)) :
    s.value (s.index t) = some v := by
  have hholds := h.inv.holds c
  rw [hc] at hholds
  obtain ⟨v', ⟨d', hd'⟩, hvalue⟩ := hholds
  obtain rfl : d = d' := h.inv.pushed.unique d d' t (Place.pushed_of_pushes hd) (by rw [hd']; rfl)
  rw [hd'] at hd
  simp only [Place.pushes, Option.some.injEq, Prod.mk.injEq, and_true] at hd
  rw [hvalue, hd]

/-- `Enqueue` takes its ticket. -/
theorem Represents.enqueue (h : Represents k s o) {v : V} (hc : s.places c = .claimTail v s.tail_)
    (hstep : Step s c s') (hinv : Inv k s')
    (hs' : s' = { s with tail_ := s.tail_ + 1, places := update s.places c (.writing v s.tail_) }) :
    ∃ o', Abstract.Step (2 ^ k) o .tau o' ∧ Represents k s' o' := by
  have hmatches := h.calls c
  have hrange := h.inv.inRange c
  rw [hc] at hmatches hrange
  have hroom := hrange.2 rfl
  have hlength := h.length
  have hsize := h.inv.max_size_
  refine ⟨_, .enqueue c v hmatches (by omega), ?_⟩
  subst hs'
  refine h.move hinv rfl (fun c' x hx ↦ hstep.pushes hx) rfl ?_ fun j d value hj ↦ ?_
  · rw [List.length_append, List.length_singleton]
    dsimp only
    omega
  · rw [List.getElem?_append] at hj
    split at hj
    · exact hstep.pushes (h.items j d value hj)
    · rename_i hge
      obtain rfl : j = o.items.length := by
        have hlt := (List.getElem?_eq_some_iff.mp hj).1
        simp only [List.length_singleton] at hlt
        omega
      simp only [Nat.sub_self, List.getElem?_cons_zero, Option.some.injEq, Prod.mk.injEq] at hj
      obtain ⟨rfl, rfl⟩ := hj
      simp only [update_self, Place.pushes, hlength]

/-- `Dequeue` takes its ticket. -/
theorem Represents.dequeue (h : Represents k s o) (hc : s.places c = .claimHead s.head_)
    (hstep : Step s c s') (hinv : Inv k s')
    (hs' : s' = { s with head_ := s.head_ + 1, places := update s.places c (.reading s.head_) }) :
    ∃ o', Abstract.Step (2 ^ k) o .tau o' ∧ Represents k s' o' := by
  have hmatches := h.calls c
  have hrange := h.inv.inRange c
  rw [hc] at hmatches hrange
  have hsome := hrange.2 rfl
  have hlength := h.length
  rcases hitems : o.items with _ | ⟨⟨d, v⟩, items⟩
  · rw [hitems, List.length_nil] at hlength
    omega
  · have hfirst := h.items 0 d v (by rw [hitems]; rfl)
    refine ⟨_, .dequeue c d v items hmatches hitems, ?_⟩
    subst hs'
    rw [hitems, List.length_cons] at hlength
    refine h.move hinv rfl (fun c' x hx ↦ hstep.pushes hx) ⟨d, v, hstep.pushes hfirst, rfl⟩ ?_
      fun j d' value hj ↦ ?_
    · dsimp only
      omega
    · have hnext := h.items (j + 1) d' value (by rw [hitems]; exact hj)
      rw [show s.head_ + (j + 1) = s.head_ + 1 + j by omega] at hnext
      exact hstep.pushes hnext

/-- **One step.**  Whatever is seen of the queue can be seen of the list. -/
theorem Represents.step (h : Represents k s o) (hk : 1 ≤ k) {l : Label C (Op V) (Result V)}
    (hseen : s.Seen l s') : ∃ o', Abstract.Step (2 ^ k) o l o' ∧ Represents k s' o' := by
  obtain ⟨c, hstep, rfl⟩ := hseen
  have hinv := inv_step h.inv hk hstep
  have hpushes (c' : C) (x : V × ℕ) (hx : (s.places c').pushes = some x) := hstep.pushes hx
  have hmatches := h.calls c
  cases hstep with
  | callEnqueue v hc =>
    rw [hc] at hmatches
    simp only [hc, update_self, Place.seen]
    exact ⟨_, .call c (.enqueue v) hmatches, h.go hinv rfl rfl rfl hpushes rfl⟩
  | callDequeue hc =>
    rw [hc] at hmatches
    simp only [hc, update_self, Place.seen]
    exact ⟨_, .call c .dequeue hmatches, h.go hinv rfl rfl rfl hpushes rfl⟩
  | loadTail v hc | missTail v t hc | write v t hc =>
    rw [hc] at hmatches
    simp only [hc, update_self, Place.seen]
    exact ⟨o, .stutter, h.quiet hinv rfl rfl rfl hpushes hmatches⟩
  | loadHead hc | missHead t hc =>
    rw [hc] at hmatches
    simp only [hc, update_self, Place.seen]
    exact ⟨o, .stutter, h.quiet hinv rfl rfl rfl hpushes hmatches⟩
  | checkTail v t hc =>
    have hrange := h.inv.inRange c
    rw [hc] at hmatches hrange
    by_cases hfull : s.generation (s.index t) + s.bit_mask_ ≤ t
    · simp only [State.checkTail, if_pos hfull] at hinv hpushes ⊢
      simp only [hc, update_self, Place.seen]
      refine ⟨_, .full c v hmatches ?_, h.go hinv rfl rfl rfl hpushes rfl⟩
      rcases h.inv.full_cases hk hrange hfull with heq | ⟨d, t', hd⟩
      · have hlength := h.length
        have hsize := h.inv.max_size_
        exact .inl (by omega)
      · obtain ⟨w, hw⟩ := h.taking hd
        exact .inr ⟨d, w, hw⟩
    · simp only [State.checkTail, if_neg hfull] at hinv hpushes ⊢
      simp only [hc, update_self, Place.seen]
      exact ⟨o, .stutter, h.quiet hinv rfl rfl rfl hpushes hmatches⟩
  | checkHead t hc =>
    have hrange := h.inv.inRange c
    rw [hc] at hmatches hrange
    by_cases hempty : s.generation (s.index t) < t + 1
    · simp only [State.checkHead, if_pos hempty] at hinv hpushes ⊢
      simp only [hc, update_self, Place.seen]
      refine ⟨_, .empty c hmatches fun d v items hitems ↦ ?_, h.go hinv rfl rfl rfl hpushes rfl⟩
      have hfirst := h.items 0 d v (by rw [hitems]; rfl)
      rcases h.inv.empty_cases hrange hempty with heq | ⟨d', v', hd'⟩
      · have hlength := h.length
        rw [hitems, List.length_cons] at hlength
        omega
      · have hticket : (s.places d').pushes = some (v', s.head_) := by
          rcases hd' with hd' | hd'
          · rw [hd']
            rfl
          · rw [hd']
            rfl
        obtain rfl : d = d' := h.inv.pushed.unique d d' s.head_ (Place.pushed_of_pushes hfirst)
          (Place.pushed_of_pushes hticket)
        obtain rfl : v = v' := by
          simpa using hfirst.symm.trans hticket
        have hwriter := h.calls d
        rcases hd' with hd' | hd'
        · rwa [hd'] at hwriter
        · rwa [hd'] at hwriter
    · simp only [State.checkHead, if_neg hempty] at hinv hpushes ⊢
      simp only [hc, update_self, Place.seen]
      exact ⟨o, .stutter, h.quiet hinv rfl rfl rfl hpushes hmatches⟩
  | claimTail v hc =>
    simp only [hc, update_self, Place.seen]
    exact h.enqueue hc (.claimTail c v hc) hinv rfl
  | claimHead hc =>
    simp only [hc, update_self, Place.seen]
    exact h.dequeue hc (.claimHead c hc) hinv rfl
  | publish v t hc =>
    rw [hc] at hmatches
    simp only [hc, update_self, Place.seen]
    exact ⟨_, .ret c _ _ hmatches, h.go hinv rfl rfl rfl hpushes rfl⟩
  | read t hc =>
    rw [hc] at hmatches
    obtain ⟨d, v, hd, hq⟩ := hmatches
    simp only [hc, update_self, Place.seen]
    refine ⟨o, .stutter, h.quiet hinv rfl rfl rfl hpushes ?_⟩
    rw [h.value_eq hc hd]
    exact hq
  | free t data hc =>
    rw [hc] at hmatches
    simp only [hc, update_self, Place.seen]
    exact ⟨_, .ret c _ _ hmatches, h.go hinv rfl rfl rfl hpushes rfl⟩

end Simulation

/-- **The queue is a bounded first-in first-out list.**  Whatever is seen of a queue with at least
two slots, when its calls begin and what they return, can be seen of a list on which every call that
succeeds takes effect at one moment between its beginning and its end, and which never has more
values than there are slots; a call only fails when the list is full, or empty, or when a call that
has taken a value, or is putting in the first one, has not returned yet.  The counters do not
wrap. -/
theorem queue_linearizable {k : ℕ} (hk : 1 ≤ k) {h : List (State C V × Label C (Op V) (Result V))}
    {s : State C V} (hrun : Trace State.Seen (init (2 ^ k)) h s) :
    ∃ h' o, Trace (Abstract.Step (2 ^ k)) Abstract.init h' o ∧ h'.map Prod.snd = h.map Prod.snd ∧
      s.head_ + o.items.length = s.tail_ ∧ o.items.length ≤ 2 ^ k := by
  obtain ⟨h', o, habstract, hlabels, hrepresents⟩ :=
    hrun.simulation (represents_init k) fun _ _ _ _ hrepresents hseen ↦ hrepresents.step hk hseen
  have hupper := hrepresents.inv.upper
  have hsize := hrepresents.inv.max_size_
  have hlength := hrepresents.length
  exact ⟨h', o, habstract, hlabels, hlength, by omega⟩

/-- An `Enqueue` has taken its ticket and not written its value yet, and the list has it already. -/
theorem queue_linearizable_one :
    ∃ (h : List (State Bool ℕ × Label Bool (Op ℕ) (Result ℕ))) (s : State Bool ℕ),
      Trace State.Seen (init (2 ^ 1)) h s ∧ s.places true = .writing 7 0 ∧
        ∃ h' o, Trace (Abstract.Step (2 ^ 1)) Abstract.init h' o ∧
          h'.map Prod.snd = h.map Prod.snd ∧
          o.items.length = 1 := by
  have hrun := (.nil : Trace State.Seen (init (2 ^ 1) : State Bool ℕ) [] _)
    |>.snoc ⟨true, .callEnqueue true 7 rfl, rfl⟩
    |>.snoc ⟨true, .loadTail true 7 rfl, rfl⟩
    |>.snoc ⟨true, .checkTail true 7 0 rfl, rfl⟩
    |>.snoc ⟨true, .claimTail true 7 rfl, rfl⟩
  obtain ⟨h', o, habstract, hlabels, hlength, -⟩ := queue_linearizable le_rfl hrun
  exact ⟨_, _, hrun, rfl, h', o, habstract, hlabels, (Nat.zero_add _).symm.trans hlength⟩

end FastQueue
end ManyTasks
