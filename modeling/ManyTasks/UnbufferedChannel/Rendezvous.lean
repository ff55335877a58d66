import ManyTasks.UnbufferedChannel.Channel
import Mathlib.Data.List.Nodup

/-!
# A value is handed over, or its sender throws

The elements that calls of `Send` have made, in the order in which they took the mutex, are
`entered`; those that calls of `Recv` have taken are `taken`.  While the channel is open the queue
is what is left (`Inv.rest`); after it has been closed nothing is taken any more, and what is in the
queue does not matter.

What a `Send` does at the end depends on the flag of its element, which says whether the element has
been taken (`Inv.flags`).  It sleeps only while the element is in the queue of an open channel
(`Place.Fits`), and both ends of this, that it is taken and that the channel is closed, wake it.
-/

set_option autoImplicit false
set_option linter.unusedSectionVars false

namespace ManyTasks
namespace UnbufferedChannel

open Function (update update_self update_of_ne)
open Lib (Trace)

variable {C V : Type}

def Label.entered : Label C V → Option (C × V)
  | .enter c value => some (c, value)
  | _ => none

def Label.taken : Label C V → Option (C × V)
  | .receive _ sender value => some (sender, value)
  | _ => none

/-- The elements made by `Send`. -/
def entered (h : List (State C V × Label C V)) : List (C × V) := h.filterMap fun x ↦ x.2.entered

/-- The elements taken by `Recv`. -/
def taken (h : List (State C V × Label C V)) : List (C × V) := h.filterMap fun x ↦ x.2.taken

theorem entered_append (h : List (State C V × Label C V)) (s : State C V) (l : Label C V) :
    entered (h ++ [(s, l)]) = entered h ++ l.entered.toList :=
  Lib.filterMap_snoc Label.entered h s l

theorem taken_append (h : List (State C V × Label C V)) (s : State C V) (l : Label C V) :
    taken (h ++ [(s, l)]) = taken h ++ l.taken.toList :=
  Lib.filterMap_snoc Label.taken h s l

/-- The calls whose elements have been taken. -/
def served (h : List (State C V × Label C V)) : List C := (taken h).map Prod.fst

/-- It is a `Send` of this value that has made its element. -/
def Place.Sends (value : V) (p : Place C V) : Prop :=
  (∃ b, p = .waiting (.send value) b) ∨ p = .sent ∨ p = .threw

/-- What is true of a call at a place. -/
def Place.Fits (is_closed_ is_received : Bool) (queued : V → Prop) : Place C V → Prop
  | .waiting (.send value) b =>
    (is_received = false → is_closed_ = false → queued value) ∧
      (b = false → is_closed_ = false ∧ is_received = false)
  | .waiting .recv b => b = false → is_closed_ = false
  | .sent => is_received = true
  | .threw => is_received = false ∧ is_closed_ = true
  | _ => True

/-- The history accounts for the state. -/
structure Inv (h : List (State C V × Label C V)) (s : State C V) : Prop where
  inOrder : taken h <+: entered h
  rest : s.is_closed_ = false → taken h ++ s.queue_ = entered h
  nodup : ((entered h).map Prod.fst).Nodup
  sends : ∀ e ∈ entered h, (s.places e.1).Sends e.2
  flags : ∀ c, s.is_received c = true ↔ c ∈ served h
  fits : ∀ c, (s.places c).Fits s.is_closed_ (s.is_received c) fun value ↦ (c, value) ∈ s.queue_

theorem inv_init : Inv [] (init : State C V) where
  inOrder := List.prefix_rfl
  rest _ := rfl
  nodup := List.nodup_nil
  sends := nofun
  flags := by simp [init, served, taken]
  fits _ := trivial

/-! ## Places -/

theorem Place.Fits.woken {is_closed_ is_received : Bool} {queued : V → Prop} {p p' : Place C V}
    (h : p.Fits is_closed_ is_received queued) (hw : p.Woken p') :
    p'.Fits is_closed_ is_received queued := by
  rcases hw with rfl | ⟨op, rfl, rfl⟩
  · exact h
  · cases op with
    | send value => exact ⟨h.1, nofun⟩
    | recv => exact nofun

theorem Place.Fits.mono {is_closed_ is_received : Bool} {queued queued' : V → Prop} {p : Place C V}
    (h : p.Fits is_closed_ is_received queued) (hq : ∀ value, queued value → queued' value) :
    p.Fits is_closed_ is_received queued' := by
  cases p with
  | waiting op b =>
    cases op with
    | send value => exact ⟨fun hr hc ↦ hq value (h.1 hr hc), h.2⟩
    | recv => exact h
  | _ => exact h

/-- When the channel is closed only those who sleep have something to lose. -/
theorem Place.Fits.close {is_closed_ is_received : Bool} {queued queued' : V → Prop} {p : Place C V}
    (h : p.Fits is_closed_ is_received queued) (hp : ∀ op, p ≠ .waiting op false) :
    p.Fits true is_received queued' := by
  cases p with
  | waiting op b =>
    have hb : b ≠ false := fun hb ↦ hp op (by rw [hb])
    cases op with
    | send value => exact ⟨nofun, fun h ↦ absurd h hb⟩
    | recv => exact fun h ↦ absurd h hb
  | threw => exact ⟨h.1, rfl⟩
  | _ => exact h

theorem Place.Sends.woken {value : V} {p p' : Place C V} (h : p.Sends value) (hw : p.Woken p') :
    p'.Sends value := by
  rcases hw with rfl | ⟨op, rfl, rfl⟩
  · exact h
  · obtain rfl : op = .send value := by simpa [Place.Sends] using h
    exact .inl ⟨true, rfl⟩

theorem sends_testSend (is_received is_closed_ : Bool) (value : V) :
    (testSend is_received is_closed_ value : Place C V).Sends value := by
  rw [testSend]
  split
  · split
    · exact .inr (.inl rfl)
    · exact .inr (.inr rfl)
  · exact .inl ⟨false, rfl⟩

/-- What `Send` finds is what it relies on. -/
theorem fits_testSend {is_received is_closed_ : Bool} {value : V} {queued : V → Prop}
    (h : is_received = false → is_closed_ = false → queued value) :
    (testSend is_received is_closed_ value : Place C V).Fits is_closed_ is_received queued := by
  cases is_received <;> cases is_closed_ <;> simp_all [testSend, Place.Fits]

/-! ## The steps -/

section Steps

variable [DecidableEq C] {h : List (State C V × Label C V)} {s s' : State C V} {l : Label C V}

/-- An element in the queue of an open channel is that of a call that waits. -/
theorem Inv.queued (hinv : Inv h s) (hopen : s.is_closed_ = false) {e : C × V} (he : e ∈ s.queue_) :
    s.is_received e.1 = false ∧ ∃ b, s.places e.1 = .waiting (.send e.2) b := by
  have hnodup := hinv.nodup
  rw [← hinv.rest hopen, List.map_append, List.nodup_append'] at hnodup
  have hnot : s.is_received e.1 = false := by
    by_contra hreceived
    have hserved := (hinv.flags e.1).mp (Bool.eq_true_of_not_eq_false hreceived)
    exact hnodup.2.2 hserved (List.mem_map_of_mem he)
  refine ⟨hnot, ?_⟩
  have hentered : e ∈ entered h := by
    rw [← hinv.rest hopen]
    exact List.mem_append_right _ he
  have hfits := hinv.fits e.1
  rcases hinv.sends e hentered with hwaiting | hsent | hthrew
  · exact hwaiting
  · rw [hsent] at hfits
    cases hnot.symm.trans hfits
  · rw [hthrew] at hfits
    exact absurd hfits.2 (by simp [hopen])

/-- A call that has not entered has no element. -/
theorem Inv.not_entered (hinv : Inv h s) {c : C} {op : Op V} (hc : s.places c = .called op) :
    c ∉ (entered h).map Prod.fst ∧ s.is_received c = false := by
  have hnot : c ∉ (entered h).map Prod.fst := by
    intro hmem
    obtain ⟨e, he, rfl⟩ := List.mem_map.mp hmem
    have hsends := hinv.sends e he
    simp [hc, Place.Sends] at hsends
  refine ⟨hnot, ?_⟩
  by_contra hreceived
  have hserved := (hinv.flags c).mp (Bool.eq_true_of_not_eq_false hreceived)
  exact hnot (List.map_subset _ hinv.inOrder.subset hserved)

/-- A step of one call to another place, with nothing put into the queue or taken out of it. -/
theorem Inv.quiet (hinv : Inv h s) {c : C} {p : Place C V} (he : l.entered = none)
    (ht : l.taken = none)
    (hfits : p.Fits s.is_closed_ (s.is_received c) fun value ↦ (c, value) ∈ s.queue_)
    (hsends : ∀ value, (s.places c).Sends value → p.Sends value) :
    Inv (h ++ [(s, l)]) { s with places := update s.places c p } := by
  have hen : entered (h ++ [(s, l)]) = entered h := by
    rw [entered_append, he, Option.toList_none, List.append_nil]
  have hta : taken (h ++ [(s, l)]) = taken h := by
    rw [taken_append, ht, Option.toList_none, List.append_nil]
  refine ⟨?_, ?_, ?_, ?_, ?_, fun c' ↦ ?_⟩
  · rw [hen, hta]
    exact hinv.inOrder
  · rw [hen, hta]
    exact hinv.rest
  · rw [hen]
    exact hinv.nodup
  · rw [hen]
    intro e hmem
    by_cases hc : e.1 = c
    · simp only [hc, update_self]
      exact hsends _ (hc ▸ hinv.sends e hmem)
    · simp only [update_of_ne hc]
      exact hinv.sends e hmem
  · rw [served, hta]
    exact hinv.flags
  · by_cases hc : c' = c
    · subst hc
      simp only [update_self]
      exact hfits
    · simp only [update_of_ne hc]
      exact hinv.fits c'

/-- `Send` takes the mutex first. -/
theorem Inv.enter (hinv : Inv h s) {c : C} {value : V} (hstep : Step s (.enter c value) s') :
    Inv (h ++ [(s, .enter c value)]) s' := by
  have hen : entered (h ++ [(s, .enter c value)]) = entered h ++ [(c, value)] :=
    entered_append h s _
  have hta : taken (h ++ [(s, .enter c value)]) = taken h := by
    rw [taken_append]
    exact List.append_nil _
  have hself := hstep.entered
  have hother {c' : C} (hc : c' ≠ c) : (s.places c').Woken (s'.places c') := hstep.other hc
  cases hstep with
  | enter c value f hc hf =>
    obtain ⟨hnot, hfalse⟩ := hinv.not_entered hc
    refine ⟨?_, fun hopen ↦ ?_, ?_, ?_, ?_, fun c' ↦ ?_⟩
    · rw [hen, hta]
      exact hinv.inOrder.trans (List.prefix_append _ _)
    · rw [hen, hta, ← List.append_assoc, hinv.rest hopen]
    · rw [hen, List.map_append, List.nodup_append']
      exact ⟨hinv.nodup, List.nodup_singleton _, by simpa using hnot⟩
    · rw [hen]
      intro e he
      rcases List.mem_append.mp he with he | he
      · have hne : e.1 ≠ c := fun heq ↦ hnot (heq ▸ List.mem_map_of_mem he)
        exact (hinv.sends e he).woken (hother hne)
      · obtain rfl := List.mem_singleton.mp he
        rw [hself]
        exact sends_testSend _ _ _
    · rw [served, hta]
      exact hinv.flags
    · by_cases hne : c' = c
      · subst hne
        rw [hself]
        exact fits_testSend fun _ _ ↦ List.mem_append_right _ List.mem_cons_self
      · exact ((hinv.fits c').woken (hother hne)).mono fun _ ↦ List.mem_append_left _

/-- `Recv` takes an element. -/
theorem Inv.receive (hinv : Inv h s) {c sender : C} {value : V}
    (hstep : Step s (.receive c sender value) s') :
    Inv (h ++ [(s, .receive c sender value)]) s' := by
  have hen : entered (h ++ [(s, .receive c sender value)]) = entered h := by
    rw [entered_append]
    exact List.append_nil _
  have hta : taken (h ++ [(s, .receive c sender value)]) = taken h ++ [(sender, value)] :=
    taken_append h s _
  have hother {c' : C} (hc : c' ≠ c) : (s.places c').Woken (s'.places c') := hstep.other hc
  cases hstep with
  | receive c sender value rest hc hopen hq =>
    have hrest : taken h ++ [(sender, value)] ++ rest = entered h := by
      rw [← hinv.rest hopen, hq, List.append_assoc, List.singleton_append]
    obtain ⟨hfalse, b, hwaiting⟩ := hinv.queued hopen (e := (sender, value)) (by rw [hq]; simp)
    have hreader (value' : V) : ¬ (s.places c).Sends value' := by
      rcases hc with hc | hc <;> simp [hc, Place.Sends]
    have hne : sender ≠ c := by
      rintro rfl
      exact hreader value (.inl ⟨b, hwaiting⟩)
    refine ⟨?_, fun _ ↦ ?_, ?_, ?_, fun c' ↦ ?_, fun c' ↦ ?_⟩
    · rw [hen, hta]
      exact ⟨rest, hrest⟩
    · rw [hen, hta]
      exact hrest
    · rw [hen]
      exact hinv.nodup
    · rw [hen]
      intro e he
      have hsends := hinv.sends e he
      have hne' : e.1 ≠ c := fun heq ↦ hreader _ (heq ▸ hsends)
      exact hsends.woken (hother hne')
    · rw [served, hta, List.map_append, List.mem_append]
      by_cases hc' : c' = sender
      · subst hc'
        simp
      · simp only [update_of_ne hc']
        rw [hinv.flags c', served]
        simp [hc']
    · by_cases hc' : c' = c
      · subst hc'
        simp only [update_self]
        trivial
      · by_cases hs : c' = sender
        · subst hs
          have hawake :
              (update (notifySender s.places c') c (.received c' value) : C → Place C V) c' =
                .waiting (.send value) true := by
            rw [update_of_ne hc', notifySender, update_self, hwaiting]
            cases b <;> rfl
          simp only [hawake, update_self]
          exact ⟨(by simp), (by simp)⟩
        · have hold := (hinv.fits c').woken (hother hc')
          simp only [update_of_ne hs]
          refine hold.mono fun value' hmem ↦ ?_
          rw [hq, List.mem_cons] at hmem
          exact hmem.resolve_left fun heq ↦ hs (congrArg Prod.fst heq)

/-- `Close` leaves nobody asleep. -/
theorem Inv.not_asleep (hinv : Inv h s) {c : C} (hstep : Step s (.close c) s') (c' : C)
    (op : Op V) :
    s'.places c' ≠ .waiting op false := by
  cases hstep with
  | close c hc =>
    intro hasleep
    by_cases hne : c' = c
    · subst hne
      simp at hasleep
    · simp only [update_of_ne hne] at hasleep
      generalize hf : (s.queue_.map Prod.fst).foldl notifySender s.places = f at hasleep
      have hmiddle : f c' = .waiting op false :=
        (woken_of_awakenReader (Lib.notifyAll_apply _ f c')).asleep hasleep
      have hbefore : s.places c' = .waiting op false := by
        rw [← hf] at hmiddle
        exact (woken_notifySenders _ _ c').asleep hmiddle
      cases op with
      | send value =>
        have hfits := hinv.fits c'
        rw [hbefore] at hfits
        obtain ⟨hopen, hfalse⟩ := hfits.2 rfl
        have hmem : c' ∈ s.queue_.map Prod.fst := List.mem_map_of_mem (hfits.1 hfalse hopen)
        exact notifySenders_ne_asleep s.places hmem value (hf ▸ hmiddle)
      | recv =>
        rw [Lib.notifyAll_of_some (p := .waiting .recv true) (by rw [hmiddle]; rfl)] at hasleep
        simp at hasleep

/-- `Close`. -/
theorem Inv.close (hinv : Inv h s) {c : C} (hstep : Step s (.close c) s') :
    Inv (h ++ [(s, .close c)]) s' := by
  have hen : entered (h ++ [(s, .close c)]) = entered h := by
    rw [entered_append]
    exact List.append_nil _
  have hta : taken (h ++ [(s, .close c)]) = taken h := by
    rw [taken_append]
    exact List.append_nil _
  have hother {c' : C} (hc : c' ≠ c) : (s.places c').Woken (s'.places c') := hstep.other hc
  have hawake := hinv.not_asleep hstep
  cases hstep with
  | close c hc =>
    refine ⟨?_, nofun, ?_, ?_, ?_, fun c' ↦ ?_⟩
    · rw [hen, hta]
      exact hinv.inOrder
    · rw [hen]
      exact hinv.nodup
    · rw [hen]
      intro e he
      have hsends := hinv.sends e he
      have hne : e.1 ≠ c := by
        intro heq
        rw [heq, hc] at hsends
        simp [Place.Sends] at hsends
      exact hsends.woken (hother hne)
    · rw [served, hta]
      exact hinv.flags
    · by_cases hne : c' = c
      · subst hne
        simp only [update_self]
        trivial
      · exact ((hinv.fits c').woken (hother hne)).close (hawake c')

theorem inv_step (hinv : Inv h s) (hstep : Step s l s') : Inv (h ++ [(s, l)]) s' := by
  cases id hstep with
  | call c op hc => exact hinv.quiet rfl rfl trivial (by simp [hc, Place.Sends])
  | callClose c hc => exact hinv.quiet rfl rfl trivial (by simp [hc, Place.Sends])
  | enter c value f hc hf => exact hinv.enter hstep
  | recheck c value hc =>
    have hfits := hinv.fits c
    rw [hc] at hfits
    refine hinv.quiet rfl rfl (fits_testSend hfits.1) fun value' hsends ↦ ?_
    obtain rfl : value = value' := by simpa [hc, Place.Sends] using hsends
    exact sends_testSend _ _ _
  | spurious c op hc =>
    have hwoken : (s.places c).Woken (.waiting op true) := .inr ⟨op, hc, rfl⟩
    exact hinv.quiet rfl rfl ((hinv.fits c).woken hwoken) fun _ hsends ↦ hsends.woken hwoken
  | sleep c hc hopen hq =>
    refine hinv.quiet rfl rfl (fun _ ↦ hopen) fun value hsends ↦ ?_
    rcases hc with hc | hc <;> simp [hc, Place.Sends] at hsends
  | nothing c hc hclosed =>
    refine hinv.quiet rfl rfl trivial fun value hsends ↦ ?_
    rcases hc with hc | hc <;> simp [hc, Place.Sends] at hsends
  | receive c sender value rest hc hopen hq => exact hinv.receive hstep
  | close c hc => exact hinv.close hstep

theorem inv_of_trace (hrun : Trace Step init h s) : Inv h s :=
  hrun.invariant inv_init fun _ _ _ _ ↦ inv_step

end Steps

/-! ## Receivers -/

/-- The receivers that are in the wait and not asleep. -/
def State.awakeReaders (s : State C V) : Set C := {c | s.places c = .waiting .recv true}

/-- If a receiver is left asleep in an open channel, then for every element in the queue there is
one that is awake. -/
def Attended (s : State C V) : Prop :=
  s.is_closed_ = false → ∀ c, s.places c = .waiting .recv false →
    (s.queue_.length : ℕ∞) ≤ s.awakeReaders.encard

section Attended

variable [DecidableEq C] {s s' : State C V} {l : Label C V}

/-- A step that lets no reader sleep and gives no awake one something else to do. -/
theorem Attended.quiet (h : Attended s) {c : C} {p : Place C V}
    (hold : s.places c ≠ .waiting .recv true) (hnew : p ≠ .waiting .recv false) :
    Attended { s with places := update s.places c p } := by
  intro hopen c' hc'
  have hne : c' ≠ c := by
    rintro rfl
    simp only [update_self] at hc'
    exact hnew hc'
  simp only [update_of_ne hne] at hc'
  refine (h hopen c' hc').trans (Set.encard_le_encard fun x hx ↦ ?_)
  have hx' : x ≠ c := fun heq ↦ hold (heq ▸ hx)
  exact (update_of_ne hx' _ _).trans hx

/-- A new element wakes a receiver, if one sleeps. -/
theorem Attended.enter (h : Attended s) {c : C} {value : V} {p : Place C V} {f : C → Place C V}
    {q : List (C × V)} (hc : s.places c = .called (.send value)) (hp : awakenReader p = none)
    (hq : q.length = s.queue_.length + 1)
    (hf : Lib.NotifyOne awakenReader (update s.places c p) f) :
    Attended { s with queue_ := q, places := f } := by
  intro hopen c' hc'
  cases hf with
  | nobody hnobody =>
    have hnone := hnobody c'
    simp only at hc'
    simp [hc', awakenReader] at hnone
  | one θ p' hθ =>
    have hne : θ ≠ c := by
      rintro rfl
      rw [update_self, hp] at hθ
      cases hθ
    rw [update_of_ne hne] at hθ
    obtain ⟨hasleep, rfl⟩ : s.places θ = .waiting .recv false ∧ p' = .waiting .recv true := by
      unfold awakenReader at hθ
      split at hθ
      · rename_i hplace
        exact ⟨hplace, (Option.some.inj hθ).symm⟩
      · cases hθ
    have hmem : θ ∉ s.awakeReaders := by simp [State.awakeReaders, hasleep]
    rw [hq, Nat.cast_add, Nat.cast_one]
    calc (s.queue_.length : ℕ∞) + 1
        ≤ s.awakeReaders.encard + 1 := by gcongr; exact h hopen θ hasleep
      _ = (insert θ s.awakeReaders).encard := (Set.encard_insert_of_notMem hmem).symm
      _ ≤ _ := Set.encard_le_encard fun x hx ↦ ?_
    rcases hx with rfl | hx
    · exact update_self _ _ _
    · have hxθ : x ≠ θ := fun heq ↦ hmem (heq ▸ hx)
      have hxc : x ≠ c := by
        rintro rfl
        simp [State.awakeReaders, hc] at hx
      exact (update_of_ne hxθ _ _).trans ((update_of_ne hxc _ _).trans hx)

/-- A receiver that takes an element is no longer needed for it. -/
theorem Attended.receive (h : Attended s) {c : C} {e : C × V} {rest : List (C × V)}
    {f : C → Place C V} {r : C → Bool} (hq : s.queue_ = e :: rest)
    (hf : ∀ x ≠ c, (s.places x).Woken (f x)) (hc : f c ≠ .waiting .recv false) :
    Attended { s with queue_ := rest, is_received := r, places := f } := by
  intro hopen c' hc'
  have hne : c' ≠ c := by
    rintro rfl
    exact hc hc'
  have hle := h hopen c' ((hf c' hne).asleep hc')
  rw [hq, List.length_cons, Nat.cast_add, Nat.cast_one] at hle
  have hleft : s.awakeReaders.encard ≤ (s.awakeReaders \ {c}).encard + 1 := by
    rw [← Set.encard_singleton c]
    exact Set.encard_le_encard_sdiff_add_encard _ _
  have hcancel : (rest.length : ℕ∞) ≤ (s.awakeReaders \ {c}).encard :=
    (ENat.add_le_add_iff_right (by decide)).mp (hle.trans hleft)
  refine hcancel.trans (Set.encard_le_encard fun x hx ↦ ?_)
  rcases hf x hx.2 with heq | ⟨op, hasleep, -⟩
  · exact heq.trans hx.1
  · have hawake : s.places x = .waiting .recv true := hx.1
    simp [hawake] at hasleep

theorem attended_step (h : Attended s) (hstep : Step s l s') : Attended s' := by
  cases hstep with
  | call c op hc => exact h.quiet (by simp [hc]) (by simp)
  | callClose c hc => exact h.quiet (by simp [hc]) (by simp)
  | recheck c value hc =>
    refine h.quiet (by simp [hc]) ?_
    rw [testSend]
    split
    · split <;> simp
    · simp
  | spurious c op hc => exact h.quiet (by simp [hc]) (by simp)
  | sleep c hc hopen hq =>
    intro _ _ _
    simp [hq]
  | nothing c hc hclosed =>
    intro hopen
    cases hclosed.symm.trans hopen
  | enter c value f hc hf =>
    refine h.enter hc ?_ (by simp) hf
    rw [testSend]
    split
    · split <;> rfl
    · rfl
  | receive c sender value rest hc hopen hq =>
    refine h.receive (c := c) hq (fun x hx ↦ ?_) (by simp)
    rw [update_of_ne hx]
    exact woken_notifySender _ _ _
  | close c hc =>
    intro hopen
    simp at hopen

end Attended

/-! ## Every run -/

section Runs

variable [DecidableEq C] {h : List (State C V × Label C V)} {s s' : State C V} {l : Label C V}

theorem Step.actor_ne_threw (h : Step s l s') : s.places l.actor ≠ .threw := by
  cases h with
  | sleep c hc | nothing c hc | receive c sender value rest hc =>
    rcases hc with hc | hc <;> simp [Label.actor, hc]
  | _ => simp [Label.actor, *]

/-- A call that has thrown is at its end. -/
theorem threw_of_mem (hrun : Trace Step init h s) {c : C} :
    ∀ x ∈ h, x.1.places c = .threw → s.places c = .threw := by
  induction hrun with
  | nil => nofun
  | @snoc h s s' l _ hstep ih =>
    intro x hx hthrew
    have hbefore : s.places c = .threw := by
      rcases List.mem_append.mp hx with hx | hx
      · exact ih x hx hthrew
      · obtain rfl := List.mem_singleton.mp hx
        exact hthrew
    have hactor : c ≠ l.actor := fun heq ↦ hstep.actor_ne_threw (heq ▸ hbefore)
    rcases hstep.other hactor with heq | ⟨op, hasleep, -⟩
    · rw [heq, hbefore]
    · simp [hbefore] at hasleep

/-- A call whose element has been taken returns. -/
theorem Inv.returns (hinv : Inv h s) {c : C} (hc : c ∈ served h) :
    s.places c = .sent ∨ ∃ s', Step s (.test c) s' ∧ s'.places c = .sent := by
  have hreceived := (hinv.flags c).mpr hc
  have hfits := hinv.fits c
  obtain ⟨e, he, rfl⟩ := List.mem_map.mp hc
  rcases hinv.sends e (hinv.inOrder.subset he) with ⟨b, hwaiting⟩ | hsent | hthrew
  · rw [hwaiting] at hfits
    obtain rfl : b = true := by
      by_contra hb
      cases hreceived.symm.trans (hfits.2 (Bool.eq_false_of_not_eq_true hb)).2
    refine .inr ⟨_, .recheck e.1 e.2 hwaiting, ?_⟩
    simp [testSend, hreceived]
  · exact .inl hsent
  · rw [hthrew] at hfits
    cases hreceived.symm.trans hfits.1

/-- **Rendezvous.**  The elements are taken in the order in which they were made.  Of the calls of
`Send` that have ended, those have returned whose element has been taken, once, and the others have
thrown, and their elements never are; whoever's element is taken has returned or returns next.  No
receiver is left asleep in an open channel, unless there is an awake one for every element, and
nobody in a closed one. -/
theorem rendezvous (hrun : Trace Step init h s) :
    taken h <+: entered h ∧
      (∀ c, s.places c = .sent ∨ s.places c = .threw →
        (s.places c = .sent ↔ (served h).count c = 1)) ∧
      (∀ c, (s.places c = .threw ∨ ∃ x ∈ h, x.1.places c = .threw) → c ∉ served h) ∧
      (∀ c ∈ served h, s.places c = .sent ∨ ∃ s', Step s (.test c) s' ∧ s'.places c = .sent) ∧
      (s.is_closed_ = false → ∀ c, s.places c = .waiting .recv false →
        (s.queue_.length : ℕ∞) ≤ s.awakeReaders.encard) ∧
      (s.is_closed_ = true → ∀ c op, s.places c ≠ .waiting op false) := by
  have hinv := inv_of_trace hrun
  have hattended : Attended s :=
    hrun.invariant (I := fun _ s ↦ Attended s) (fun _ _ hc ↦ by simp [init] at hc)
      fun _ _ _ _ h hstep ↦ attended_step h hstep
  have hthrown {c : C} (hc : s.places c = .threw) : c ∉ served h := by
    intro hserved
    have hfits := hinv.fits c
    rw [hc] at hfits
    cases ((hinv.flags c).mpr hserved).symm.trans hfits.1
  refine ⟨hinv.inOrder, fun c hc ↦ ⟨fun hsent ↦ ?_, fun hcount ↦ ?_⟩, ?_,
    fun c hc ↦ hinv.returns hc, hattended, fun hclosed c op hasleep ↦ ?_⟩
  · have hfits := hinv.fits c
    rw [hsent] at hfits
    have hnodup : (served h).Nodup := hinv.nodup.sublist (hinv.inOrder.sublist.map _)
    exact List.count_eq_one_of_mem hnodup ((hinv.flags c).mp hfits)
  · have hserved : c ∈ served h := List.count_pos_iff.mp (by omega)
    exact hc.resolve_right fun hthrew ↦ hthrown hthrew hserved
  · rintro c (hthrew | ⟨x, hx, hthrew⟩)
    · exact hthrown hthrew
    · exact hthrown (threw_of_mem hrun x hx hthrew)
  · have hfits := hinv.fits c
    rw [hasleep] at hfits
    cases op with
    | send value => cases hclosed.symm.trans (hfits.2 rfl).1
    | recv => cases hclosed.symm.trans (hfits rfl)

end Runs

/-- A value is taken, and its sender returns after the channel has been closed; another sender
throws. -/
theorem rendezvous_four :
    ∃ (h : List (State (Fin 4) ℕ × Label (Fin 4) ℕ)) (s : State (Fin 4) ℕ),
      Trace Step init h s ∧ taken h <+: entered h ∧ taken h = [(0, 7)] ∧
        entered h = [(0, 7), (1, 8)] ∧ s.places 0 = .sent ∧ s.places 1 = .threw ∧ 1 ∉ served h := by
  have hrun := (.nil : Trace Step (init : State (Fin 4) ℕ) [] init)
    |>.snoc (.call 0 (.send 7) rfl)
    |>.snoc (.enter 0 7 _ rfl (.nobody (by decide)))
    |>.snoc (.call 1 (.send 8) rfl)
    |>.snoc (.enter 1 8 _ rfl (.nobody (by decide)))
    |>.snoc (.call 2 .recv rfl)
    |>.snoc (.receive 2 0 7 [(1, 8)] (.inl rfl) rfl rfl)
    |>.snoc (.callClose 3 rfl)
    |>.snoc (.close 3 rfl)
    |>.snoc (.recheck 0 7 rfl)
    |>.snoc (.recheck 1 8 rfl)
  exact ⟨_, _, hrun, (rendezvous hrun).1, rfl, rfl, rfl, rfl, (rendezvous hrun).2.2.1 1 (.inl rfl)⟩

end UnbufferedChannel
end ManyTasks
