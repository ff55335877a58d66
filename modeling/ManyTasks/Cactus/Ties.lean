import ManyTasks.Cactus.Timeouts

/-!
# What fibers are tied to

A fiber is put into the run queue by whoever has a pointer to it: a `waiter_`, a `joiner_`, a slot
of a file descriptor, a timer, a wait queue, a `Fiber` object or a group.  Here are all of them.

* `Woken`: why a change has put a fiber into the run queue (`Change.run_queue`).
* `Ties`: the part of the state that holds the pointers, and `TieChange`, the changes that touch it.
* `Tied`: whoever is pointed to is parked where the pointer comes from.
-/

set_option autoImplicit false
set_option linter.unusedSectionVars false

namespace ManyTasks
namespace Cactus

variable {F G Q M S : Type} [DecidableEq F] [DecidableEq G] [DecidableEq Q] [DecidableEq M]
  [DecidableEq S]

open Function (update)

/-! ## Why a fiber is in the run queue -/

/-- Why the fiber `f` has put `g` into the run queue. -/
inductive Woken (strict : Prop) (f : F) (x x' : Phase F G Q M S) (s s' : Sched F G Q M S) (g : F) :
    Prop where
  | yield (hg : g = f) (hx : x' = .entering .yield)
  | notified (q : Waiters Q M) (hg : g ∈ s.waiters_ q) (hf : x = .free ∨ s.wakeup f ≠ none)
  | slot (slot : S) (hg : s.slot_ slot = some g) (hx : x = .free)
  | canceled (hguarded : s.cancel_guarded_ g = false)
      (hx : x = .joining g ∨ ∃ h, g ∈ s.fibers_ h) (hstrict : strict → g ≠ f)
  | created (hg : s.state_ g = none) (hg' : s'.state_ g = some .Ready)

section

variable {strict : Prop} {f : F} {x x' : Phase F G Q M S} {s s' : Sched F G Q M S}

/-- Who is put into the run queue, and that nobody is in it twice. -/
theorem Change.run_queue (h : Change strict f (x, s) (x', s')) :
    (s.run_queue_.Nodup → s'.run_queue_.Nodup) ∧
      ∀ g ∈ s'.run_queue_, g ∈ s.run_queue_ ∨ Woken strict f x x' s s' g := by
  have henqueue (c : F) (hc : Woken strict f x x' s s' c) (r : List F)
      (hr : r = enqueue c s.run_queue_) : (s.run_queue_.Nodup → r.Nodup) ∧
        ∀ g ∈ r, g ∈ s.run_queue_ ∨ Woken strict f x x' s s' g := by
    subst hr
    refine ⟨nodup_enqueue, fun g hg ↦ (mem_enqueue.mp hg).imp id fun hgc ↦ ?_⟩
    rw [hgc]
    exact hc
  have hsame (r : List F) (hr : r = s.run_queue_) : (s.run_queue_.Nodup → r.Nodup) ∧
      ∀ g ∈ r, g ∈ s.run_queue_ ∨ Woken strict f x x' s s' g := by
    subst hr
    exact ⟨id, fun g hg ↦ .inl hg⟩
  have hnotifyOne (hx : x = .free) (q : Waiters Q M) (s₁ : Sched F G Q M S)
      (hw : s₁.waiters_ = s.waiters_) (hr : s₁.run_queue_ = s.run_queue_) :
      (s.run_queue_.Nodup → (Cactus.notifyOne q s₁).run_queue_.Nodup) ∧
        ∀ g ∈ (Cactus.notifyOne q s₁).run_queue_,
          g ∈ s.run_queue_ ∨ Woken strict f x x' s s' g := by
    rcases queues_notifyOne s₁ q with ⟨-, heq⟩ | ⟨w, ws, hq, heq, -⟩
    · exact hsame _ (by rw [heq, hr])
    · refine henqueue w (.notified q ?_ (.inl hx)) _ (by rw [heq, hr])
      rw [← hw, hq]
      exact List.mem_cons_self
  have hcancel (c : F) (hx : x = .joining c ∨ ∃ h, c ∈ s.fibers_ h) (hc : strict → c ≠ f) :
      (s.run_queue_.Nodup → (cancel c s).run_queue_.Nodup) ∧
        ∀ g ∈ (cancel c s).run_queue_, g ∈ s.run_queue_ ∨ Woken strict f x x' s s' g := by
    cases hguarded : s.cancel_guarded_ c with
    | true => exact hsame _ (by rw [cancel_eq, hguarded]; rfl)
    | false => exact henqueue c (.canceled hguarded hx hc) _ (by rw [cancel_eq, hguarded]; rfl)
  cases h with
  | yield => exact henqueue f (.yield rfl rfl) _ (by rw [unpark_eq])
  | raise w e hx he =>
    have heq : (Cactus.raise f e s).run_queue_ = s.run_queue_.erase f := by cases e <;> rfl
    rw [heq]
    exact ⟨fun hnodup ↦ hnodup.erase f, fun g hg ↦ .inl (List.mem_of_mem_erase hg)⟩
  | pass w q hw =>
    rcases queues_passWakeup s f q with ⟨-, heq, -⟩ | ⟨n, -, -, heq, -⟩ |
      ⟨n, w', ws, hn, hq, heq, -⟩
    · exact hsame _ heq
    · exact hsame _ heq
    · refine henqueue w' (.notified q (hq ▸ List.mem_cons_self) (.inr ?_)) _ heq
      exact hn ▸ Option.some_ne_none n
  | cleanup w hx hw hs => exact hsame _ (by cases w <;> rfl)
  | leaveWait w q hw => exact hsame _ (queues_leaveWait s f q).1
  | unlock m hm => exact hnotifyOne rfl _ _ rfl rfl
  | notifyOne q => exact hnotifyOne rfl q s rfl rfl
  | fdReset slot =>
    rcases Option.eq_none_or_eq_some (s.slot_ slot) with hslot | ⟨g, hslot⟩
    · exact hsame _ (by rw [hslot]; rfl)
    · exact henqueue g (.slot slot hslot rfl) _ (by rw [unpark?_eq, hslot]; rfl)
  | fiber c hc =>
    refine henqueue c (.created hc ?_) _ ?_ <;> rw [newFiber, unpark_eq]
    exact Function.update_self ..
  | spawn g c hc hg hstrict =>
    refine henqueue c (.created hc ?_) _ ?_ <;> rw [Cactus.spawn, newFiber, unpark_eq]
    exact Function.update_self ..
  | cancelFiber c hc => exact hcancel c (.inl rfl) hc
  | cancelMember g c hc hf =>
    exact hcancel c (.inr ⟨g, hc⟩) fun hstrict hcf ↦ hf hstrict (hcf ▸ hc)
  | _ => exact hsame _ rfl

end

/-! ## Pointers to fibers -/

/-- The event is about a fiber or a group that was destroyed. -/
def Event.joins : Event F G → Bool
  | .joined _ _ => true
  | .groupJoined _ _ => true
  | _ => false

/-- The part of the state that holds pointers to fibers, apart from wait queues. -/
structure Ties (F G S : Type) where
  state_ : F → Option FiberState
  cancel_guarded_ : F → Bool
  waiter_ : F → Option F
  group_ : F → Option G
  scopes : F → List Scope
  fibers_ : G → List F
  joiner_ : G → Option F
  groupWaiter_ : G → Option F
  slot_ : S → Option F
  timers_ : List (Timer F)
  object : F → Bool
  life : G → Life
  log : List (Event F G)

def Sched.ties (s : Sched F G Q M S) : Ties F G S where
  state_ := s.state_
  cancel_guarded_ := s.cancel_guarded_
  waiter_ := s.waiter_
  group_ := s.group_
  scopes := s.scopes
  fibers_ := s.fibers_
  joiner_ := s.joiner_
  groupWaiter_ := s.groupWaiter_
  slot_ := s.slot_
  timers_ := s.timers_
  object := s.object
  life := s.life
  log := s.log.filter Event.joins

/-- Nobody points to a fiber because it is parked there, but for a wait queue. -/
def Where.Untied : Where F G Q M S → Prop
  | .yield | .wait _ | .lock _ | .condWait _ _ | .relock _ _ => True
  | _ => False

/-- The fiber that runs is nowhere, or nobody points to it because of where it is. -/
def Phase.Untied (x : Phase F G Q M S) : Prop := ∀ w, x.where? = some w → w.Untied

/-- The changes that touch the pointers, and all others. -/
inductive TieChange (strict : Prop) (f : F) :
    Phase F G Q M S × Sched F G Q M S → Phase F G Q M S × Ties F G S → Prop where
  | other {x x' s} (hplace : x' = x ∨ x.Untied ∧ x'.Untied)
      (hjoining : ∀ c, x' = .joining c → x = .joining c)
      (hclosing : ∀ g, x' = .closing g → x = .closing g) :
      TieChange strict f (x, s) (x', s.ties)
  | raise {x s} (w) (hx : x = .entering w ∨ x = .back w) (hf : s.cancel_guarded_ f = false) :
      TieChange strict f (x, s) (.leaving w, s.ties)
  | sleep {s} (deadline : ℕ) :
      TieChange strict f (.free, s) (.entering (.sleep s.timers),
        { s.ties with timers_ := s.timers_ ++ [⟨s.timers, deadline, f, false⟩] })
  | join {s} (c) (hc : strict → c ≠ f) :
      TieChange strict f (.joining c, s) (.entering (.join c (s.cancel_guarded_ f)),
        { s.ties with
          cancel_guarded_ := update s.cancel_guarded_ f true,
          waiter_ := update s.waiter_ c (some f) })
  | group {s} (g) (hg : s.fibers_ g ≠ []) :
      TieChange strict f (.closing g, s) (.entering (.group g (s.cancel_guarded_ f)),
        { s.ties with
          cancel_guarded_ := update s.cancel_guarded_ f true,
          joiner_ := update s.joiner_ g (some f) })
  | waitGroup {s} (g) :
      TieChange strict f (.free, s) (.entering (.waitGroup g),
        { s.ties with groupWaiter_ := update s.groupWaiter_ g (some f) })
  | fdWait {s} (slot) :
      TieChange strict f (.free, s) (.entering (.fd slot),
        { s.ties with slot_ := update s.slot_ slot (some f) })
  | wake {s x} (timer) (hx : x = .back (.sleep timer) ∨ x = .leaving (.sleep timer)) :
      TieChange strict f (x, s)
        (.free, { s.ties with timers_ := s.timers_.filter fun t ↦ t.id ≠ timer })
  | cleanup {s x} (w) (hx : x = .back w ∨ x = .leaving w) (hs : ∀ t, w ≠ .sleep t) :
      TieChange strict f (x, s) (.free, (cleanup s w).ties)
  | joined {s} (c saved) :
      TieChange strict f (.back (.join c saved), s)
        (.free, { s.ties with
          waiter_ := update s.waiter_ c none,
          cancel_guarded_ := update s.cancel_guarded_ f saved,
          log := s.ties.log ++ [.joined c (s.state_ c)] })
  | groupJoined {s} (g saved) :
      TieChange strict f (.back (.group g saved), s)
        (.free, { s.ties with
          joiner_ := update s.joiner_ g none,
          cancel_guarded_ := update s.cancel_guarded_ f saved,
          log := s.ties.log ++ [.groupJoined g (s.fibers_ g)],
          life := update s.life g .gone })
  | fdReset {s} (slot) :
      TieChange strict f (.free, s) (.free, { s.ties with slot_ := update s.slot_ slot none })
  | fiber {s} (c) (hc : s.state_ c = none) :
      TieChange strict f (.free, s)
        (.free, { s.ties with
          object := update s.object c true,
          state_ := update s.state_ c (some .Ready) })
  | spawn {s} (g c) (hc : s.state_ c = none)
      (hstrict : strict → s.joiner_ g = none ∨ s.fibers_ g ≠ []) :
      TieChange strict f (.free, s)
        (.free, { s.ties with
          group_ := update s.group_ c (some g),
          fibers_ := update s.fibers_ g (s.fibers_ g ++ [c]),
          state_ := update s.state_ c (some .Ready) })
  | destroyFiber {s} (c) (hc : s.object c = true) (hdead : s.state_ c ≠ some .Dead) :
      TieChange strict f (.free, s)
        (.joining c, { s.ties with object := update s.object c false })
  | destroyDead {s} (c) (hdead : s.state_ c = some .Dead) :
      TieChange strict f (.free, s)
        (.free, { s.ties with
          object := update s.object c false,
          log := s.ties.log ++ [.joined c (s.state_ c)] })
  | destroyGroup {s} (g) (hg : s.life g = .alive) :
      TieChange strict f (.free, s)
        (.closing g, { s.ties with life := update s.life g .closing })
  | destroyEmpty {s} (g) (hg : s.life g = .alive) (hempty : s.fibers_ g = []) :
      TieChange strict f (.free, s)
        (.free, { s.ties with
          log := s.ties.log ++ [.groupJoined g (s.fibers_ g)],
          life := update s.life g .gone })
  | timeoutGuard {s} (deadline : ℕ) :
      TieChange strict f (.free, s)
        (.free, { s.ties with
          scopes := update s.scopes f (.timeoutGuard s.timers :: s.scopes f),
          timers_ := s.timers_ ++ [⟨s.timers, deadline, f, true⟩] })
  | cancelGuard {s} :
      TieChange strict f (.free, s)
        (.free, { s.ties with
                    scopes := update s.scopes f (.cancelGuard (s.cancel_guarded_ f) :: s.scopes f),
                    cancel_guarded_ := update s.cancel_guarded_ f true })

theorem ties_log (s : Sched F G Q M S) (e : Event F G) (he : e.joins = false) :
    ({ s with log := s.log ++ [e] } : Sched F G Q M S).ties = s.ties := by
  simp [Sched.ties, he]

theorem ties_notify (q : Waiters Q M) (n : ℕ) (s : Sched F G Q M S) :
    (notify q n s).ties = s.ties := by
  unfold notify
  split
  · exact ties_log s _ rfl
  · rw [unpark_eq]
    rfl

theorem ties_notifyOne (q : Waiters Q M) (s : Sched F G Q M S) :
    (notifyOne q s).ties = s.ties := by
  unfold notifyOne
  split
  · rfl
  · exact ties_notify q _ _

theorem ties_passWakeup (f : F) (q : Waiters Q M) (s : Sched F G Q M S) :
    (passWakeup f q s).ties = s.ties := by
  unfold passWakeup
  split
  · exact ties_notify q _ s
  · rfl

theorem ties_leaveWait (f : F) (q : Waiters Q M) (s : Sched F G Q M S) :
    (leaveWait f q s).ties = s.ties := by
  unfold leaveWait
  split
  · exact ties_log (unlink f q s) _ rfl
  · rfl

theorem ties_raise (f : F) (e : Exc) (s : Sched F G Q M S) : (raise f e s).ties = s.ties := by
  cases e with
  | canceled => exact ties_log s _ rfl
  | timeout => exact ties_log s _ rfl

theorem guarded_of_pendingExc {s : Sched F G Q M S} {f : F} {e : Exc}
    (he : pendingExc s f = some e) : s.cancel_guarded_ f = false := by
  cases hguarded : s.cancel_guarded_ f with
  | false => rfl
  | true =>
    rw [pendingExc, hguarded] at he
    cases he

theorem Where.untied_of_queue? {w : Where F G Q M S} {q : Waiters Q M} (hw : w.queue? = some q) :
    w.Untied := by
  cases w <;> first | exact trivial | cases hw

theorem Phase.untied_of_where? {x : Phase F G Q M S} (hx : x.where? = none) : x.Untied := by
  intro w hw
  rw [hx] at hw
  cases hw

/-- Every change is one of these. -/
theorem Change.tieChange {strict : Prop} {f : F} {x x' : Phase F G Q M S}
    {s s' : Sched F G Q M S} (h : Change strict f (x, s) (x', s')) :
    TieChange strict f (x, s) (x', s'.ties) := by
  have hother (hx : x.Untied) (hx' : x'.Untied) (hties : s'.ties = s.ties)
      (hjoining : ∀ c, x' ≠ .joining c) (hclosing : ∀ g, x' ≠ .closing g) :
      TieChange strict f (x, s) (x', s'.ties) := by
    rw [hties]
    exact .other (.inr ⟨hx, hx'⟩) (fun c hc ↦ absurd hc (hjoining c))
      fun g hg ↦ absurd hg (hclosing g)
  have hsame (hx : x' = x) (hties : s'.ties = s.ties) :
      TieChange strict f (x, s) (x', s'.ties) := by
    rw [hties, hx]
    exact .other (.inl rfl) (fun _ hc ↦ hc) fun _ hg ↦ hg
  have hentering {w : Where F G Q M S} (hw : w.Untied) : (Phase.entering w).Untied := by
    intro w' hw'
    obtain rfl := Option.some.inj hw'
    exact hw
  cases h with
  | yield =>
    refine hother (Phase.untied_of_where? rfl) (hentering trivial) ?_ (by simp) (by simp)
    rw [unpark_eq]
    rfl
  | sleep deadline => exact .sleep deadline
  | link w q hx hw hq =>
    refine hother (Phase.untied_of_where? ?_) (hentering (Where.untied_of_queue? hw)) rfl
      (by simp) (by simp)
    rcases hx with rfl | ⟨m, rfl, -⟩ <;> rfl
  | join c hc => exact .join c hc
  | group g hg hf => exact .group g hg
  | waitGroup g hg => exact .waitGroup g
  | fdWait slot hslot => exact .fdWait slot
  | raise w e hx he =>
    rw [ties_raise]
    exact .raise w hx (guarded_of_pendingExc he)
  | pass w q hw =>
    refine hother (fun w' hw' ↦ ?_) (Phase.untied_of_where? rfl) (ties_passWakeup f q s)
      (by simp) (by simp)
    obtain rfl := Option.some.inj hw'
    exact Where.untied_of_queue? hw
  | wake timer hx => exact .wake timer hx
  | cleanup w hx hw hs => exact .cleanup w hx hs
  | leaveWait w q hw =>
    refine hother (fun w' hw' ↦ ?_) (Phase.untied_of_where? w.after_where?) (ties_leaveWait f q s)
      (fun c ↦ ?_) fun g ↦ ?_
    · obtain rfl := Option.some.inj hw'
      exact Where.untied_of_queue? hw
    · cases w <;> simp [Where.after]
    · cases w <;> simp [Where.after]
  | joined c saved =>
    have hmade : TieChange strict f (.back (.join c saved), s) _ := .joined c saved
    convert hmade using 2
    simp [Sched.ties, proceed, restore, Cactus.cleanup, Event.joins]
  | groupJoined g saved =>
    have hmade : TieChange strict f (.back (.group g saved), s) _ := .groupJoined g saved
    convert hmade using 2
    simp [Sched.ties, proceed, restore, Cactus.cleanup, Event.joins]
  | locking m =>
    exact hother (Phase.untied_of_where? rfl) (Phase.untied_of_where? rfl) rfl (by simp)
      (by simp)
  | take m hm =>
    exact hother (Phase.untied_of_where? rfl) (Phase.untied_of_where? rfl) rfl (by simp)
      (by simp)
  | unlock m hm => exact hsame rfl (ties_notifyOne _ _)
  | notifyOne q => exact hsame rfl (ties_notifyOne q s)
  | fdReset slot =>
    rw [unpark?_eq]
    exact .fdReset slot
  | fiber c hc =>
    rw [newFiber, unpark_eq]
    exact .fiber c hc
  | spawn g c hc hg hstrict =>
    rw [Cactus.spawn, newFiber, unpark_eq]
    exact .spawn g c hc hstrict
  | destroyFiber c hc hdead => exact .destroyFiber c hc hdead
  | destroyDead c hc hdead =>
    have hmade : TieChange strict f (.free, s) _ := .destroyDead c hdead
    convert hmade using 2
    simp [Sched.ties, Event.joins]
  | cancelFiber c hc =>
    refine hsame rfl ?_
    rw [cancel_eq]
    rfl
  | destroyGroup g hg => exact .destroyGroup g hg
  | destroyEmpty g hg hempty =>
    have hmade : TieChange strict f (.free, s) _ := .destroyEmpty g hg hempty
    convert hmade using 2
    simp [Sched.ties, Event.joins]
  | cancelMember g c hc hf =>
    refine hsame rfl ?_
    rw [cancel_eq]
    rfl
  | timeoutGuard duration => exact .timeoutGuard (s.now_ + duration)
  | cancelGuard => exact .cancelGuard

/-! ## Whoever is pointed to is parked there -/

/-- Whoever is pointed to is parked where the pointer comes from. -/
structure Tied (v : View F G Q M S) (τ : Ties F G S) : Prop where
  slot {slot : S} {g : F} : τ.slot_ slot = some g → v.place g = some (.fd slot)
  groupWaiter {h : G} {g : F} : τ.groupWaiter_ h = some g → v.place g = some (.waitGroup h)
  sleeper {t : Timer F} : t ∈ τ.timers_ → t.guard = false → v.place t.fiber = some (.sleep t.id)
  waiter {c g : F} : τ.waiter_ c = some g → ∃ b, v.place g = some (.join c b)
  joiner {h : G} {g : F} : τ.joiner_ h = some g → ∃ b, v.place g = some (.group h b)

section

variable {strict : Prop} {f : F} {x x' : Phase F G Q M S} {s s' : Sched F G Q M S}

theorem place_self : (x.view f s).place f = x.where? := Function.update_self ..

theorem place_of_ne {g : F} (hg : g ≠ f) (hparked : s'.parked = s.parked) :
    (x'.view f s').place g = (x.view f s).place g := by
  simp [Phase.view, Function.update_of_ne hg, hparked]

/-- Whoever is parked stays where it is, unless it is the fiber that runs and it leaves. -/
theorem place_stays (hparked : s'.parked = s.parked) {g : F} {w : Where F G Q M S}
    (hg : (x.view f s).place g = some w) (hf : x'.where? = x.where? ∨ x.where? ≠ some w) :
    (x'.view f s').place g = some w := by
  by_cases hgf : g = f
  · subst hgf
    rw [place_self] at hg ⊢
    exact hf.elim (fun heq ↦ heq.trans hg) fun hne ↦ absurd hg hne
  · exact (place_of_ne hgf hparked).trans hg

/-- Nothing is changed, and nobody is moved who is pointed to. -/
theorem Tied.stay {v v' : View F G Q M S} {τ : Ties F G S} (h : Tied v τ)
    (hstay : ∀ {g w}, v.place g = some w → ¬ w.Untied → v'.place g = some w) : Tied v' τ where
  slot hg := hstay (h.slot hg) id
  groupWaiter hg := hstay (h.groupWaiter hg) id
  sleeper ht hguard := hstay (h.sleeper ht hguard) id
  waiter hg := (h.waiter hg).imp fun _ hw ↦ hstay hw id
  joiner hg := (h.joiner hg).imp fun _ hw ↦ hstay hw id

/-- The fiber that runs leaves the place of which nobody has a pointer to it any more. -/
theorem Tied.leave {τ : Ties F G S} (h : Tied (x.view f s) s.ties) {w : Where F G Q M S}
    (hx : x.where? = some w) (hparked : s'.parked = s.parked)
    (hslot : ∀ {slot g}, τ.slot_ slot = some g → s.slot_ slot = some g ∧ w ≠ .fd slot)
    (hgroupWaiter : ∀ {h g}, τ.groupWaiter_ h = some g →
      s.groupWaiter_ h = some g ∧ w ≠ .waitGroup h)
    (hsleeper : ∀ {t}, t ∈ τ.timers_ → t ∈ s.timers_ ∧ w ≠ .sleep t.id)
    (hwaiter : ∀ {c g}, τ.waiter_ c = some g → s.waiter_ c = some g ∧ ∀ b, w ≠ .join c b)
    (hjoiner : ∀ {h g}, τ.joiner_ h = some g → s.joiner_ h = some g ∧ ∀ b, w ≠ .group h b) :
    Tied (x'.view f s') τ := by
  have hstay {g : F} {w' : Where F G Q M S} (hg : (x.view f s).place g = some w') (hw : w ≠ w') :
      (x'.view f s').place g = some w' := by
    refine place_stays hparked hg (.inr fun heq ↦ hw ?_)
    exact Option.some.inj (hx.symm.trans heq)
  refine ⟨fun hg ↦ ?_, fun hg ↦ ?_, fun ht hguard ↦ ?_, fun hg ↦ ?_, fun hg ↦ ?_⟩
  · exact hstay (h.slot (hslot hg).1) (hslot hg).2
  · exact hstay (h.groupWaiter (hgroupWaiter hg).1) (hgroupWaiter hg).2
  · exact hstay (h.sleeper (hsleeper ht).1 hguard) (hsleeper ht).2
  · exact (h.waiter (hwaiter hg).1).imp fun b hb ↦ hstay hb ((hwaiter hg).2 b)
  · exact (h.joiner (hjoiner hg).1).imp fun b hb ↦ hstay hb ((hjoiner hg).2 b)

theorem of_update_eq {α β : Type} [DecidableEq α] {p : α → β} {a a' : α} {b b' : β}
    (h : update p a b a' = b') (hb : b ≠ b') : p a' = b' ∧ a' ≠ a := by
  by_cases ha : a' = a
  · rw [ha, Function.update_self] at h
    exact absurd h hb
  · rw [Function.update_of_ne ha] at h
    exact ⟨h, ha⟩

theorem update_none_eq_some {α β : Type} [DecidableEq α] {p : α → Option β} {a a' : α} {b : β}
    (h : update p a none a' = some b) : p a' = some b ∧ a' ≠ a :=
  of_update_eq h nofun

theorem update_some_eq_some {α β : Type} [DecidableEq α] {p : α → Option β} {a a' : α} {b b' : β}
    (h : update p a (some b) a' = some b') : p a' = some b' ∧ a' ≠ a ∨ a' = a ∧ b' = b := by
  by_cases ha : a' = a
  · rw [ha, Function.update_self] at h
    exact .inr ⟨ha, (Option.some.inj h).symm⟩
  · rw [Function.update_of_ne ha] at h
    exact .inl ⟨h, ha⟩

/-- **One change** keeps the pointers where they belong. -/
theorem Tied.change (h : Tied (x.view f s) s.ties) (hchange : Change strict f (x, s) (x', s')) :
    Tied (x'.view f s') s'.ties := by
  obtain ⟨hparked, -⟩ := hchange.parked_loop
  have hentered {w : Where F G Q M S} (hw : x'.where? = some w) : (x'.view f s').place f = some w :=
    place_self.trans hw
  -- in most cases the fiber that runs was nowhere
  have hfree (hx : x.where? = none) : Tied (x'.view f s') s.ties :=
    h.stay fun hg _ ↦ place_stays hparked hg (.inr (by rw [hx]; exact nofun))
  have htie := hchange.tieChange
  generalize s'.ties = τ at htie
  cases htie with
  | other hplace hjoining hclosing =>
    refine h.stay fun hg hw ↦ place_stays hparked hg ?_
    rcases hplace with rfl | ⟨hx, -⟩
    · exact .inl rfl
    · exact .inr fun heq ↦ hw (hx _ heq)
  | raise w hx hf =>
    refine h.stay fun hg _ ↦ place_stays hparked hg (.inl ?_)
    rcases hx with rfl | rfl <;> rfl
  | sleep deadline =>
    obtain ⟨hslot, hgroupWaiter, hsleeper, hwaiter, hjoiner⟩ := hfree rfl
    refine ⟨hslot, hgroupWaiter, fun ht hguard ↦ ?_, hwaiter, hjoiner⟩
    rcases List.mem_append.mp ht with ht | ht
    · exact hsleeper ht hguard
    · obtain rfl := List.mem_singleton.mp ht
      exact hentered rfl
  | join c hc =>
    obtain ⟨hslot, hgroupWaiter, hsleeper, hwaiter, hjoiner⟩ := hfree rfl
    refine ⟨hslot, hgroupWaiter, hsleeper, fun hg ↦ ?_, hjoiner⟩
    rcases update_some_eq_some hg with ⟨hold, -⟩ | ⟨rfl, rfl⟩
    · exact hwaiter hold
    · exact ⟨_, hentered rfl⟩
  | group g hg =>
    obtain ⟨hslot, hgroupWaiter, hsleeper, hwaiter, hjoiner⟩ := hfree rfl
    refine ⟨hslot, hgroupWaiter, hsleeper, hwaiter, fun hg ↦ ?_⟩
    rcases update_some_eq_some hg with ⟨hold, -⟩ | ⟨rfl, rfl⟩
    · exact hjoiner hold
    · exact ⟨_, hentered rfl⟩
  | waitGroup g =>
    obtain ⟨hslot, hgroupWaiter, hsleeper, hwaiter, hjoiner⟩ := hfree rfl
    refine ⟨hslot, fun hg ↦ ?_, hsleeper, hwaiter, hjoiner⟩
    rcases update_some_eq_some hg with ⟨hold, -⟩ | ⟨rfl, rfl⟩
    · exact hgroupWaiter hold
    · exact hentered rfl
  | fdWait slot =>
    obtain ⟨hslot, hgroupWaiter, hsleeper, hwaiter, hjoiner⟩ := hfree rfl
    refine ⟨fun hg ↦ ?_, hgroupWaiter, hsleeper, hwaiter, hjoiner⟩
    rcases update_some_eq_some hg with ⟨hold, -⟩ | ⟨rfl, rfl⟩
    · exact hslot hold
    · exact hentered rfl
  | wake timer hx =>
    have hwhere : x.where? = some (.sleep timer) := by rcases hx with rfl | rfl <;> rfl
    refine h.leave hwhere hparked (fun hg ↦ ⟨hg, nofun⟩) (fun hg ↦ ⟨hg, nofun⟩) (fun ht ↦ ?_)
      (fun hg ↦ ⟨hg, fun b ↦ nofun⟩) fun hg ↦ ⟨hg, fun b ↦ nofun⟩
    obtain ⟨hold, hid⟩ := List.mem_filter.mp ht
    exact ⟨hold, fun heq ↦ of_decide_eq_true hid (Where.sleep.inj heq).symm⟩
  | cleanup w hx hs =>
    have hwhere : x.where? = some w := by rcases hx with rfl | rfl <;> rfl
    cases w with
    | join c saved =>
      refine h.leave hwhere hparked (fun hg ↦ ⟨hg, nofun⟩) (fun hg ↦ ⟨hg, nofun⟩)
        (fun ht ↦ ⟨ht, nofun⟩) (fun hg ↦ ?_) fun hg ↦ ⟨hg, fun b ↦ nofun⟩
      obtain ⟨hold, hne⟩ := update_none_eq_some hg
      exact ⟨hold, fun b heq ↦ hne (Where.join.inj heq).1.symm⟩
    | group g saved =>
      refine h.leave hwhere hparked (fun hg ↦ ⟨hg, nofun⟩) (fun hg ↦ ⟨hg, nofun⟩)
        (fun ht ↦ ⟨ht, nofun⟩) (fun hg ↦ ⟨hg, fun b ↦ nofun⟩) fun hg ↦ ?_
      obtain ⟨hold, hne⟩ := update_none_eq_some hg
      exact ⟨hold, fun b heq ↦ hne (Where.group.inj heq).1.symm⟩
    | waitGroup g =>
      refine h.leave hwhere hparked (fun hg ↦ ⟨hg, nofun⟩) (fun hg ↦ ?_)
        (fun ht ↦ ⟨ht, nofun⟩) (fun hg ↦ ⟨hg, fun b ↦ nofun⟩) fun hg ↦ ⟨hg, fun b ↦ nofun⟩
      obtain ⟨hold, hne⟩ := update_none_eq_some hg
      exact ⟨hold, fun heq ↦ hne (Where.waitGroup.inj heq).symm⟩
    | fd slot =>
      refine h.leave hwhere hparked (fun hg ↦ ?_) (fun hg ↦ ⟨hg, nofun⟩)
        (fun ht ↦ ⟨ht, nofun⟩) (fun hg ↦ ⟨hg, fun b ↦ nofun⟩) fun hg ↦ ⟨hg, fun b ↦ nofun⟩
      obtain ⟨hold, hne⟩ := update_none_eq_some hg
      exact ⟨hold, fun heq ↦ hne (Where.fd.inj heq).symm⟩
    | sleep timer => exact absurd rfl (hs timer)
    | _ =>
      exact h.leave hwhere hparked (fun hg ↦ ⟨hg, nofun⟩) (fun hg ↦ ⟨hg, nofun⟩)
        (fun ht ↦ ⟨ht, nofun⟩) (fun hg ↦ ⟨hg, fun b ↦ nofun⟩) fun hg ↦ ⟨hg, fun b ↦ nofun⟩
  | joined c saved =>
    refine h.leave rfl hparked (fun hg ↦ ⟨hg, nofun⟩) (fun hg ↦ ⟨hg, nofun⟩)
      (fun ht ↦ ⟨ht, nofun⟩) (fun hg ↦ ?_) fun hg ↦ ⟨hg, fun b ↦ nofun⟩
    obtain ⟨hold, hne⟩ := update_none_eq_some hg
    exact ⟨hold, fun b heq ↦ hne (Where.join.inj heq).1.symm⟩
  | groupJoined g saved =>
    refine h.leave rfl hparked (fun hg ↦ ⟨hg, nofun⟩) (fun hg ↦ ⟨hg, nofun⟩)
      (fun ht ↦ ⟨ht, nofun⟩) (fun hg ↦ ⟨hg, fun b ↦ nofun⟩) fun hg ↦ ?_
    obtain ⟨hold, hne⟩ := update_none_eq_some hg
    exact ⟨hold, fun b heq ↦ hne (Where.group.inj heq).1.symm⟩
  | fdReset slot =>
    obtain ⟨hslot, hgroupWaiter, hsleeper, hwaiter, hjoiner⟩ := hfree rfl
    exact ⟨fun hg ↦ hslot (update_none_eq_some hg).1, hgroupWaiter, hsleeper, hwaiter, hjoiner⟩
  | timeoutGuard deadline =>
    obtain ⟨hslot, hgroupWaiter, hsleeper, hwaiter, hjoiner⟩ := hfree rfl
    refine ⟨hslot, hgroupWaiter, fun ht hguard ↦ ?_, hwaiter, hjoiner⟩
    rcases List.mem_append.mp ht with ht | ht
    · exact hsleeper ht hguard
    · rw [List.mem_singleton.mp ht] at hguard
      cases hguard
  | _ =>
    obtain ⟨hslot, hgroupWaiter, hsleeper, hwaiter, hjoiner⟩ := hfree rfl
    exact ⟨hslot, hgroupWaiter, hsleeper, hwaiter, hjoiner⟩

end

end Cactus
end ManyTasks
