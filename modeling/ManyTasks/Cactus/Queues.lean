import ManyTasks.Cactus.Changes

/-!
# The waiters of a queue

Of all changes only a few are about wait queues and mutexes, and they are listed in `QueueChange`.
What they do to the `Queues` keeps the waiters in their places: `Placed` says that whoever is in a
queue is parked in it, or about to be, and has not been notified, and that whoever has been notified
is woken and still in its call.
-/

set_option autoImplicit false
set_option linter.unusedSectionVars false

namespace ManyTasks
namespace Cactus

variable {F G Q M S : Type}

open Function (update)

/-! ## What is about queues -/

/-- The event ends the notification. -/
def Event.ends (n : ℕ) : Event F G → Bool
  | .returned k => k = n
  | .dropped k _ => k = n
  | _ => false

/-- The event ends some notification. -/
def Event.ending : Event F G → Bool
  | .returned _ => true
  | .dropped _ _ => true
  | _ => false

/-- The part of the state that is about queues and mutexes. -/
structure Queues (F G Q M : Type) where
  waiters_ : Waiters Q M → List F
  wakeup : F → Option ℕ
  notifications : ℕ
  log : List (Event F G)
  locked_ : M → Bool
  held : F → List M

def Sched.queues (s : Sched F G Q M S) : Queues F G Q M where
  waiters_ := s.waiters_
  wakeup := s.wakeup
  notifications := s.notifications
  log := s.log.filter Event.ending
  locked_ := s.locked_
  held := s.held

variable [DecidableEq F] [DecidableEq G] [DecidableEq Q] [DecidableEq M] [DecidableEq S]

/-- The queue in which the fiber that runs is. -/
def Phase.queue? (x : Phase F G Q M S) : Option (Waiters Q M) := x.where?.bind Where.queue?

/-- The changes that are about queues and mutexes, and all others. -/
inductive QueueChange (f : F) :
    Phase F G Q M S × Sched F G Q M S → Phase F G Q M S × Sched F G Q M S → Prop where
  | other {x x' s s'} (hqueues : s'.queues = s.queues) (hx : ∀ m, x ≠ .locking m)
      (hplace : x'.queue? = x.queue?) (hleft : x'.Left ∨ x.queue? = none)
      (hup : ∀ g, g ≠ f → g ∈ s.run_queue_ → g ∈ s'.run_queue_) : QueueChange f (x, s) (x', s')
  | link {x s} (w q) (hx : x = .free ∨ ∃ m, x = .locking m ∧ s.locked_ m = true)
      (hw : w.queue? = some q) (hq : ∀ m, q = .lockers m → s.locked_ m = true) :
      QueueChange f (x, s) (.entering w, link f q s)
  | pass {x s} (q) (hx : x.queue? = some q) : QueueChange f (x, s) (.free, passWakeup f q s)
  | leaveWait {s} (w q) (hw : w.queue? = some q) :
      QueueChange f (.back w, s) (w.after, leaveWait f q s)
  | take {s} (m) (hm : s.locked_ m = false) :
      QueueChange f (.locking m, s) (.free, { s with
        locked_ := update s.locked_ m true,
        held := update s.held f (m :: s.held f) })
  | unlock {s} (m) (hm : m ∈ s.held f) : QueueChange f (.free, s) (.free, unlock f m s)
  | notifyOne {s} (q) : QueueChange f (.free, s) (.free, notifyOne q s)

theorem queues_log (s : Sched F G Q M S) (e : Event F G) (he : e.ending = false) :
    ({ s with log := s.log ++ [e] } : Sched F G Q M S).queues = s.queues := by
  simp [Sched.queues, he]

theorem queues_raise (f : F) (e : Exc) (s : Sched F G Q M S) :
    (raise f e s).queues = s.queues := by
  cases e with
  | canceled => exact queues_log s _ rfl
  | timeout => exact queues_log s _ rfl

/-- An exception does not change who else is in the run queue. -/
theorem mem_raise {f g : F} (e : Exc) {s : Sched F G Q M S} (hg : g ≠ f)
    (hmem : g ∈ s.run_queue_) : g ∈ (raise f e s).run_queue_ := by
  cases e with
  | canceled => exact (List.mem_erase_of_ne hg).mpr hmem
  | timeout => exact (List.mem_erase_of_ne hg).mpr hmem

/-- Every change is one of these. -/
theorem Change.queueChange {strict : Prop} {f : F} {x x' : Phase F G Q M S}
    {s s' : Sched F G Q M S} (h : Change strict f (x, s) (x', s')) :
    QueueChange f (x, s) (x', s') := by
  have henq (g c : F) (l : List F) (hg : g ∈ l) : g ∈ enqueue c l := mem_enqueue.mpr (.inl hg)
  have hguarded (g c : F) (hg : g ∈ s.run_queue_) :
      g ∈ if s.cancel_guarded_ c then s.run_queue_ else enqueue c s.run_queue_ := by
    split
    · exact hg
    · exact henq g c _ hg
  cases h with
  | link w q hx hw hq => exact .link w q hx hw hq
  | pass w q hw => exact .pass q hw
  | leaveWait w q hw => exact .leaveWait w q hw
  | take m hm => exact .take m hm
  | unlock m hm => exact .unlock m hm
  | notifyOne q => exact .notifyOne q
  | yield =>
    rw [unpark_eq]
    exact .other rfl (by simp) rfl (.inr rfl) fun g _ hg ↦ henq g f _ hg
  | raise w e hx he =>
    refine .other (queues_raise f e s) (fun m hm ↦ ?_) ?_ (.inl ⟨w, .inr rfl⟩) fun g hg hmem ↦
      mem_raise e hg hmem
    · rcases hx with rfl | rfl <;> cases hm
    · rcases hx with rfl | rfl <;> rfl
  | wake timer hx =>
    have hnone : x.queue? = none := by rcases hx with rfl | rfl <;> rfl
    refine .other rfl (fun m hm ↦ ?_) hnone.symm (.inr hnone) fun g _ hg ↦ hg
    rcases hx with rfl | rfl <;> cases hm
  | cleanup w hx hw hs =>
    have hnone : x.queue? = none := by rcases hx with rfl | rfl <;> exact hw
    refine .other ?_ (fun m hm ↦ ?_) hnone.symm (.inr hnone) fun g _ hg ↦ ?_
    · cases w <;> rfl
    · rcases hx with rfl | rfl <;> cases hm
    · cases w <;> exact hg
  | joined c saved =>
    exact .other (queues_log (restore f saved s) _ rfl) (by simp) rfl (.inr rfl)
      fun g _ hg ↦ hg
  | groupJoined g saved =>
    exact .other (queues_log (restore f saved s) _ rfl) (by simp) rfl (.inr rfl)
      fun g _ hg ↦ hg
  | fdReset slot =>
    rw [unpark?_eq]
    exact .other rfl (by simp) rfl (.inr rfl) fun g _ hg ↦ mem_enqueue?.mpr (.inl hg)
  | fiber c hc =>
    rw [newFiber, unpark_eq]
    exact .other rfl (by simp) rfl (.inr rfl) fun g _ hg ↦ henq g c _ hg
  | spawn g c hc hg hstrict =>
    rw [Cactus.spawn, newFiber, unpark_eq]
    exact .other rfl (by simp) rfl (.inr rfl) fun g _ hg ↦ henq g c _ hg
  | destroyDead c hc hdead =>
    exact .other (queues_log s _ rfl) (by simp) rfl (.inr rfl) fun g _ hg ↦ hg
  | destroyEmpty g hg hempty =>
    exact .other (queues_log s _ rfl) (by simp) rfl (.inr rfl) fun g _ hg ↦ hg
  | cancelFiber c hc =>
    rw [cancel_eq]
    exact .other rfl (by simp) rfl (.inr rfl) fun g _ hg ↦ hguarded g c hg
  | cancelMember g c hc hf =>
    rw [cancel_eq]
    exact .other rfl (by simp) rfl (.inr rfl) fun g _ hg ↦ hguarded g c hg
  | _ => exact .other rfl (by simp) rfl (.inr rfl) fun g _ hg ↦ hg

/-! ## What happens to a waiter -/

/-- The first waiter is notified. -/
def Queues.notified (σ : Queues F G Q M) (q : Waiters Q M) (w : F) (ws : List F) (n : ℕ) :
    Queues F G Q M :=
  { σ with waiters_ := update σ.waiters_ q ws, wakeup := update σ.wakeup w (some n) }

/-- The `Waiter` of the fiber goes out of scope. -/
def Queues.unlinked (σ : Queues F G Q M) (f : F) (q : Waiters Q M) : Queues F G Q M :=
  { σ with waiters_ := update σ.waiters_ q ((σ.waiters_ q).erase f),
           wakeup := update σ.wakeup f none }

/-- The notification comes to its end. -/
def Queues.ended (σ : Queues F G Q M) (e : Event F G) : Queues F G Q M :=
  { σ with log := σ.log ++ [e] }

section

variable (s : Sched F G Q M S) (f : F) (q : Waiters Q M)

theorem queues_notifyOne :
    s.waiters_ q = [] ∧ notifyOne q s = s ∨
      ∃ w ws, s.waiters_ q = w :: ws ∧
        (notifyOne q s).run_queue_ = enqueue w s.run_queue_ ∧
        (notifyOne q s).queues =
          { s.queues.notified q w ws s.notifications with
            notifications := s.notifications + 1 } := by
  cases hq : s.waiters_ q with
  | nil => exact .inl ⟨rfl, notifyOne_nil s q hq⟩
  | cons w ws =>
    refine .inr ⟨w, ws, rfl, ?_⟩
    rw [notifyOne_cons s q hq]
    exact ⟨rfl, rfl⟩

/-- The notification is passed on, if there is one and somebody to take it. -/
theorem queues_passWakeup :
    (s.wakeup f = none ∧ (passWakeup f q s).run_queue_ = s.run_queue_ ∧
      (passWakeup f q s).queues = s.queues.unlinked f q) ∨
    (∃ n, s.wakeup f = some n ∧ s.waiters_ q = [] ∧
      (passWakeup f q s).run_queue_ = s.run_queue_ ∧
      (passWakeup f q s).queues = (s.queues.unlinked f q).ended (.dropped n [])) ∨
    ∃ n w ws, s.wakeup f = some n ∧ s.waiters_ q = w :: ws ∧
      (passWakeup f q s).run_queue_ = enqueue w s.run_queue_ ∧
      (passWakeup f q s).queues = (s.queues.notified q w ws n).unlinked f q := by
  unfold passWakeup
  cases hn : s.wakeup f with
  | none => exact .inl ⟨rfl, rfl, rfl⟩
  | some n =>
    right
    cases hq : s.waiters_ q with
    | nil =>
      refine .inl ⟨n, rfl, rfl, ?_⟩
      simp [notify, hq, unlink, Sched.queues, Queues.unlinked, Queues.ended, Event.ending]
    | cons w ws =>
      refine .inr ⟨n, w, ws, rfl, rfl, ?_⟩
      dsimp only
      rw [notify_cons s q n hq]
      exact ⟨rfl, rfl⟩

theorem queues_leaveWait :
    (leaveWait f q s).run_queue_ = s.run_queue_ ∧
      ((s.wakeup f = none ∧ (leaveWait f q s).queues = s.queues.unlinked f q) ∨
        ∃ n, s.wakeup f = some n ∧
          (leaveWait f q s).queues = (s.queues.unlinked f q).ended (.returned n)) := by
  unfold leaveWait
  cases hn : s.wakeup f with
  | none => exact ⟨rfl, .inl ⟨rfl, rfl⟩⟩
  | some n =>
    refine ⟨rfl, .inr ⟨n, rfl, ?_⟩⟩
    simp [unlink, Sched.queues, Queues.unlinked, Queues.ended, Event.ending]

end

/-- No change takes another fiber out of the run queue. -/
theorem Change.mem_run_queue {strict : Prop} {f g : F} {x x' : Phase F G Q M S}
    {s s' : Sched F G Q M S} (h : Change strict f (x, s) (x', s')) (hg : g ≠ f)
    (hmem : g ∈ s.run_queue_) : g ∈ s'.run_queue_ := by
  have hnotifyOne (q : Waiters Q M) (s : Sched F G Q M S) (hmem : g ∈ s.run_queue_) :
      g ∈ (Cactus.notifyOne q s).run_queue_ := by
    rcases queues_notifyOne s q with ⟨-, heq⟩ | ⟨w, ws, -, heq, -⟩
    · rw [heq]
      exact hmem
    · exact heq ▸ mem_enqueue.mpr (.inl hmem)
  cases h.queueChange with
  | other hqueues hx hplace hleft hup => exact hup g hg hmem
  | link w q hx hw hq => exact hmem
  | pass q hx =>
    rcases queues_passWakeup s f q with ⟨-, heq, -⟩ | ⟨n, -, -, heq, -⟩ | ⟨n, w, ws, -, -, heq, -⟩
    · exact heq ▸ hmem
    · exact heq ▸ hmem
    · exact heq ▸ mem_enqueue.mpr (.inl hmem)
  | leaveWait w q hw => exact (queues_leaveWait s f q).1 ▸ hmem
  | take m hm => exact hmem
  | unlock m hm => exact hnotifyOne _ _ hmem
  | notifyOne q => exact hnotifyOne q s hmem

/-! ## Places -/

/-- The queue in which the fiber is. -/
def View.queue? (v : View F G Q M S) (g : F) : Option (Waiters Q M) :=
  (v.place g).bind Where.queue?

/-- Whoever is in a queue is parked in it and not notified; whoever is notified is woken and has not
left its call. -/
structure Placed (v : View F G Q M S) (σ : Queues F G Q M) : Prop where
  nodup (q : Waiters Q M) : (σ.waiters_ q).Nodup
  waiter {q : Waiters Q M} {g : F} : g ∈ σ.waiters_ q → v.queue? g = some q ∧ σ.wakeup g = none
  woken {g : F} {n : ℕ} : σ.wakeup g = some n → v.up g ∧ v.queue? g ≠ none
  entering {g : F} {w : Where F G Q M S} :
    v.running = some g → v.phase = .entering w → σ.wakeup g = none

section

variable {f : F} {x x' : Phase F G Q M S} {s s' : Sched F G Q M S} {σ : Queues F G Q M}

theorem queue?_view_self : (x.view f s).queue? f = x.queue? := by
  simp [View.queue?, Phase.view, Phase.queue?]

theorem queue?_view_of_ne {g : F} (hg : g ≠ f) (hparked : s'.parked = s.parked) :
    (x'.view f s').queue? g = (x.view f s).queue? g := by
  simp [View.queue?, Phase.view, Function.update_of_ne hg, hparked]

/-- A fiber that is in no queue has no notification. -/
theorem Placed.wakeup_none (h : Placed (x.view f s) σ) (hx : x.queue? = none) :
    σ.wakeup f = none := by
  cases hn : σ.wakeup f with
  | none => rfl
  | some n => exact absurd (queue?_view_self.trans hx) (h.woken hn).2

theorem Placed.other (h : Placed (x.view f s) σ) (hparked : s'.parked = s.parked)
    (hplace : x'.queue? = x.queue?) (hleft : x'.Left ∨ x.queue? = none)
    (hup : ∀ g, g ≠ f → g ∈ s.run_queue_ → g ∈ s'.run_queue_) : Placed (x'.view f s') σ := by
  have hsame (g : F) : (x'.view f s').queue? g = (x.view f s).queue? g := by
    by_cases hg : g = f
    · rw [hg, queue?_view_self, queue?_view_self, hplace]
    · exact queue?_view_of_ne hg hparked
  refine ⟨h.nodup, fun hg ↦ ?_, fun {g n} hn ↦ ⟨?_, ?_⟩, fun {g w} hg hw ↦ ?_⟩
  · rw [hsame]
    exact h.waiter hg
  · by_cases hg : g = f
    · subst hg
      -- it has left `Park`, or else it is in no queue and carries no notification
      rcases hleft with hleft | hnone
      · exact .inr ⟨rfl, hleft⟩
      · exact absurd (h.wakeup_none hnone) (by simp [hn])
    · exact .inl (hup g hg (mem_of_up hg (h.woken hn).1))
  · rw [hsame]
    exact (h.woken hn).2
  · obtain rfl := Option.some.inj hg
    rcases hleft with ⟨w', hleft⟩ | hnone
    · rw [show x' = .entering w from hw] at hleft
      rcases hleft with hleft | hleft <;> cases hleft
    · exact h.wakeup_none hnone

/-- The first waiter is notified and woken. -/
theorem Placed.notified {v : View F G Q M S} (h : Placed v σ) (v' : View F G Q M S)
    {q : Waiters Q M} {w : F} {ws : List F} (n : ℕ) (hq : σ.waiters_ q = w :: ws)
    (hrunning : v'.running = v.running)
    (hphase : v'.phase = v.phase) (hplace : v'.place = v.place)
    (hup : ∀ g, v.up g ∨ g = w → v'.up g) (hw : ∀ y, v.phase = .entering y → v.running ≠ some w) :
    Placed v' (σ.notified q w ws n) := by
  have hqueue (g : F) : v'.queue? g = v.queue? g := by rw [View.queue?, hplace]; rfl
  have hmem : w ∈ σ.waiters_ q := hq ▸ List.mem_cons_self
  have hnodup : (w :: ws).Nodup := hq ▸ h.nodup q
  have hsub {q' : Waiters Q M} {g : F} (hg : g ∈ update σ.waiters_ q ws q') :
      g ∈ σ.waiters_ q' ∧ g ≠ w := by
    by_cases hq' : q' = q
    · subst hq'
      rw [Function.update_self] at hg
      refine ⟨hq ▸ List.mem_cons_of_mem w hg, fun hgw ↦ ?_⟩
      exact (List.nodup_cons.mp hnodup).1 (hgw ▸ hg)
    · rw [Function.update_of_ne hq'] at hg
      refine ⟨hg, fun hgw ↦ hq' ?_⟩
      exact Option.some.inj ((hgw ▸ h.waiter hg).1.symm.trans (h.waiter hmem).1)
  refine ⟨fun q' ↦ ?_, fun {q' g} hg ↦ ?_, fun {g k} hg ↦ ?_, fun {g y} hg hy ↦ ?_⟩
  · show (update σ.waiters_ q ws q').Nodup
    by_cases hq' : q' = q
    · rw [hq', Function.update_self]
      exact (List.nodup_cons.mp hnodup).2
    · rw [Function.update_of_ne hq']
      exact h.nodup q'
  · obtain ⟨hold, hne⟩ := hsub hg
    obtain ⟨hat, hnone⟩ := h.waiter hold
    refine ⟨(hqueue g).trans hat, ?_⟩
    show update σ.wakeup w (some n) g = none
    rw [Function.update_of_ne hne]
    exact hnone
  · change update σ.wakeup w (some n) g = some k at hg
    by_cases hgw : g = w
    · subst hgw
      refine ⟨hup g (.inr rfl), ?_⟩
      rw [hqueue, (h.waiter hmem).1]
      exact Option.some_ne_none q
    · rw [Function.update_of_ne hgw] at hg
      exact ⟨hup g (.inl (h.woken hg).1), (hqueue g).symm ▸ (h.woken hg).2⟩
  · show update σ.wakeup w (some n) g = none
    rw [hrunning] at hg
    rw [hphase] at hy
    have hne : g ≠ w := fun hgw ↦ hw y hy (hgw ▸ hg)
    rw [Function.update_of_ne hne]
    exact h.entering hg hy

/-- The fiber that runs leaves its queue. -/
theorem Placed.unlinked (h : Placed (x.view f s) σ) {q : Waiters Q M} (hx : x.queue? = some q)
    (hx' : x'.where? = none) (hparked : s'.parked = s.parked)
    (hup : ∀ g, g ≠ f → g ∈ s.run_queue_ → g ∈ s'.run_queue_) :
    Placed (x'.view f s') (σ.unlinked f q) := by
  have hsub {q' : Waiters Q M} {g : F} (hg : g ∈ (σ.unlinked f q).waiters_ q') :
      g ∈ σ.waiters_ q' ∧ g ≠ f := by
    change g ∈ update σ.waiters_ q ((σ.waiters_ q).erase f) q' at hg
    by_cases hq' : q' = q
    · subst hq'
      rw [Function.update_self] at hg
      exact ((h.nodup q').mem_erase_iff.mp hg).symm
    · rw [Function.update_of_ne hq'] at hg
      refine ⟨hg, fun hgf ↦ hq' ?_⟩
      have hat := (h.waiter (hgf ▸ hg)).1
      rw [queue?_view_self, hx] at hat
      exact (Option.some.inj hat).symm
  have hwakeup {g : F} {n : ℕ} (hn : (σ.unlinked f q).wakeup g = some n) :
      g ≠ f ∧ σ.wakeup g = some n := by
    change update σ.wakeup f none g = some n at hn
    by_cases hg : g = f
    · rw [hg, Function.update_self] at hn
      cases hn
    · rw [Function.update_of_ne hg] at hn
      exact ⟨hg, hn⟩
  refine ⟨fun q' ↦ ?_, fun {q' g} hg ↦ ?_, fun {g n} hn ↦ ?_, fun {g y} hg hy ↦ ?_⟩
  · show (update σ.waiters_ q ((σ.waiters_ q).erase f) q').Nodup
    by_cases hq' : q' = q
    · rw [hq', Function.update_self]
      exact (h.nodup q).erase f
    · rw [Function.update_of_ne hq']
      exact h.nodup q'
  · obtain ⟨hold, hne⟩ := hsub hg
    obtain ⟨hat, hnone⟩ := h.waiter hold
    refine ⟨(queue?_view_of_ne hne hparked).trans hat, ?_⟩
    show update σ.wakeup f none g = none
    rw [Function.update_of_ne hne]
    exact hnone
  · obtain ⟨hne, hn⟩ := hwakeup hn
    obtain ⟨hold, hat⟩ := h.woken hn
    refine ⟨.inl (hup g hne (mem_of_up hne hold)), ?_⟩
    rw [queue?_view_of_ne hne hparked]
    exact hat
  · rw [show x' = .entering y from hy] at hx'
    cases hx'

/-- The fiber that runs is put into a queue. -/
theorem Placed.link (h : Placed (x.view f s) s.queues) (hx : x.where? = none)
    {w : Where F G Q M S} {q : Waiters Q M} (hw : w.queue? = some q) :
    Placed ((Phase.entering w).view f (link f q s)) (link f q s).queues := by
  have hout : x.queue? = none := by rw [Phase.queue?, hx]; rfl
  have hnot (q' : Waiters Q M) : f ∉ s.waiters_ q' := fun hf ↦ by
    have hat := (h.waiter hf).1
    rw [queue?_view_self, hout] at hat
    cases hat
  have hnone : update s.wakeup f none = s.wakeup := by
    rw [← h.wakeup_none hout]
    exact Function.update_eq_self f s.wakeup
  have hfq : ((Phase.entering w).view f (Cactus.link f q s)).queue? f = some q :=
    queue?_view_self.trans hw
  have hsame {g : F} (hg : g ≠ f) :
      ((Phase.entering w).view f (Cactus.link f q s)).queue? g = (x.view f s).queue? g :=
    queue?_view_of_ne hg rfl
  refine ⟨fun q' ↦ ?_, fun {q' g} hg ↦ ?_, fun {g n} hn ↦ ?_, fun {g y} hg hy ↦ ?_⟩
  · show (update s.waiters_ q (s.waiters_ q ++ [f]) q').Nodup
    by_cases hq' : q' = q
    · rw [hq', Function.update_self]
      exact (h.nodup q).append (List.nodup_singleton f) (List.disjoint_singleton.mpr (hnot q))
    · rw [Function.update_of_ne hq']
      exact h.nodup q'
  · change g ∈ update s.waiters_ q (s.waiters_ q ++ [f]) q' at hg
    show _ ∧ update s.wakeup f none g = none
    rw [hnone]
    have hmem : g ∈ s.waiters_ q' ∨ g = f ∧ q' = q := by
      by_cases hq' : q' = q
      · rw [hq', Function.update_self, List.mem_append, List.mem_singleton] at hg
        exact hg.imp (hq' ▸ ·) fun hgf ↦ ⟨hgf, hq'⟩
      · rw [Function.update_of_ne hq'] at hg
        exact .inl hg
    rcases hmem with hold | ⟨rfl, rfl⟩
    · have hne : g ≠ f := fun hgf ↦ hnot q' (hgf ▸ hold)
      refine ⟨?_, (h.waiter hold).2⟩
      exact (hsame hne).trans (h.waiter hold).1
    · exact ⟨hfq, h.wakeup_none hout⟩
  · change update s.wakeup f none g = some n at hn
    rw [hnone] at hn
    have hne : g ≠ f := fun hgf ↦ by
      rw [hgf, show s.wakeup f = none from h.wakeup_none hout] at hn
      cases hn
    obtain ⟨hold, hat⟩ := h.woken hn
    refine ⟨.inl (mem_of_up hne hold), ?_⟩
    rw [hsame hne]
    exact hat
  · obtain rfl := Option.some.inj hg
    exact Function.update_self ..

theorem Where.after_where? (w : Where F G Q M S) : w.after.where? = none := by
  cases w <;> rfl

theorem Placed.notifyOne (h : Placed ((.free : Phase F G Q M S).view f s) s.queues)
    (q : Waiters Q M) :
    Placed ((.free : Phase F G Q M S).view f (notifyOne q s)) (notifyOne q s).queues := by
  rcases queues_notifyOne s q with ⟨-, heq⟩ | ⟨w, ws, hq, hqueue, heq⟩
  · rw [heq]
    exact h
  · have hparked : (Cactus.notifyOne q s).parked = s.parked := by rw [notifyOne_cons s q hq]
    rw [heq]
    have hnotified := h.notified ((Phase.free : Phase F G Q M S).view f (Cactus.notifyOne q s))
      s.notifications hq rfl rfl ?_ ?_ fun y hy ↦ nomatch hy
    · exact ⟨hnotified.nodup, hnotified.waiter, hnotified.woken, hnotified.entering⟩
    · show update _ f _ = update _ f _
      rw [hparked]
    · rintro g (hold | rfl)
      · refine hold.imp (fun hmem ↦ ?_) id
        show g ∈ (Cactus.notifyOne q s).run_queue_
        exact hqueue ▸ mem_enqueue.mpr (.inl hmem)
      · left
        show g ∈ (Cactus.notifyOne q s).run_queue_
        exact hqueue ▸ mem_enqueue.mpr (.inr rfl)

theorem Placed.passWakeup (h : Placed (x.view f s) s.queues) {q : Waiters Q M}
    (hx : x.queue? = some q) (hparked : (passWakeup f q s).parked = s.parked) :
    Placed ((.free : Phase F G Q M S).view f (passWakeup f q s)) (passWakeup f q s).queues := by
  rcases queues_passWakeup s f q with ⟨-, hqueue, heq⟩ | ⟨n, -, -, hqueue, heq⟩ |
    ⟨n, w, ws, hn, hq, hqueue, heq⟩
  · rw [heq]
    exact h.unlinked hx rfl hparked fun g _ hg ↦ hqueue ▸ hg
  · rw [heq]
    have hleft := h.unlinked hx (show (Phase.free : Phase F G Q M S).where? = none from rfl)
      hparked fun g _ hg ↦ hqueue ▸ hg
    exact ⟨hleft.nodup, hleft.waiter, hleft.woken, hleft.entering⟩
  · rw [heq]
    have hne : f ≠ w := fun hfw ↦ by
      have hmem : w ∈ s.queues.waiters_ q := by
        rw [show s.queues.waiters_ q = w :: ws from hq]
        exact List.mem_cons_self
      have hnone := (h.waiter hmem).2
      rw [← hfw, show s.queues.wakeup f = some n from hn] at hnone
      cases hnone
    have hnotified := h.notified
      (x.view f { s with run_queue_ := enqueue w s.run_queue_ }) n hq rfl rfl rfl
      (fun g hg ↦ ?_) fun y _ heq ↦ hne (Option.some.inj heq)
    · exact hnotified.unlinked hx rfl hparked fun g _ hg ↦ hqueue ▸ hg
    · rcases hg with hold | rfl
      · exact hold.imp (fun hmem ↦ mem_enqueue.mpr (.inl hmem)) id
      · exact .inl (mem_enqueue.mpr (.inr rfl))

theorem Placed.leaveWait (h : Placed (x.view f s) s.queues) {q : Waiters Q M}
    (hx : x.queue? = some q) (hx' : x'.where? = none) :
    Placed (x'.view f (leaveWait f q s)) (leaveWait f q s).queues := by
  have hparked : (Cactus.leaveWait f q s).parked = s.parked := by
    unfold Cactus.leaveWait
    split <;> rfl
  obtain ⟨hqueue, ⟨-, heq⟩ | ⟨n, -, heq⟩⟩ := queues_leaveWait s f q
  · rw [heq]
    exact h.unlinked hx hx' hparked fun g _ hg ↦ hqueue ▸ hg
  · rw [heq]
    have hleft := h.unlinked hx hx' hparked fun g _ hg ↦ hqueue ▸ hg
    exact ⟨hleft.nodup, hleft.waiter, hleft.woken, hleft.entering⟩

/-- **One change** keeps the waiters in their places. -/
theorem Placed.change {strict : Prop} (h : Placed (x.view f s) s.queues)
    (hchange : Change strict f (x, s) (x', s')) : Placed (x'.view f s') s'.queues := by
  obtain ⟨hparked, -⟩ := hchange.parked_loop
  cases hchange.queueChange with
  | other hqueues hx hplace hleft hup =>
    rw [hqueues]
    exact h.other hparked hplace hleft hup
  | link w q hx hw hq =>
    refine h.link ?_ hw
    rcases hx with rfl | ⟨m, rfl, -⟩ <;> rfl
  | pass q hx => exact h.passWakeup hx hparked
  | leaveWait w q hw => exact h.leaveWait hw w.after_where?
  | take m hm =>
    have hother : Placed ((.free : Phase F G Q M S).view f s) s.queues :=
      h.other rfl rfl (.inr rfl) fun _ _ hg ↦ hg
    exact ⟨hother.nodup, hother.waiter, hother.woken, hother.entering⟩
  | unlock m hm =>
    let unlocked : Sched F G Q M S := { s with
      locked_ := update s.locked_ m false,
      held := update s.held f ((s.held f).erase m) }
    have hother : Placed ((.free : Phase F G Q M S).view f unlocked) unlocked.queues :=
      ⟨h.nodup, h.waiter, h.woken, h.entering⟩
    exact hother.notifyOne _
  | notifyOne q => exact h.notifyOne q

end

/-! ## Invariants about queues -/

/-- An invariant about queues is kept by the scheduler if it does not mind that more fibers are
woken. -/
theorem Kept.of_queues {strict : Prop} {P : View F G Q M S → Queues F G Q M → Prop}
    (hchange : ∀ {f x x' s s'}, Change strict f (x, s) (x', s') → P (x.view f s) s.queues →
      P (x'.view f s') s'.queues)
    (hview : ∀ {v v' σ}, P v σ → (∀ m, v.phase ≠ .locking m) → (∀ w, v'.phase ≠ .entering w) →
      v'.place = v.place → (∀ g, v.queue? g ≠ none → v.up g → v'.up g) → P v' σ) :
    Kept strict fun v s ↦ P v (Sched.queues (S := S) s) where
  change h hinv := hchange h hinv
  frame _ _ _ _ hinv := hinv
  park {f w v s} _ hphase _ _ hinv := by
    refine hview hinv ?_ (fun w hw ↦ nomatch hw) rfl fun g _ hg ↦ ?_
    · simp [hphase]
    · refine .inl (hg.resolve_right fun hleft ↦ ?_)
      rw [hphase] at hleft
      obtain ⟨-, w', hw | hw⟩ := hleft <;> cases hw
  resume {f w v s rest} hrunning hphase _ hqueue hinv := by
    refine hview hinv ?_ (fun w hw ↦ nomatch hw) rfl fun g _ hg ↦ ?_
    · simp [hphase]
    · have hmem := hg.resolve_right fun hleft ↦ nomatch hrunning ▸ hleft.1
      rw [hqueue] at hmem
      rcases List.mem_cons.mp hmem with rfl | hmem
      · exact .inr ⟨rfl, w, .inl rfl⟩
      · exact .inl hmem
  start {f v s rest} hrunning hphase hplace hqueue hinv := by
    refine hview hinv ?_ ?_ rfl fun g hg hup ↦ ?_
    · simp [hphase]
    · simp [hphase]
    · have hmem := hup.resolve_right fun hleft ↦ nomatch hrunning ▸ hleft.1
      rw [hqueue] at hmem
      refine .inl ((List.mem_cons.mp hmem).resolve_left fun hgf ↦ hg ?_)
      rw [View.queue?, hgf, hplace]
      rfl
  endScope {f s} _ _ hinv := by
    unfold Cactus.endScope
    split <;> exact hinv
  finish {f error s} hloop hparked hscopes hinv := by
    obtain ⟨e, r, heq, hsub, -⟩ := finish_eq f s error
    rw [heq]
    exact hview hinv (fun m hm ↦ nomatch hm) (fun w hw ↦ nomatch hw) rfl fun g _ hg ↦
      .inl (hsub g (up_view.mp hg))
  event _ hinv :=
    hview hinv (fun m hm ↦ nomatch hm) (fun w hw ↦ nomatch hw) rfl fun g _ hg ↦
      .inl (mem_enqueue?.mpr (.inl (up_view.mp hg)))
  expire {t s} _ ht hinv := by
    obtain ⟨b, o, r, heq, hsub, -⟩ := onExpired_eq s t
    rw [heq]
    exact hview hinv (fun m hm ↦ nomatch hm) (fun w hw ↦ nomatch hw) rfl fun g _ hg ↦
      .inl (hsub g (up_view.mp hg))

/-- More fibers may be woken. -/
theorem Placed.of_view {v v' : View F G Q M S} {σ : Queues F G Q M} (h : Placed v σ)
    (hphase : ∀ w, v'.phase ≠ .entering w) (hplace : v'.place = v.place)
    (hup : ∀ g, v.queue? g ≠ none → v.up g → v'.up g) : Placed v' σ := by
  have hqueue (g : F) : v'.queue? g = v.queue? g := by rw [View.queue?, hplace]; rfl
  refine ⟨h.nodup, fun hg ↦ ⟨(hqueue _).trans (h.waiter hg).1, (h.waiter hg).2⟩, fun hn ↦ ?_,
    fun _ hw ↦ absurd hw (hphase _)⟩
  obtain ⟨hold, hat⟩ := h.woken hn
  exact ⟨hup _ hat hold, (hqueue _).symm ▸ hat⟩

theorem placed_init (main : F) :
    Placed (init main : Sched F G Q M S).view (init main : Sched F G Q M S).queues :=
  ⟨fun _ ↦ List.nodup_nil, fun h ↦ absurd h List.not_mem_nil, (fun h ↦ nomatch h),
    (fun h ↦ nomatch h)⟩

end Cactus
end ManyTasks
