import ManyTasks.Cactus.Join

/-!
# Waiting for a group

`WaitGroup::Wait` parks once, as the destructors do, but its fiber is not guarded: besides the end
of the last fiber of the group, and the first that fails, a cancellation and a timeout put it into
the run queue.  What it comes back to is one of these (`Sched.Due`): it throws what is pending,
throws the first error again, or all fibers that were spawned into the group have ended.

This needs that no fiber is spawned into the group after its last one has ended and woken the fiber
that waits, since `Wait` does not look again, and that no group is destroyed while a fiber waits for
it (`patiently`).  Once the destructor of a group has begun, errors are not recorded any more.

* `wait_group_waits`: `Wait` comes back only then, and is woken as soon as it may.
-/

set_option autoImplicit false

namespace ManyTasks
namespace Cactus

variable {F G Q M S : Type} [DecidableEq F] [DecidableEq G] [DecidableEq Q] [DecidableEq M]
  [DecidableEq S]

open Function (update)

/-! ## What `Wait` waits for -/

/-- `Wait` of the fiber may come back. -/
def Sched.Due (s : Sched F G Q M S) (k : G) (g : F) : Prop :=
  s.fibers_ k = [] ∨ s.first_error_ k = true ∨ pendingExc s g ≠ none

/-- The step does not spawn a fiber into an empty group for which a fiber waits, and does not
destroy a group for which one waits. -/
def patiently (s : Sched F G Q M S) : Action F G Q M S → Bool
  | .call (.spawn g _) => s.groupWaiter_ g = none ∨ s.fibers_ g ≠ []
  | .call (.destroyGroup g) => s.groupWaiter_ g = none
  | _ => true

/-- Whoever waits is `waiter_` of the group, and whoever was spawned into a group is in it or has
ended. -/
structure Grouped (v : View F G Q M S) (s : Sched F G Q M S) : Prop where
  sound : Sound v s
  waiter {g : F} {k : G} : v.place g = some (.waitGroup k) → s.groupWaiter_ k = some g
  members {c : F} {k : G} : s.group_ c = some k → c ∈ s.fibers_ k ∨ s.state_ c = some .Dead

section

variable {strict : Prop} {f : F} {x x' : Phase F G Q M S} {s s' : Sched F G Q M S}

/-- What a change does to `waiter_` of the groups. -/
inductive WaiterChange (f : F) (x x' : Phase F G Q M S) (p p' : G → Option F) : Prop where
  | stay (hp : p' = p) (hx : ∀ k, x'.where? = some (.waitGroup k) → x.where? = some (.waitGroup k))
  | enter (k : G) (hnone : p k = none) (hp : p' = update p k (some f))
      (hx' : x' = .entering (.waitGroup k))
  | leave (k : G) (hx : x.where? = some (.waitGroup k)) (hp : p' = update p k none)
      (hx' : x' = .free)

theorem Change.waiterChange (h : Change strict f (x, s) (x', s')) :
    WaiterChange f x x' s.groupWaiter_ s'.groupWaiter_ := by
  have hother (hp : s'.ties.groupWaiter_ = s.ties.groupWaiter_)
      (hx' : ∀ k, x'.where? ≠ some (.waitGroup k)) :
      WaiterChange f x x' s.groupWaiter_ s'.groupWaiter_ := .stay hp fun k hk ↦ absurd hk (hx' k)
  cases h with
  | waitGroup k hk => exact .enter k hk rfl rfl
  | raise w e hx he =>
    refine .stay (congrArg Ties.groupWaiter_ (ties_raise f e s)) fun k hk ↦ ?_
    rcases hx with rfl | rfl
    · exact hk
    · exact hk
  | cleanup w hx hw hs =>
    cases w with
    | waitGroup k =>
      refine .leave k ?_ rfl rfl
      rcases hx with rfl | rfl
      · rfl
      · rfl
    | _ => exact hother rfl (by simp [Phase.where?])
  | pass w q hw =>
    exact hother (congrArg Ties.groupWaiter_ (ties_passWakeup f q s)) (by simp [Phase.where?])
  | link w q hx hw hq =>
    refine hother rfl fun k hk ↦ ?_
    obtain rfl := Option.some.inj hk
    cases hw
  | leaveWait w q hw =>
    refine hother (congrArg Ties.groupWaiter_ (ties_leaveWait f q s)) fun k hk ↦ ?_
    rw [w.after_where?] at hk
    cases hk
  | notifyOne q =>
    exact hother (congrArg Ties.groupWaiter_ (ties_notifyOne _ s)) (by simp [Phase.where?])
  | unlock m hm =>
    exact hother (congrArg Ties.groupWaiter_ (ties_notifyOne _ _)) (by simp [Phase.where?])
  | yield => exact hother (by rw [unpark_eq]; rfl) (by simp [Phase.where?])
  | fdReset slot => exact hother (by rw [unpark?_eq]; rfl) (by simp [Phase.where?])
  | fiber c hc => exact hother (by rw [newFiber, unpark_eq]; rfl) (by simp [Phase.where?])
  | spawn g c hc hg hstrict =>
    exact hother (by rw [Cactus.spawn, newFiber, unpark_eq]; rfl) (by simp [Phase.where?])
  | cancelFiber c hc => exact hother (by rw [cancel_eq]; rfl) (by simp [Phase.where?])
  | cancelMember g c hc hf => exact hother (by rw [cancel_eq]; rfl) (by simp [Phase.where?])
  | _ => exact hother rfl (by simp [Phase.where?])

/-- Whoever waits stays `waiter_`. -/
theorem WaiterChange.waiter {p p' : G → Option F} (h : WaiterChange f x x' p p')
    (hparked : s'.parked = s.parked)
    (hwaiter : ∀ {g k}, (x.view f s).place g = some (.waitGroup k) → p k = some g) {g : F} {k : G}
    (hg : (x'.view f s').place g = some (.waitGroup k)) : p' k = some g := by
  by_cases hgf : g = f
  · subst hgf
    rw [place_self] at hg
    cases h with
    | stay hp hx => exact hp ▸ hwaiter (place_self.trans (hx k hg))
    | enter k' hnone hp hx' =>
      obtain rfl :=
        Where.waitGroup.inj (Option.some.inj ((hx' ▸ hg : (Phase.entering _).where? = _)))
      rw [hp, Function.update_self]
    | leave k' hx hp hx' => simp [hx', Phase.where?] at hg
  · rw [place_of_ne (x := x) (s := s) hgf hparked] at hg
    have hold := hwaiter hg
    cases h with
    | stay hp hx => exact hp ▸ hold
    | enter k' hnone hp hx' =>
      have hk : k ≠ k' := by
        rintro rfl
        simp [hnone] at hold
      rw [hp, Function.update_of_ne hk, hold]
    | leave k' hx hp hx' =>
      have hk : k ≠ k' := by
        rintro rfl
        exact hgf (Option.some.inj (hold.symm.trans (hwaiter (place_self.trans hx))))
      rw [hp, Function.update_of_ne hk, hold]

/-- Whoever is in a group stays there. -/
theorem TieChange.members {τ : Ties F G S} (h : TieChange strict f (x, s) (x', τ))
    (halive : Alive (x.view f s) s.ties)
    (hmembers : ∀ {c k}, s.group_ c = some k → c ∈ s.fibers_ k ∨ s.state_ c = some .Dead)
    {c : F} {k : G}
    (hc : τ.group_ c = some k) : c ∈ τ.fibers_ k ∨ τ.state_ c = some .Dead := by
  have hborn (hold : s.group_ c = some k) : s.state_ c ≠ none := by
    rcases hmembers hold with hmem | hdead
    · exact (halive.member hmem).1.1
    · simp [hdead]
  have hsame (hold : s.group_ c = some k) (hfibers : ∀ c, c ∈ s.fibers_ k → c ∈ τ.fibers_ k) :
      c ∈ τ.fibers_ k ∨ τ.state_ c = some .Dead := by
    rw [h.state_eq (hborn hold)]
    exact (hmembers hold).imp (hfibers c) id
  cases h with
  | cleanup w hx hs =>
    cases w with
    | _ => exact hsame hc fun _ hmem ↦ hmem
  | spawn k' c' hc' hstrict =>
    by_cases hcc : c = c'
    · subst hcc
      change update s.group_ c (some k') c = some k at hc
      rw [Function.update_self] at hc
      obtain rfl := Option.some.inj hc
      left
      show c ∈ update s.fibers_ k' (s.fibers_ k' ++ [c]) k'
      simp
    · refine hsame ((Function.update_of_ne hcc ..).symm.trans hc) fun d hd ↦ ?_
      show d ∈ update s.fibers_ k' (s.fibers_ k' ++ [c']) k
      by_cases hk : k = k'
      · subst hk
        rw [Function.update_self]
        exact List.mem_append_left _ hd
      · rwa [Function.update_of_ne hk]
  | _ => exact hsame hc fun _ hmem ↦ hmem

/-- **Every step** of a run of `careful` calls keeps it. -/
theorem kept_grouped : Kept True (Grouped (F := F) (G := G) (Q := Q) (M := M) (S := S)) where
  change h hinv := by
    have hsound := kept_sound.change h hinv.sound
    exact ⟨hsound, h.waiterChange.waiter h.parked_loop.1 hinv.waiter,
      h.tieChange.members hinv.sound.alive hinv.members⟩
  frame l t r p hinv := ⟨kept_sound.frame l t r p hinv.sound, hinv.waiter, hinv.members⟩
  park hrunning hphase hplace hnone hinv :=
    ⟨kept_sound.park hrunning hphase hplace hnone hinv.sound, hinv.waiter, hinv.members⟩
  resume hrunning hphase hplace hqueue hinv :=
    ⟨kept_sound.resume hrunning hphase hplace hqueue hinv.sound, hinv.waiter, hinv.members⟩
  start {f v s rest} hrunning hphase hplace hqueue hinv := by
    refine ⟨kept_sound.start hrunning hphase hplace hqueue hinv.sound, hinv.waiter,
      fun {c k} hc ↦ ?_⟩
    have hlive : Live s.ties f := hinv.sound.alive.queue (hqueue ▸ List.mem_cons_self)
    refine (hinv.members hc).imp id fun hdead ↦ ?_
    have hcf : c ≠ f := by
      rintro rfl
      exact hlive.2 hdead
    exact (Function.update_of_ne hcf ..).trans hdead
  endScope {f s} hloop hparked hinv := by
    have hsound := kept_sound.endScope hloop hparked hinv.sound
    rw [endScope_view] at hsound ⊢
    obtain ⟨saved, l, o, ts, heq, -⟩ := endScope_eq f s
    rw [heq] at hsound ⊢
    exact ⟨hsound, hinv.waiter, hinv.members⟩
  finish {f error s} hloop hparked hscopes hinv := by
    have hsound : Sound (finish f error s).view (finish f error s) :=
      kept_sound.finish hloop hparked hscopes hinv.sound
    obtain ⟨e, r, heq, -⟩ := finish_eq f s error
    rw [heq] at hsound ⊢
    refine ⟨hsound, hinv.waiter, fun {c k} hc ↦ ?_⟩
    show c ∈ fibersWithout f s k ∨ update s.state_ f (some .Dead) c = some .Dead
    by_cases hcf : c = f
    · rw [hcf, Function.update_self]
      exact .inr rfl
    · rw [Function.update_of_ne hcf]
      refine (hinv.members hc).imp (fun hmem ↦ ?_) id
      exact (mem_fibersWithout hinv.sound.alive).mpr ⟨hmem, hcf⟩
  event {slot s} hrunning hinv := ⟨kept_sound.event hrunning hinv.sound, hinv.waiter, hinv.members⟩
  expire {t s} hrunning ht hinv := by
    have hsound := kept_sound.expire hrunning ht hinv.sound
    obtain ⟨b, o, r, heq, -⟩ := onExpired_eq s t
    rw [heq] at hsound ⊢
    exact ⟨hsound, hinv.waiter, hinv.members⟩

end

/-! ## What a call does to those who wait -/

section

variable {strict : Prop} {f g : F} {x x' : Phase F G Q M S} {s s' : Sched F G Q M S} {k : G}

/-- The fiber may be woken by a notification or an event, or is not born yet. -/
def Sched.Called (s : Sched F G Q M S) (g : F) : Prop :=
  (∃ q, g ∈ s.waiters_ q) ∨ (∃ slot, s.slot_ slot = some g) ∨ s.state_ g = none

/-- What is pending for the other fibers stays, and none is woken but those that are called. -/
def Sched.SparesOthers (f : F) (s s' : Sched F G Q M S) : Prop :=
  ∀ g, g ≠ f → Cactus.flags s' g = Cactus.flags s g ∧
    (g ∈ s'.run_queue_ → g ∈ s.run_queue_ ∨ s.Called g)

/-- A change cancels a fiber, or it spares the others. -/
theorem Change.cancels (h : Change strict f (x, s) (x', s')) :
    (∃ c, s' = cancel c s) ∨ s.SparesOthers f s' := by
  have hsame (hflags : ∀ g, g ≠ f → Cactus.flags s' g = Cactus.flags s g)
      (hqueue : s'.run_queue_ = s.run_queue_) : (∃ c, s' = cancel c s) ∨ s.SparesOthers f s' :=
    .inr fun g hg ↦ ⟨hflags g hg, fun hmem ↦ .inl (hqueue ▸ hmem)⟩
  have hwoken (c : F) (hc : c = f ∨ s.Called c) (hflags : Cactus.flags s' = Cactus.flags s)
      (hqueue : s'.run_queue_ = enqueue c s.run_queue_) :
      (∃ c, s' = cancel c s) ∨ s.SparesOthers f s' := by
    refine .inr fun g hg ↦ ⟨congrFun hflags g, fun hmem ↦ ?_⟩
    rw [hqueue] at hmem
    refine (mem_enqueue.mp hmem).imp id fun hgc ↦ ?_
    subst hgc
    exact hc.resolve_left hg
  cases h with
  | cancelFiber c hc => exact .inl ⟨c, rfl⟩
  | cancelMember k c hc hf => exact .inl ⟨c, rfl⟩
  | yield => exact hwoken f (.inl rfl) (by rw [unpark_eq]; rfl) (by rw [unpark_eq])
  | raise w e hx he =>
    refine .inr fun g hg ↦ ⟨?_, fun hmem ↦ .inl ?_⟩
    · cases e with
      | canceled => rfl
      | timeout => simp [Cactus.raise, Cactus.flags, Function.update_of_ne hg]
    · cases e with
      | canceled | timeout => exact List.mem_of_mem_erase hmem
  | pass w q hw =>
    have hflags : Cactus.flags (passWakeup f q s) = Cactus.flags s := by
      unfold passWakeup
      split
      · exact flags_notify q _ s
      · rfl
    rcases queues_passWakeup s f q with ⟨-, heq, -⟩ | ⟨n, -, -, heq, -⟩ | ⟨n, c, ws, -, hq, heq, -⟩
    · exact hsame (fun g _ ↦ congrFun hflags g) heq
    · exact hsame (fun g _ ↦ congrFun hflags g) heq
    · exact hwoken c (.inr (.inl ⟨q, by simp [hq]⟩)) hflags heq
  | cleanup w hx hw hs =>
    cases w with
    | _ => exact hsame (fun _ _ ↦ rfl) rfl
  | leaveWait w q hw =>
    refine hsame (fun _ _ ↦ ?_) (queues_leaveWait s f q).1
    unfold Cactus.leaveWait
    split <;> rfl
  | unlock m hm =>
    rcases queues_notifyOne { s with
      locked_ := update s.locked_ m false,
      held := update s.held f ((s.held f).erase m) } (.lockers m)
      with ⟨-, heq⟩ | ⟨c, ws, hq, heq, -⟩
    · exact hsame (fun g _ ↦ by rw [Cactus.unlock, heq]; rfl) (by rw [Cactus.unlock, heq])
    · refine hwoken c (.inr (.inl ⟨.lockers m, ?_⟩)) (flags_notifyOne _ _) heq
      rw [show s.waiters_ (.lockers m) = c :: ws from hq]
      exact List.mem_cons_self
  | notifyOne q =>
    rcases queues_notifyOne s q with ⟨-, heq⟩ | ⟨c, ws, hq, heq, -⟩
    · exact hsame (fun g _ ↦ by rw [heq]) (by rw [heq])
    · exact hwoken c (.inr (.inl ⟨_, by rw [hq]; exact List.mem_cons_self⟩))
        (flags_notifyOne _ _) heq
  | fdReset slot =>
    rcases Option.eq_none_or_eq_some (s.slot_ slot) with hslot | ⟨c, hslot⟩
    · exact hsame (fun _ _ ↦ by rw [hslot]; rfl) (by rw [hslot]; rfl)
    · refine hwoken c (.inr (.inr (.inl ⟨slot, hslot⟩))) ?_ ?_
      · rw [hslot, unpark?_eq]
        rfl
      · rw [hslot, unpark?_eq]
        rfl
  | fiber c hc =>
    exact hwoken c (.inr (.inr (.inr hc))) (by rw [newFiber, unpark_eq]; rfl)
      (by rw [newFiber, unpark_eq])
  | spawn k c hc hk hstrict =>
    exact hwoken c (.inr (.inr (.inr hc))) (by rw [Cactus.spawn, newFiber, unpark_eq]; rfl)
      (by rw [Cactus.spawn, newFiber, unpark_eq])
  | join c hc | group k hk hf | joined c saved | groupJoined k saved | cancelGuard =>
    exact hsame (fun g hg ↦ by
      simp [Cactus.flags, proceed, restore, Cactus.cleanup, call, Function.update_of_ne hg]) rfl
  | _ => exact hsame (fun _ _ ↦ rfl) rfl

theorem first_error_notify (q : Waiters Q M) (n : ℕ) (s : Sched F G Q M S) :
    (notify q n s).first_error_ = s.first_error_ := by
  unfold notify
  split
  · rfl
  · rw [unpark_eq]

theorem first_error_notifyOne (q : Waiters Q M) (s : Sched F G Q M S) :
    (notifyOne q s).first_error_ = s.first_error_ := by
  unfold notifyOne
  split
  · rfl
  · exact first_error_notify q _ _

/-- Nobody is taken out of a group, and no error is recorded. -/
theorem Change.groups (h : Change strict f (x, s) (x', s')) :
    s'.first_error_ = s.first_error_ ∧ ∀ k, s.fibers_ k <+: s'.fibers_ k := by
  have hfibers (k : G) : s.fibers_ k <+: s'.fibers_ k := by
    have htie := h.tieChange
    show s.fibers_ k <+: s'.ties.fibers_ k
    generalize s'.ties = τ at htie
    cases htie with
    | cleanup w hx hs =>
      cases w with
      | _ => exact List.prefix_refl _
    | spawn k' c hc hstrict =>
      show s.fibers_ k <+: update s.fibers_ k' (s.fibers_ k' ++ [c]) k
      by_cases hk : k = k'
      · subst hk
        rw [Function.update_self]
        exact List.prefix_append _ _
      · rw [Function.update_of_ne hk]
    | _ => exact List.prefix_refl _
  refine ⟨?_, hfibers⟩
  cases h with
  | yield => rw [unpark_eq]
  | raise w e hx he =>
    cases e with
    | _ => rfl
  | pass w q hw =>
    unfold passWakeup
    split
    · exact first_error_notify q _ s
    · rfl
  | cleanup w hx hw hs =>
    cases w with
    | _ => rfl
  | leaveWait w q hw =>
    unfold Cactus.leaveWait
    split <;> rfl
  | unlock m hm => exact first_error_notifyOne _ _
  | notifyOne q => exact first_error_notifyOne _ s
  | fdReset slot => rw [unpark?_eq]
  | fiber c hc => rw [newFiber, unpark_eq]
  | spawn k c hc hk hstrict => rw [Cactus.spawn, newFiber, unpark_eq]
  | cancelFiber c hc | cancelMember k c hc hf => rw [cancel_eq]
  | _ => rfl

/-- The fibers of the groups, who waits for them, and how far their lives have come. -/
def Sched.membership (s : Sched F G Q M S) : (G → List F) × (G → Option F) × (G → Life) :=
  (s.fibers_, s.groupWaiter_, s.life)

/-- The call is not `WaitGroup::Wait`. -/
def Where.Elsewhere (w : Where F G Q M S) : Prop := ∀ k, w ≠ .waitGroup k

omit [DecidableEq F] [DecidableEq G] [DecidableEq Q] [DecidableEq M] [DecidableEq S] in
theorem membership_of_ties (h : s'.ties = s.ties) : s'.membership = s.membership :=
  congrArg (fun τ : Ties F G S ↦ (τ.fibers_, τ.groupWaiter_, τ.life)) h

omit [DecidableEq Q] [DecidableEq M] in
theorem membership_cleanup {w : Where F G Q M S} (hw : w.Elsewhere) :
    (cleanup s w).membership = s.membership := by
  cases w with
  | waitGroup k => exact absurd rfl (hw k)
  | _ => rfl

theorem membership_throwExc {w : Where F G Q M S} (hw : w.Elsewhere) (e : Exc) :
    (throwExc f w e s).membership = s.membership := by
  have hraise : (cleanup (raise f e s) w).membership = s.membership :=
    (membership_cleanup hw).trans (membership_of_ties (ties_raise f e s))
  refine Eq.trans ?_ hraise
  unfold throwExc unwind
  split
  · exact membership_of_ties (ties_passWakeup f _ _)
  · exact membership_of_ties (ties_passWakeup f _ _)
  · exact membership_of_ties (ties_passWakeup f _ _)
  · exact membership_of_ties ((ties_notifyOne _ _).trans (ties_passWakeup f _ _))
  · rfl
  · rfl

theorem membership_park {w : Where F G Q M S} (hw : w.Elsewhere) :
    (park f w s).membership = s.membership := by
  unfold park
  split
  · exact membership_throwExc hw _
  · rfl

theorem membership_lock {w : Where F G Q M S} (hw : w.Elsewhere) (m : M) :
    (lock f w m s).membership = s.membership := by
  unfold lock
  split
  · exact membership_park hw
  · rfl

theorem membership_cancelAll (l : List F) (s : Sched F G Q M S) :
    (cancelAll l s).membership = s.membership := by
  induction l generalizing s with
  | nil => rfl
  | cons c l ih =>
    refine (ih (cancel c s)).trans ?_
    rw [cancel_eq]
    rfl

theorem membership_notifyAll (q : Waiters Q M) : (notifyAll q s).membership = s.membership := by
  unfold notifyAll
  generalize s.waiters_ q = l
  induction l generalizing s with
  | nil => rfl
  | cons c l ih => exact (ih (s := notifyOne q s)).trans (membership_of_ties (ties_notifyOne q s))

theorem membership_call {op : Op F G Q M S} (hspawn : ∀ k c, op ≠ .spawn k c)
    (hwait : ∀ k, op ≠ .waitGroup k) (hdestroy : ∀ k, op ≠ .destroyGroup k)
    (hfinish : ∀ error, op ≠ .finish error) : (call f s op).membership = s.membership := by
  cases op with
  | spawn k c => exact absurd rfl (hspawn k c)
  | waitGroup k => exact absurd rfl (hwait k)
  | destroyGroup k => exact absurd rfl (hdestroy k)
  | finish error => exact absurd rfl (hfinish error)
  | yield =>
    refine (membership_park (by simp [Where.Elsewhere])).trans ?_
    rw [unpark_eq]
    rfl
  | sleepUntil deadline => exact membership_park (by simp [Where.Elsewhere])
  | timeoutGuard duration => rfl
  | cancelGuard => rfl
  | endScope =>
    show (endScope f s).membership = s.membership
    unfold endScope
    split <;> rfl
  | fiber c =>
    show (newFiber c _).membership = s.membership
    rw [newFiber, unpark_eq]
    rfl
  | destroyFiber c =>
    show (destroyFiber f c s).membership = s.membership
    unfold destroyFiber
    split
    · rfl
    · refine (membership_park (by simp [Where.Elsewhere])).trans ?_
      rw [cancel_eq]
      rfl
  | wait q => exact membership_park (by simp [Where.Elsewhere])
  | notifyOne q => exact membership_of_ties (ties_notifyOne _ s)
  | notifyAll q => exact membership_notifyAll _
  | lock m => exact membership_lock (by simp [Where.Elsewhere]) m
  | unlock m => exact membership_of_ties (ties_notifyOne _ _)
  | condWait cv m =>
    exact (membership_park (by simp [Where.Elsewhere])).trans
      (membership_of_ties (ties_notifyOne _ _))
  | fdWait slot => exact membership_park (by simp [Where.Elsewhere])
  | fdReset slot =>
    show (unpark? _ _).membership = s.membership
    rw [unpark?_eq]
    rfl

/-- The destructor of a group changes nothing but how far the life of this group has come. -/
theorem membership_destroyGroup (f : F) (s : Sched F G Q M S) (k : G) :
    ∃ l, (destroyGroup f k s).membership = (s.fibers_, s.groupWaiter_, update s.life k l) := by
  unfold destroyGroup
  split
  · exact ⟨.gone, rfl⟩
  · exact ⟨.closing, (membership_park (by simp [Where.Elsewhere])).trans (membership_cancelAll _ _)⟩

/-- `Wait` touches `waiter_` of its group at most. -/
theorem membership_waitGroup (f : F) (s : Sched F G Q M S) (k : G) :
    ∃ p, (waitGroup f k s).membership = (s.fibers_, p, s.life) ∧
      ∀ k' ≠ k, p k' = s.groupWaiter_ k' := by
  unfold waitGroup park
  split
  · exact ⟨_, rfl, fun _ _ ↦ rfl⟩
  · split
    · rename_i e he
      refine ⟨update (update s.groupWaiter_ k (some f)) k none, ?_, fun k' hk' ↦ ?_⟩
      · cases e with
        | _ => rfl
      · rw [Function.update_of_ne hk', Function.update_of_ne hk']
    · exact ⟨_, rfl, fun k' hk' ↦ Function.update_of_ne hk' ..⟩

/-- Who comes back to the destructor of a group ends the life of this group. -/
theorem membership_unparked (w : Where F G Q M S) :
    ∃ l, (unparked f w s).membership = ((cleanup s w).fibers_, (cleanup s w).groupWaiter_, l) ∧
      ∀ k, (∀ saved, w ≠ .group k saved) → l k = s.life k := by
  have hkeep {s' : Sched F G Q M S} (h : s'.membership = (cleanup s w).membership) :
      ∃ l, s'.membership = ((cleanup s w).fibers_, (cleanup s w).groupWaiter_, l) ∧
        ∀ k, (∀ saved, w ≠ .group k saved) → l k = s.life k := by
    refine ⟨(cleanup s w).life, h, fun k _ ↦ ?_⟩
    cases w with
    | _ => rfl
  have hlock {w : Where F G Q M S} (hw : w.Elsewhere) (m : M) (q : Waiters Q M) :
      (lock f w m (leaveWait f q s)).membership = s.membership :=
    (membership_lock hw m).trans (membership_of_ties (ties_leaveWait f q s))
  unfold unparked
  split
  · refine hkeep ?_
    cases w with
    | waitGroup k =>
      rename_i e he
      cases e with
      | _ => rfl
    | _ => exact membership_throwExc (by simp [Where.Elsewhere]) _
  · cases w with
    | wait q => exact hkeep (membership_of_ties (ties_leaveWait f _ s))
    | lock m => exact hkeep (hlock (by simp [Where.Elsewhere]) m _)
    | condWait cv m => exact hkeep (hlock (by simp [Where.Elsewhere]) m _)
    | relock cv m => exact hkeep (hlock (by simp [Where.Elsewhere]) m _)
    | group k saved =>
      refine ⟨update s.life k .gone, rfl, fun k' hk' ↦ Function.update_of_ne ?_ ..⟩
      rintro rfl
      exact hk' saved rfl
    | _ => exact hkeep rfl

/-- Whoever is woken by a cancellation is canceled. -/
theorem due_cancel {c : F} (hdue : g ∈ s.run_queue_ → s.Due k g)
    (hmem : g ∈ (cancel c s).run_queue_) :
    (cancel c s).Due k g := by
  rw [cancel_eq] at hmem ⊢
  by_cases hgc : g = c
  · subst hgc
    by_cases hguarded : s.cancel_guarded_ g = true
    · simp only [if_pos hguarded] at hmem
      refine (hdue hmem).imp id fun hrest ↦ hrest.imp id fun hpending ↦ ?_
      exact absurd (by rw [pendingExc, if_pos hguarded]) hpending
    · exact .inr (.inr (by simp [pendingExc, hguarded]))
  · have hold : g ∈ s.run_queue_ := by
      dsimp only at hmem
      split at hmem
      · exact hmem
      · exact (mem_enqueue.mp hmem).resolve_right hgc
    refine (hdue hold).imp id fun hrest ↦ hrest.imp id fun hpending ↦ ?_
    rwa [pendingExc_congr (s := s)]
    simp [flags, Function.update_of_ne hgc]

/-- The fiber that waits for the group is in the run queue exactly when it may come back; that it is
there when an exception is pending, holds of every call that parks. -/
structure Sched.Attends (s : Sched F G Q M S) (k : G) (g : F) : Prop where
  only : g ∈ s.run_queue_ → s.Due k g
  woken : s.fibers_ k = [] ∨ s.first_error_ k = true → g ∈ s.run_queue_

/-- **One change** leaves a fiber that waits for a group where it is, and wakes it only if an
exception is pending. -/
theorem Change.attends (h : Change strict f (x, s) (x', s')) (hsound : Sound (x.view f s) s)
    (hgf : g ≠ f) (hg : s.parked g = some (.waitGroup k))
    (hfibers : s.fibers_ k = [] → s'.fibers_ k = [])
    (hattends : s.Attends k g) : s'.Attends k g := by
  have hplace : (x.view f s).place g = some (.waitGroup k) :=
    (Function.update_of_ne hgf ..).trans hg
  obtain ⟨herror, hgroups⟩ := h.groups
  refine ⟨fun hmem ↦ ?_, fun hdue ↦ h.mem_run_queue hgf
    (hattends.woken (hdue.imp (fun hnil ↦ ?_) fun he ↦ ?_))⟩
  · rcases h.cancels with ⟨c, rfl⟩ | hother
    · exact due_cancel hattends.only hmem
    · obtain ⟨hflags, hqueue⟩ := hother g hgf
      unfold Sched.Due
      rw [herror, pendingExc_congr hflags]
      refine (hattends.only ((hqueue hmem).resolve_right ?_)).imp hfibers id
      rintro (⟨q, hq⟩ | ⟨slot, hslot⟩ | hnone)
      · have hat := (hsound.placed.waiter hq).1
        rw [View.queue?, hplace] at hat
        cases hat
      · have hat := hsound.tied.slot hslot
        rw [hplace] at hat
        cases hat
      · refine (hsound.alive.place (g := g) ?_).1 hnone
        rw [hplace]
        simp
  · exact List.prefix_nil.mp (hnil ▸ hgroups k)
  · rwa [← herror]

/-- **Changes** one after the other do so, if there is no fiber in the group in between but at the
end. -/
theorem Changes.attends {r r' : Phase F G Q M S × Sched F G Q M S} (h : Changes True f r r')
    (hsound : Sound (r.1.view f r.2) r.2) (hgf : g ≠ f) (hg : r.2.parked g = some (.waitGroup k))
    (hfibers : r.2.fibers_ k = [] → r'.2.fibers_ k = []) (hattends : r.2.Attends k g) :
    r'.2.Attends k g := by
  suffices hall : r.2.fibers_ k <+: r'.2.fibers_ k ∧
      ((r.2.fibers_ k = [] → r'.2.fibers_ k = []) → r'.2.Attends k g) from hall.2 hfibers
  clear hfibers
  induction h with
  | refl => exact ⟨List.prefix_refl _, fun _ ↦ hattends⟩
  | tail hinit hlast ih =>
    obtain ⟨hinitial, hbefore⟩ := ih
    obtain ⟨hsound', hparked, -⟩ := kept_sound.changes hinit hsound
    have hgrow := hlast.groups.2 k
    refine ⟨hinitial.trans hgrow, fun hfibers ↦ ?_⟩
    have hthere := (congrFun hparked g).trans hg
    refine hlast.attends hsound' hgf hthere (fun hnil ↦ hfibers ?_) (hbefore fun hnil ↦ ?_)
    · exact List.prefix_nil.mp (hnil ▸ hinitial)
    · exact List.prefix_nil.mp (hfibers hnil ▸ hgrow)

/-- What a fiber does in one go does so. -/
theorem Ran.attends {r : Phase F G Q M S × Sched F G Q M S} (h : Ran True f r s')
    (hsound : Sound (r.1.view f r.2) r.2) (hgf : g ≠ f) (hg : r.2.parked g = some (.waitGroup k))
    (hfibers : r.2.fibers_ k = [] → s'.fibers_ k = []) (hattends : r.2.Attends k g) :
    s'.Attends k g := by
  cases h with
  | returns h => exact h.attends hsound hgf hg hfibers hattends
  | parks h hnone =>
    have hthere := h.attends hsound hgf hg hfibers hattends
    exact ⟨hthere.only, hthere.woken⟩

end

/-! ## The end of a fiber -/

section

variable {f g : F} {s : Sched F G Q M S} {k : G}

/-- The run queue after the first error. -/
def errorQueue (s : Sched F G Q M S) (k : G) (error : Bool) : List F :=
  if error && !s.first_error_ k then enqueue? (s.groupWaiter_ k) s.run_queue_ else s.run_queue_

theorem life_die : (die f s).life k = s.life k := by rw [die_eq]

theorem onError_eq_update (error : Bool) :
    onError k error s = { s with
      first_error_ := update s.first_error_ k (s.first_error_ k || error),
      run_queue_ := errorQueue s k error } := by
  unfold onError errorQueue
  split
  · rename_i hnew
    obtain ⟨rfl, hfirst⟩ : error = true ∧ s.first_error_ k = false := by simpa using hnew
    rw [unpark?_eq, hfirst]
    rfl
  · rename_i hold
    have hsame : (s.first_error_ k || error) = s.first_error_ k := by
      cases error with
      | false => simp
      | true => simpa using hold
    rw [hsame, Function.update_eq_self]

/-- The end of a fiber of the group. -/
theorem callOnFinished_eq_update (error : Bool) (halive : s.life k = .alive) :
    ∃ r, callOnFinished k f error s =
        { s with
          fibers_ := update s.fibers_ k ((s.fibers_ k).erase f),
          first_error_ := update s.first_error_ k (s.first_error_ k || error), run_queue_ := r } ∧
      (g ∈ r ↔ g ∈ errorQueue s k error ∨
        (s.fibers_ k).erase f = [] ∧ (s.joiner_ k = some g ∨ s.groupWaiter_ k = some g)) := by
  rw [callOnFinished, if_pos halive, waitOnFinished, onError_eq_update, onFinished_eq]
  simp only [Function.update_self]
  by_cases hempty : (s.fibers_ k).erase f = []
  · rw [if_pos hempty, if_pos hempty, unpark?_eq]
    refine ⟨_, rfl, ?_⟩
    rw [mem_enqueue?, mem_enqueue?, or_assoc]
    simp [hempty]
  · rw [if_neg hempty, if_neg hempty]
    exact ⟨_, rfl, by simp [hempty]⟩

/-- The first error of a group is recorded when one of its fibers ends with an error, unless the
group is being destroyed. -/
theorem first_error_finish (error : Bool) :
    (finish f error s).first_error_ k = true ↔
      s.first_error_ k = true ∨ error = true ∧ s.group_ f = some k ∧ s.life k = .alive := by
  unfold finish
  split
  · rename_i k' hk'
    by_cases halive : s.life k' = .alive
    · obtain ⟨r, heq, -⟩ :=
        callOnFinished_eq_update (f := f) (g := f) (s := die f s) error (life_die.trans halive)
      rw [heq, die_eq, hk']
      show update s.first_error_ k' (s.first_error_ k' || error) k = true ↔ _
      by_cases hk : k = k'
      · subst hk
        simp [halive]
      · simp [Function.update_of_ne hk, Ne.symm hk]
    · rw [callOnFinished, if_neg fun h ↦ halive (life_die.symm.trans h), onFinished_eq, die_eq, hk']
      refine (or_iff_left ?_).symm
      rintro ⟨-, hk, hlife⟩
      obtain rfl := Option.some.inj hk
      exact halive hlife
  · rename_i hnone
    rw [hnone, die_eq]
    simp

/-- Who waits for the group is woken by the first error and by the end of the last fiber. -/
theorem mem_finish {error : Bool} (hk : s.group_ f = some k) (halive : s.life k = .alive)
    (hwaiter : s.waiter_ f ≠ some g) (hjoiner : s.joiner_ k ≠ some g)
    (hg : s.groupWaiter_ k = some g) :
    g ∈ (finish f error s).run_queue_ ↔
      g ∈ s.run_queue_ ∨ error = true ∧ s.first_error_ k = false ∨ fibersWithout f s k = [] := by
  have hdie : g ∈ enqueue? (s.waiter_ f) s.run_queue_ ↔ g ∈ s.run_queue_ :=
    mem_enqueue?.trans (or_iff_left hwaiter)
  have herror : g ∈ errorQueue (die f s) k error ↔
      g ∈ s.run_queue_ ∨ error = true ∧ s.first_error_ k = false := by
    rw [errorQueue, die_eq]
    dsimp only
    split
    · rename_i hnew
      have hfirst : error = true ∧ s.first_error_ k = false := by simpa using hnew
      simp [mem_enqueue?, hg, hfirst]
    · rename_i hold
      refine hdie.trans (or_iff_left fun hfirst ↦ hold ?_).symm
      simp [hfirst]
  obtain ⟨r, heq, hmem⟩ :=
    callOnFinished_eq_update (f := f) (g := g) (s := die f s) error (life_die.trans halive)
  unfold finish
  rw [hk, fibersWithout_self hk]
  show g ∈ (callOnFinished k f error (die f s)).run_queue_ ↔ _
  rw [heq]
  refine hmem.trans ?_
  rw [herror, or_assoc, die_eq]
  simp [hg, hjoiner]

/-- **The end of a fiber** wakes whoever waits for its group just if it may come back. -/
theorem attends_finish (error : Bool) (hgrouped : Grouped s.view s) (halive : s.life k = .alive)
    (hg : s.parked g = some (.waitGroup k)) (hattends : s.Attends k g) :
    (finish f error s).Attends k g := by
  have htied := hgrouped.sound.tied
  have hwaiter : s.waiter_ f ≠ some g := fun hw ↦ by
    obtain ⟨b, hat⟩ := htied.waiter hw
    simp [Sched.view, hg] at hat
  have hjoiner (h : G) : s.joiner_ h ≠ some g := fun hw ↦ by
    obtain ⟨b, hat⟩ := htied.joiner hw
    simp [Sched.view, hg] at hat
  have hgk : s.groupWaiter_ k = some g := hgrouped.waiter hg
  have hfirst := first_error_finish (f := f) (s := s) (k := k) error
  have hpending : pendingExc (finish f error s) g = pendingExc s g := by
    obtain ⟨e, r, heq, -⟩ := finish_eq f s error
    rw [heq]
    rfl
  have hfibers : (finish f error s).fibers_ = fibersWithout f s := by
    obtain ⟨e, r, heq, -⟩ := finish_eq f s error
    rw [heq]
  by_cases hk : s.group_ f = some k
  · have hmem : g ∈ (finish f error s).run_queue_ ↔ g ∈ s.run_queue_ ∨
        error = true ∧ s.first_error_ k = false ∨ fibersWithout f s k = [] :=
      mem_finish hk halive hwaiter (hjoiner k) hgk
    refine ⟨fun hin ↦ ?_, fun hdue ↦ hmem.mpr ?_⟩
    · unfold Sched.Due
      rw [hfibers, hpending, hfirst]
      rcases hmem.mp hin with hold | herror | hempty
      · refine (hattends.only hold).imp (fun hnil ↦ ?_) (Or.imp .inl id)
        rw [fibersWithout_self hk, hnil]
        rfl
      · exact .inr (.inl (.inr ⟨herror.1, hk, halive⟩))
      · exact .inl hempty
    · rw [hfibers, hfirst] at hdue
      rcases hdue with hempty | hold | herror
      · exact .inr (.inr hempty)
      · exact .inl (hattends.woken (.inr hold))
      · cases hs : s.first_error_ k with
        | true => exact .inl (hattends.woken (.inr hs))
        | false => exact .inr (.inl ⟨herror.1, rfl⟩)
  · have hsame : fibersWithout f s k = s.fibers_ k := fibersWithout_of_ne hk
    have herror : (finish f error s).first_error_ k = true ↔ s.first_error_ k = true :=
      hfirst.trans (or_iff_left fun h ↦ hk h.2.1)
    obtain ⟨e, r, heq, hsub, -, -, -, hwoken⟩ := finish_eq f s error
    have hmem : g ∈ (finish f error s).run_queue_ ↔ g ∈ s.run_queue_ := by
      rw [heq]
      refine ⟨fun hin ↦ (hwoken g hin).resolve_right ?_, hsub g⟩
      rintro (hw | ⟨h, hh, ⟨-, hw⟩ | hw⟩)
      · exact hwaiter hw
      · exact hjoiner h hw
      · have hat := htied.groupWaiter hw
        simp only [Sched.view, hg, Option.some.injEq, Where.waitGroup.injEq] at hat
        exact hk (hat ▸ hh)
    refine ⟨fun hin ↦ ?_, fun hdue ↦ ?_⟩
    · unfold Sched.Due
      rw [hfibers, hsame, hpending, herror]
      exact hattends.only (hmem.mp hin)
    · rw [hfibers, hsame, herror] at hdue
      exact hmem.mpr (hattends.woken hdue)

end

/-! ## Every step -/

section

variable {f g : F} {s s' : Sched F G Q M S} {k : G}

/-- A call other than `Wait` does not change who waits for a group, and only its destructor how far
its life has come. -/
theorem groupWaiter_call {op : Op F G Q M S} (hwait : op ≠ .waitGroup k) :
    (call f s op).groupWaiter_ k = s.groupWaiter_ k ∧
      (op ≠ .destroyGroup k → (call f s op).life k = s.life k) := by
  have hsame (h : (call f s op).membership = s.membership) :
      (call f s op).groupWaiter_ k = s.groupWaiter_ k ∧
        (op ≠ .destroyGroup k → (call f s op).life k = s.life k) :=
    ⟨congrFun (congrArg (·.2.1) h) k, fun _ ↦ congrFun (congrArg (·.2.2) h) k⟩
  cases op with
  | spawn k' c =>
    show (spawn k' c s).groupWaiter_ k = _ ∧ (_ → (spawn k' c s).life k = _)
    rw [spawn, newFiber, unpark_eq]
    exact ⟨rfl, fun _ ↦ rfl⟩
  | waitGroup k' =>
    obtain ⟨p, heq, hp⟩ := membership_waitGroup f s k'
    have hk : k ≠ k' := fun hk ↦ hwait (hk ▸ rfl)
    refine ⟨(congrFun (congrArg (·.2.1) heq) k).trans (hp k hk), fun _ ↦ ?_⟩
    exact congrFun (congrArg (·.2.2) heq) k
  | destroyGroup k' =>
    obtain ⟨l, heq⟩ := membership_destroyGroup f s k'
    refine ⟨congrFun (congrArg (·.2.1) heq) k, fun hdestroy ↦ ?_⟩
    have hk : k ≠ k' := fun hk ↦ hdestroy (hk ▸ rfl)
    exact (congrFun (congrArg (·.2.2) heq) k).trans (Function.update_of_ne hk ..)
  | finish error =>
    obtain ⟨e, r, heq, -⟩ := finish_eq f s error
    show (finish f error s).groupWaiter_ k = _ ∧ (_ → (finish f error s).life k = _)
    rw [heq]
    exact ⟨rfl, fun _ ↦ rfl⟩
  | _ => exact hsame (membership_call (by simp) (by simp) (by simp) (by simp))

/-- A call that `patiently` allows does not fill a group for which a fiber waits, if it is empty. -/
theorem fibers_call {op : Op F G Q M S} (hfinish : ∀ error, op ≠ .finish error)
    (hpatient : patiently s (.call op) = true) (hg : s.groupWaiter_ k = some g)
    (hnil : s.fibers_ k = []) : (call f s op).fibers_ k = [] := by
  have hsame (h : (call f s op).membership = s.membership) : (call f s op).fibers_ k = [] :=
    (congrFun (congrArg (·.1) h) k).trans hnil
  cases op with
  | spawn k' c =>
    have hk : k ≠ k' := by
      rintro rfl
      have hor : s.groupWaiter_ k = none ∨ s.fibers_ k ≠ [] := of_decide_eq_true hpatient
      simp [hg, hnil] at hor
    show (spawn k' c s).fibers_ k = []
    rw [spawn, newFiber, unpark_eq]
    exact (Function.update_of_ne hk ..).trans hnil
  | waitGroup k' =>
    obtain ⟨p, heq, -⟩ := membership_waitGroup f s k'
    exact (congrFun (congrArg (·.1) heq) k).trans hnil
  | destroyGroup k' =>
    obtain ⟨l, heq⟩ := membership_destroyGroup f s k'
    exact (congrFun (congrArg (·.1) heq) k).trans hnil
  | finish error => exact absurd rfl (hfinish error)
  | _ => exact hsame (membership_call (by simp) (by simp) (by simp) (by simp))

theorem Step.called {op : Op F G Q M S} (h : Step s (.call op) s') :
    ∃ f, s.loop = .fiber f ∧ allowed f s op = true ∧ s' = call f s op := by
  unfold Step at h
  dsimp only [act] at h
  split at h
  · rename_i f hloop
    split at h
    · rename_i hallowed
      exact ⟨f, hloop, hallowed, (Option.some.inj h).symm⟩
    · cases h
  · cases h

/-- The first fiber of the run queue, just before it is back from where it was parked. -/
def Sched.resumed (s : Sched F G Q M S) (f : F) (rest : List F) : Sched F G Q M S :=
  { s with run_queue_ := rest, loop := .fiber f, parked := update s.parked f none }

theorem Step.ran {rest : List F} {w : Where F G Q M S} (h : Step s .run s')
    (hqueue : s.run_queue_ = f :: rest) (hw : s.parked f = some w) :
    s' = unparked f w (s.resumed f rest) := by
  unfold Step at h
  dsimp only [act] at h
  rw [hqueue] at h
  dsimp only at h
  split at h
  · rw [← Option.some.inj h, runFiber]
    dsimp only
    rw [hw]
    rfl
  · cases h

/-- What is kept, holds of a fiber that is just coming back. -/
theorem Kept.resumed {strict : Prop} {I : View F G Q M S → Sched F G Q M S → Prop}
    (hI : Kept strict I) {rest : List F} {w : Where F G Q M S} (hloop : s.loop = .drain)
    (hqueue : s.run_queue_ = f :: rest)
    (hw : s.parked f = some w) (hinv : I s.view s) :
    I ((Phase.back w).view f (s.resumed f rest)) (s.resumed f rest) := by
  have hrunning : s.view.running = none := by
    rw [Sched.view, hloop]
    rfl
  have hplace : update (update s.parked f none) f (some w) = s.parked := by
    rw [Function.update_idem, ← hw, Function.update_eq_self]
  have hview : (Phase.back w).view f (s.resumed f rest) =
      { s.view with running := some f, queue := rest, phase := .back w } := by
    show View.mk (some f) (update (update s.parked f none) f (some w)) rest _ = _
    rw [hplace]
    rfl
  rw [hview]
  exact hI.frame (.fiber f) s.now_ rest _ (hI.resume hrunning rfl hw hqueue hinv)

/-- Fibers that wait for groups. -/
structure Attending (s : Sched F G Q M S) : Prop where
  grouped : Grouped s.view s
  joins : Joins s.view s.ties
  unparked : s.Unparked
  alive {g : F} {k : G} : s.groupWaiter_ k = some g → s.life k = .alive
  attends {g : F} {k : G} : s.parked g = some (.waitGroup k) → s.Attends k g

/-- A fiber that comes to wait may not come back yet, and is not in the run queue. -/
theorem attends_waitGroup {k' : G} (hnone : s.parked f = none) (hqueue : f ∉ s.run_queue_)
    (hf : (waitGroup f k' s).parked f = some (.waitGroup k)) : (waitGroup f k' s).Attends k f := by
  unfold waitGroup at hf ⊢
  split at hf
  · simp [hnone] at hf
  · rename_i hwaits
    rw [if_neg hwaits]
    unfold park at hf ⊢
    split at hf
    · rename_i e he
      cases e with
      | _ => simp [throwExc, unwind, cleanup, raise, hnone] at hf
    · rename_i hpending
      have hk : k' = k := by simpa using hf
      subst hk
      obtain ⟨herror, hfibers⟩ : s.first_error_ k' = false ∧ s.fibers_ k' ≠ [] := by
        simpa using hwaits
      exact ⟨fun hmem ↦ absurd hmem hqueue, fun hdue ↦ by simp [hfibers, herror] at hdue⟩

/-- The end of a scope of another fiber does not matter. -/
theorem attends_endScope (hgf : g ≠ f) (h : s.Attends k g) : (endScope f s).Attends k g := by
  obtain ⟨saved, l, o, ts, heq, -⟩ := endScope_eq f s
  have hflags : Cactus.flags (endScope f s) g = Cactus.flags s g := by
    rw [heq]
    simp [Cactus.flags, Function.update_of_ne hgf]
  have hpending := pendingExc_congr hflags
  rw [heq] at hpending ⊢
  refine ⟨fun hmem ↦ ?_, h.woken⟩
  unfold Sched.Due
  rw [hpending]
  exact h.only hmem

/-- A call keeps what holds of the fibers that wait, and of the one that begins to wait. -/
theorem Attending.call {op : Op F G Q M S} (h : Attending s) (hloop : s.loop = .fiber f)
    (hallowed : allowed f s op = true) (hcareful : careful f s op = true)
    (hpatient : patiently s (.call op) = true) (hgrouped : Grouped (call f s op).view (call f s op))
    (hg : (call f s op).parked g = some (.waitGroup k)) : (call f s op).Attends k g := by
  have hnone : s.parked f = none := h.unparked f hloop
  by_cases hfinish : ∃ error, op = .finish error
  · obtain ⟨error, rfl⟩ := hfinish
    have hgs : s.parked g = some (.waitGroup k) := by
      obtain ⟨e, r, heq, -⟩ := finish_eq f s error
      rw [show (Cactus.call f s (.finish error)).parked = (finish f error s).parked from rfl,
        heq] at hg
      exact hg
    exact attends_finish error h.grouped (h.alive (h.grouped.waiter hgs)) hgs (h.attends hgs)
  · by_cases hgf : g = f
    · subst hgf
      by_cases hwait : ∃ k', op = .waitGroup k'
      · obtain ⟨k', rfl⟩ := hwait
        refine attends_waitGroup hnone (fun hmem ↦ ?_) hg
        have hrunning : s.view.running = some g := by
          rw [Sched.view, hloop]
          rfl
        have hphase := h.grouped.sound.alive.idle hrunning hmem
        simp [Sched.view] at hphase
      · have hwaiter := hgrouped.waiter hg
        rw [(groupWaiter_call fun h ↦ hwait ⟨k, h⟩).1] at hwaiter
        have hat := h.grouped.sound.tied.groupWaiter hwaiter
        simp [Sched.view, hnone] at hat
    · by_cases hscope : op = .endScope
      · subst hscope
        refine attends_endScope hgf (h.attends ?_)
        obtain ⟨saved, l, o, ts, heq, -⟩ := endScope_eq f s
        rw [show (Cactus.call f s .endScope).parked = (endScope f s).parked from rfl, heq] at hg
        exact hg
      · have hran : Ran True f (.free, s) (Cactus.call f s op) :=
          ran_call s hallowed (fun _ ↦ hcareful) hscope fun error h ↦ hfinish ⟨error, h⟩
        have hgs : s.parked g = some (.waitGroup k) := (hran.parked_of_ne hgf).symm.trans hg
        refine hran.attends ?_ hgf hgs ?_ (h.attends hgs)
        · rw [view_free hloop hnone]
          exact h.grouped.sound
        · exact fibers_call (fun error h ↦ hfinish ⟨error, h⟩) hpatient (h.grouped.waiter hgs)

/-- What the first fiber of the run queue does keeps it. -/
theorem attends_unparked {rest : List F} {w : Where F G Q M S} (h : Attending s)
    (hloop : s.loop = .drain) (hqueue : s.run_queue_ = f :: rest) (hw : s.parked f = some w)
    (hgrouped : Grouped (unparked f w (s.resumed f rest)).view (unparked f w (s.resumed f rest)))
    (hg : (unparked f w (s.resumed f rest)).parked g = some (.waitGroup k)) :
    (unparked f w (s.resumed f rest)).Attends k g := by
  obtain ⟨l, hmembership, -⟩ := membership_unparked (f := f) (s := s.resumed f rest) w
  by_cases hgf : g = f
  · subst hgf
    -- it would be `waiter_` already, and this was reset when it came back
    have hwaiter := hgrouped.waiter hg
    rw [show (unparked g w (s.resumed g rest)).groupWaiter_ =
        (cleanup (s.resumed g rest) w).groupWaiter_ from
      congrArg (·.2.1) hmembership] at hwaiter
    have hold : s.groupWaiter_ k = some g ∧ w ≠ .waitGroup k := by
      cases w with
      | waitGroup k' =>
        have hk : k ≠ k' := by
          rintro rfl
          simp [cleanup] at hwaiter
        refine ⟨(Function.update_of_ne hk ..).symm.trans hwaiter,
          fun heq ↦ hk (Where.waitGroup.inj heq).symm⟩
      | _ => exact ⟨hwaiter, by simp⟩
    have hat := h.grouped.sound.tied.groupWaiter hold.1
    exact absurd (Option.some.inj (hw.symm.trans hat)) hold.2
  · have hran : Ran True f (.back w, s.resumed f rest) (unparked f w (s.resumed f rest)) :=
      ran_unparked _ w
    have hgs : (s.resumed f rest).parked g = some (.waitGroup k) :=
      (hran.parked_of_ne hgf).symm.trans hg
    have hgs' : s.parked g = some (.waitGroup k) := (Function.update_of_ne hgf ..).symm.trans hgs
    have hattends := h.attends hgs'
    refine hran.attends (kept_sound.resumed hloop hqueue hw h.grouped.sound) hgf hgs
      (fun hnil ↦ ?_) ?_
    · rw [show (unparked f w (s.resumed f rest)).fibers_ =
          (cleanup (s.resumed f rest) w).fibers_ from
        congrArg (·.1) hmembership]
      cases w with
      | _ => exact hnil
    · refine ⟨fun hmem ↦ hattends.only (hqueue ▸ List.mem_cons_of_mem _ hmem), fun hdue ↦ ?_⟩
      have hmem := hattends.woken hdue
      rw [hqueue] at hmem
      exact (List.mem_cons.mp hmem).resolve_left hgf

/-- A timer wakes a fiber that waits for a group only by an exception. -/
theorem attends_onExpired {t : Timer F} (hsound : Sound s.view s) (ht : t ∈ s.timers_)
    (hg : s.parked g = some (.waitGroup k)) (h : s.Attends k g) :
    (onExpired t (deactivate t.id s)).Attends k g := by
  unfold onExpired
  split
  · rw [notifyTimeout_eq]
    have hmem {c : F} (hc : c ∈ s.run_queue_) : c ∈
        (if s.cancel_guarded_ t.fiber = true then s.run_queue_
        else enqueue t.fiber s.run_queue_) := by
      split
      · exact hc
      · exact mem_enqueue.mpr (.inl hc)
    refine ⟨fun hin ↦ ?_, fun hdue ↦ hmem (h.woken hdue)⟩
    by_cases htg : g = t.fiber
    · subst htg
      by_cases hguarded : s.cancel_guarded_ t.fiber = true
      · have hold : t.fiber ∈ s.run_queue_ := by simpa [deactivate, hguarded] using hin
        refine (h.only hold).imp id fun hrest ↦ hrest.imp id fun hpending ↦ ?_
        exact absurd (by rw [pendingExc, if_pos hguarded]) hpending
      · refine .inr (.inr ?_)
        cases hcanceled : s.canceled_ t.fiber with
        | true => simp [pendingExc, deactivate, hguarded, hcanceled]
        | false => simp [pendingExc, deactivate, hguarded, hcanceled]
    · have hold : g ∈ s.run_queue_ := by
        by_cases hguarded : s.cancel_guarded_ t.fiber = true
        · simpa [deactivate, hguarded] using hin
        · simpa [deactivate, hguarded, htg] using hin
      refine (h.only hold).imp id fun hrest ↦ hrest.imp id fun hpending ↦ ?_
      rwa [pendingExc_congr (s := s)]
      simp [Cactus.flags, deactivate, Function.update_of_ne htg]
  · rename_i hguard
    have htg : g ≠ t.fiber := by
      rintro rfl
      have hat := hsound.tied.sleeper ht (Bool.eq_false_of_not_eq_true hguard)
      simp [Sched.view, hg] at hat
    rw [unpark_eq]
    refine ⟨fun hmem ↦ h.only ((mem_enqueue.mp hmem).resolve_right htg), fun hdue ↦ ?_⟩
    exact mem_enqueue.mpr (.inl (h.woken hdue))

/-- A group for which a fiber waits stays alive. -/
theorem Attending.alive_step {a : Action F G Q M S} (h : Attending s) (hstep : Step s a s')
    (hpatient : patiently s a = true) (hg : s'.groupWaiter_ k = some g) : s'.life k = .alive := by
  have hmove : Move False s a s' := hstep.move fun hfalse ↦ hfalse.elim
  cases a with
  | call op =>
    obtain ⟨f, hloop, hallowed, rfl⟩ := hstep.called
    by_cases hwait : op = .waitGroup k
    · subst hwait
      obtain ⟨p, heq, -⟩ := membership_waitGroup f s k
      have hallowed : s.life k = .alive ∧ s.groupWaiter_ k = none := of_decide_eq_true hallowed
      exact (congrFun (congrArg (·.2.2) heq) k).trans hallowed.1
    · obtain ⟨hsame, hlife⟩ := groupWaiter_call (f := f) (s := s) hwait
      have hold : s.groupWaiter_ k = some g := hsame.symm.trans hg
      refine (hlife ?_).trans (h.alive hold)
      rintro rfl
      cases hold.symm.trans (of_decide_eq_true hpatient)
  | run =>
    cases hmove with
    | @resume f rest w _ hloop hqueue hw hran =>
      obtain rfl := hstep.ran hqueue hw
      obtain ⟨l, heq, hl⟩ := membership_unparked (f := f) (s := s.resumed f rest) w
      have hnew : (cleanup (s.resumed f rest) w).groupWaiter_ k = some g :=
        (congrFun (congrArg (·.2.1) heq) k).symm.trans hg
      have hold : s.groupWaiter_ k = some g := by
        cases w with
        | waitGroup k' =>
          by_cases hk : k = k'
          · subst hk
            simp [cleanup] at hnew
          · exact (Function.update_of_ne hk ..).symm.trans hnew
        | _ => exact hnew
      refine ((congrFun (congrArg (·.2.2) heq) k).trans (hl k fun saved hgroup ↦ ?_)).trans
        (h.alive hold)
      -- the fiber that comes back to the destructor is `joiner_` of a group that is not alive
      subst hgroup
      have hjoiner := (h.joins.group (show s.view.place f = some (.group k saved) from hw)).1
      cases hjoiner.symm.trans (h.joins.life (h.alive hold))
    | start hloop hqueue hw => exact h.alive hg
  | event slot =>
    cases hmove with
    | event _ hloop =>
      rw [unpark?_eq] at hg ⊢
      exact h.alive hg
  | expire timer =>
    cases hmove with
    | @expire t hloop ht =>
      obtain ⟨b, o, r, heq, -⟩ := onExpired_eq s t
      rw [heq] at hg ⊢
      exact h.alive hg
  | tick d =>
    cases hmove with
    | tick _ hloop => exact h.alive hg
  | idle =>
    cases hmove with
    | idle hloop => exact h.alive hg

/-- **Every step** of a run of `careful` and patient calls keeps what holds of the fibers that wait
for groups. -/
theorem Attending.step {a : Action F G Q M S} (h : Attending s) (hstep : Step s a s')
    (hcareful : carefully s a = true) (hpatient : patiently s a = true) : Attending s' := by
  have hmove : Move True s a s' := hstep.move fun _ ↦ hcareful
  obtain ⟨hgrouped, hunparked⟩ := kept_grouped.step hmove ⟨h.grouped, h.unparked⟩
  obtain ⟨⟨-, hjoins⟩, -⟩ := kept_joining.step hmove ⟨⟨h.grouped.sound, h.joins⟩, h.unparked⟩
  refine ⟨hgrouped, hjoins, hunparked, h.alive_step hstep hpatient, fun {g k} hg ↦ ?_⟩
  cases a with
  | call op =>
    obtain ⟨f, hloop, hallowed, rfl⟩ := hstep.called
    rw [carefully, hloop] at hcareful
    exact h.call hloop hallowed hcareful hpatient hgrouped hg
  | event slot =>
    cases hmove with
    | event _ hloop =>
      rw [unpark?_eq] at hg ⊢
      have hattends := h.attends hg
      refine ⟨fun hmem ↦ hattends.only ((mem_enqueue?.mp hmem).resolve_right fun hslot ↦ ?_),
        fun hdue ↦ mem_enqueue?.mpr (.inl (hattends.woken hdue))⟩
      have hat := h.grouped.sound.tied.slot hslot
      rw [show s.view.place g = some (.waitGroup k) from hg] at hat
      simp at hat
  | tick d =>
    cases hmove with
    | tick _ hloop => exact ⟨(h.attends hg).only, (h.attends hg).woken⟩
  | expire timer =>
    cases hmove with
    | @expire t hloop ht =>
      refine attends_onExpired h.grouped.sound ht ?_ (h.attends ?_)
      all_goals
        obtain ⟨b, o, r, heq, -⟩ := onExpired_eq s t
        rw [heq] at hg
        exact hg
  | idle =>
    cases hmove with
    | idle hloop => exact ⟨(h.attends hg).only, (h.attends hg).woken⟩
  | run =>
    cases hmove with
    | @resume f rest w _ hloop hqueue hw hran =>
      obtain rfl := hstep.ran hqueue hw
      exact attends_unparked h hloop hqueue hw hgrouped hg
    | @start f rest hloop hqueue hw =>
      have hgf : g ≠ f := by
        rintro rfl
        simp [hw] at hg
      have hattends := h.attends hg
      refine ⟨fun hmem ↦ hattends.only (hqueue ▸ List.mem_cons_of_mem _ hmem), fun hdue ↦ ?_⟩
      have hmem := hattends.woken hdue
      rw [hqueue] at hmem
      exact (List.mem_cons.mp hmem).resolve_left hgf

theorem Ran.first_error {strict : Prop} {r : Phase F G Q M S × Sched F G Q M S}
    (h : Ran strict f r s') :
    s'.first_error_ = r.2.first_error_ := by
  have hchanges {r' : Phase F G Q M S × Sched F G Q M S} (h : Changes strict f r r') :
      r'.2.first_error_ = r.2.first_error_ := by
    induction h with
    | refl => rfl
    | tail _ hlast ih => exact hlast.groups.1.trans ih
  cases h with
  | returns h => exact hchanges h
  | parks h hnone => exact hchanges h

/-- A fiber of the group ends with an error, and the destructor of the group has not begun. -/
def Fails (k : G) (s : Sched F G Q M S) (a : Action F G Q M S) : Prop :=
  a = .call (.finish true) ∧ s.life k = .alive ∧ ∃ f, s.loop = .fiber f ∧ s.group_ f = some k

/-- A step records an error just if a fiber of the group ends with one. -/
theorem Step.first_error {a : Action F G Q M S} (h : Step s a s') :
    s'.first_error_ k = true ↔ s.first_error_ k = true ∨ Fails k s a := by
  by_cases hfinish : ∃ error, a = .call (.finish error)
  · obtain ⟨error, rfl⟩ := hfinish
    obtain ⟨f, hloop, -, rfl⟩ := h.called
    refine (first_error_finish error).trans (or_congr_right ?_)
    constructor
    · rintro ⟨rfl, hk, halive⟩
      exact ⟨rfl, halive, f, hloop, hk⟩
    · rintro ⟨ha, halive, f', hloop', hk⟩
      obtain rfl := Loop.fiber.inj (hloop.symm.trans hloop')
      exact ⟨by simpa using ha, hk, halive⟩
  · have hsame : s'.first_error_ = s.first_error_ := by
      have hmove : Move False s a s' := h.move fun hfalse ↦ hfalse.elim
      cases hmove with
      | call hloop hran => exact hran.first_error
      | @endScope f hloop =>
        obtain ⟨saved, l, o, ts, heq, -⟩ := endScope_eq f s
        rw [heq]
      | finish error hloop hscopes => exact absurd ⟨error, rfl⟩ hfinish
      | event slot hloop => rw [unpark?_eq]
      | @expire t hloop ht =>
        obtain ⟨b, o, r, heq, -⟩ := onExpired_eq s t
        rw [heq]
      | resume hloop hqueue hw hran => exact hran.first_error
      | tick d hloop | idle hloop | start hloop hqueue hw => rfl
    rw [hsame]
    exact (or_iff_left fun hfails ↦ hfinish ⟨true, hfails.1⟩).symm

end

/-! ## `Wait` -/

section

variable {main : F} {s : Sched F G Q M S} {h : List (Sched F G Q M S × Action F G Q M S)}

theorem attending_init : Attending (init main : Sched F G Q M S) :=
  ⟨⟨sound_init main, by simp [Sched.view, init], by simp [init]⟩, (joining_init main).joins,
    by simp [Sched.Unparked, init], by simp [init], by simp [init]⟩

/-- **Every run** of `careful` and patient calls. -/
theorem attending_of_trace (hrun : Lib.Trace Step (init main) h s)
    (hcareful : ∀ x ∈ h, carefully x.1 x.2 = true) (hpatient : ∀ x ∈ h, patiently x.1 x.2 = true) :
    Attending s := by
  refine hrun.invariant_of_forall (C := fun s a ↦ carefully s a = true ∧ patiently s a = true)
    (I := Attending) (fun x hx ↦ ⟨hcareful x hx, hpatient x hx⟩) attending_init
    fun s a s' hinv hstep hC ↦ ?_
  exact hinv.step hstep hC.1 hC.2

theorem first_error_of_trace (hrun : Lib.Trace Step (init main) h s) (k : G) :
    s.first_error_ k = true ↔ ∃ x ∈ h, Fails k x.1 x.2 := by
  induction hrun with
  | nil => simp [init]
  | snoc hrun hstep ih =>
    rw [hstep.first_error, ih]
    simp [or_and_right, exists_or]

/-- **`WaitGroup::Wait` waits.**  In every run in which no fiber destroys itself or its own group,
and while a fiber waits for a group the group is not destroyed, and no fiber is spawned into it once
its last one has ended: a group has an error exactly when one of its fibers has ended with one
before the destructor of the group began.  The fiber that waits for a group is in the run queue
exactly when an exception is pending for it, the group has an error, or there is no fiber left in
it.  When it comes back nobody waits for the group any more, and it throws what was pending, or the
group has an error, or all fibers that were ever spawned into the group have ended. -/
theorem wait_group_waits (hrun : Lib.Trace Step (init main) h s)
    (hcareful : ∀ x ∈ h, carefully x.1 x.2 = true) (hpatient : ∀ x ∈ h, patiently x.1 x.2 = true) :
    (∀ k, s.first_error_ k = true ↔ ∃ x ∈ h, Fails k x.1 x.2) ∧
    ∀ g k, s.parked g = some (.waitGroup k) →
      (g ∈ s.run_queue_ ↔ s.Due k g) ∧
      ∀ rest s', s.run_queue_ = g :: rest → Step s .run s' →
        s'.groupWaiter_ k = none ∧
        ((∃ e, pendingExc s g = some e ∧ s'.log = s.log ++ [.threw g e (expired s g)]) ∨
          s'.first_error_ k = true ∨ ∀ c, s'.group_ c = some k → s'.state_ c = some .Dead) := by
  have hinv := attending_of_trace hrun hcareful hpatient
  obtain ⟨hinterrupted, -⟩ := kept_interrupted.trace hrun (fun hfalse ↦ hfalse.elim)
    (fun g _ hplace ↦ absurd rfl hplace)
  refine ⟨first_error_of_trace hrun, fun g k hg ↦ ⟨⟨(hinv.attends hg).only, fun hdue ↦ ?_⟩,
    fun rest s' hqueue hstep ↦ ?_⟩⟩
  · rcases hdue with hempty | herror | hpending
    · exact (hinv.attends hg).woken (.inl hempty)
    · exact (hinv.attends hg).woken (.inr herror)
    · refine hinterrupted g (fun hrunning ↦ ?_) (by simp [Sched.view, hg]) hpending
      cases hloop : s.loop with
      | fiber f =>
        rw [Sched.view, hloop] at hrunning
        obtain rfl := Option.some.inj hrunning
        simp [hinv.unparked f hloop] at hg
      | poll | drain => simp [Sched.view, hloop, Loop.running] at hrunning
  · obtain rfl := hstep.ran hqueue hg
    have hdue : s.Due k g := (hinv.attends hg).only (hqueue ▸ List.mem_cons_self)
    unfold unparked
    rw [show pendingExc (s.resumed g rest) g = pendingExc s g from rfl]
    cases he : pendingExc s g with
    | some e =>
      refine ⟨?_, .inl ⟨e, rfl, ?_⟩⟩
      · simp [throwExc, unwind, cleanup]
      · cases e with
        | _ => rfl
    | none =>
      refine ⟨by simp [proceed, cleanup], .inr ?_⟩
      rcases hdue with hempty | herror | hpending
      · refine .inr fun c hc ↦ (hinv.grouped.members hc).resolve_left fun hmem ↦ ?_
        rw [hempty] at hmem
        simp at hmem
      · exact .inl herror
      · exact absurd he hpending

/-- The main fiber waits for a fiber that ends with an error, and is woken by this. -/
theorem wait_group_waits_error :
    ∃ (h : List (Sched (Fin 3) Unit Unit Unit Unit × Action (Fin 3) Unit Unit Unit Unit))
      (s : Sched (Fin 3) Unit Unit Unit Unit),
      Lib.Trace Step (init 0) h s ∧ (∀ x ∈ h, carefully x.1 x.2 = true) ∧
        (∀ x ∈ h, patiently x.1 x.2 = true) ∧ s.parked 0 = some (.waitGroup ()) ∧
        s.fibers_ () = [2] ∧ 0 ∈ s.run_queue_ ∧ ∃ x ∈ h, Fails () x.1 x.2 := by
  obtain ⟨h, s, hrun, hp⟩ := exists_trace_of_play (init 0 : Sched (Fin 3) Unit Unit Unit Unit)
    [.tick 0, .run, .call (.spawn () 1), .call (.spawn () 2), .call (.waitGroup ()), .tick 0, .run,
      .call (.finish true)]
    (fun x ↦ (∀ y ∈ x.1, carefully y.1 y.2 = true) ∧ (∀ y ∈ x.1, patiently y.1 y.2 = true) ∧
      x.2.parked 0 = some (.waitGroup ()) ∧ x.2.fibers_ () = [2] ∧ x.2.first_error_ () = true)
    (by decide +kernel)
  obtain ⟨hcareful, hpatient, hg, hfibers, herror⟩ := of_decide_eq_true hp
  obtain ⟨hfails, hwaits⟩ := wait_group_waits hrun hcareful hpatient
  exact ⟨h, s, hrun, hcareful, hpatient, hg, hfibers, (hwaits 0 () hg).1.mpr (.inr (.inl herror)),
    (hfails ()).mp herror⟩

end

end Cactus
end ManyTasks
