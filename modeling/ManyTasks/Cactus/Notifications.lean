import ManyTasks.Cactus.Queues

/-!
# Notifications are kept

Every `NotifyOne` on a queue with waiters is a notification of its own, and its number goes with the
`wakeup` that it has set.  A waiter that leaves by an exception passes the number on; so a number is
carried by one fiber, until a `Wait` returns with it or nobody is left to whom it can be passed.
This is `Tokens`, and with the places of the waiters it gives the result:

* `notification_kept`: for each notification there is exactly one fiber that carries it and has not
  run since it was woken, or exactly one event that has ended it; and a waiter that leaves by an
  exception notifies the next one.
-/

set_option autoImplicit false
set_option linter.unusedSectionVars false

namespace ManyTasks
namespace Cactus

variable {F G Q M S : Type} [DecidableEq F] [DecidableEq G] [DecidableEq Q] [DecidableEq M]
  [DecidableEq S]

open Function (update)

/-! ## Where a notification is -/

/-- Each notification is carried by one fiber, or has been ended once. -/
structure Tokens (σ : Queues F G Q M) : Prop where
  lt {f : F} {n : ℕ} : σ.wakeup f = some n → n < σ.notifications
  unique {f g : F} {n : ℕ} : σ.wakeup f = some n → σ.wakeup g = some n → f = g
  carried {f : F} {n : ℕ} : σ.wakeup f = some n → σ.log.countP (Event.ends n) = 0
  ended {n : ℕ} : n < σ.notifications → (∀ f, σ.wakeup f ≠ some n) →
    σ.log.countP (Event.ends n) = 1
  fresh {n : ℕ} : σ.notifications ≤ n → σ.log.countP (Event.ends n) = 0
  dropped {n : ℕ} {left : List F} : .dropped n left ∈ σ.log → left = []

section

variable {σ : Queues F G Q M} {f : F} {q : Waiters Q M}

/-- A fiber without a notification leaves. -/
theorem Tokens.unlinked (h : Tokens σ) (hnone : σ.wakeup f = none) : Tokens (σ.unlinked f q) := by
  have hsame : update σ.wakeup f none = σ.wakeup := by
    rw [← hnone]
    exact Function.update_eq_self f σ.wakeup
  unfold Queues.unlinked
  rw [hsame]
  exact ⟨h.lt, h.unique, h.carried, h.ended, h.fresh, h.dropped⟩

/-- A new notification. -/
theorem Tokens.notified (h : Tokens σ) {w : F} {ws : List F} (hw : σ.wakeup w = none) :
    Tokens { σ.notified q w ws σ.notifications with notifications := σ.notifications + 1 } := by
  have hcases {g : F} {n : ℕ} (hn : update σ.wakeup w (some σ.notifications) g = some n) :
      g = w ∧ n = σ.notifications ∨ g ≠ w ∧ σ.wakeup g = some n := by
    by_cases hg : g = w
    · rw [hg, Function.update_self] at hn
      exact .inl ⟨hg, (Option.some.inj hn).symm⟩
    · rw [Function.update_of_ne hg] at hn
      exact .inr ⟨hg, hn⟩
  refine ⟨fun hn ↦ ?_, fun {g g' n} hn hn' ↦ ?_, fun hn ↦ ?_, fun {n} hlt hfree ↦ ?_, fun hle ↦ ?_,
    h.dropped⟩
  · rcases hcases hn with ⟨-, rfl⟩ | ⟨-, hold⟩
    · exact Nat.lt_succ_self _
    · exact Nat.lt_succ_of_lt (h.lt hold)
  · rcases hcases hn with ⟨rfl, rfl⟩ | ⟨-, hold⟩ <;> rcases hcases hn' with ⟨rfl, hk⟩ | ⟨-, hold'⟩
    · rfl
    · exact absurd (h.lt hold') (Nat.lt_irrefl _)
    · exact absurd (h.lt hold) (hk ▸ Nat.lt_irrefl _)
    · exact h.unique hold hold'
  · rcases hcases hn with ⟨-, rfl⟩ | ⟨-, hold⟩
    · exact h.fresh le_rfl
    · exact h.carried hold
  · have hne : n ≠ σ.notifications := by
      rintro rfl
      refine hfree w ?_
      exact Function.update_self ..
    refine h.ended (lt_of_le_of_ne (Nat.le_of_lt_succ hlt) hne) fun g hg ↦ hfree g ?_
    have hgw : g ≠ w := by
      rintro rfl
      rw [hw] at hg
      cases hg
    exact (Function.update_of_ne hgw ..).trans hg
  · exact h.fresh (Nat.le_of_succ_le hle)

/-- A fiber leaves, and its notification goes to another one. -/
theorem Tokens.passed (h : Tokens σ) {n : ℕ} {w : F} {ws : List F} (hf : σ.wakeup f = some n)
    (hw : σ.wakeup w = none) : Tokens ((σ.notified q w ws n).unlinked f q) := by
  have hne : f ≠ w := by
    rintro rfl
    rw [hf] at hw
    cases hw
  have hcases {g : F} {k : ℕ} (hk : update (update σ.wakeup w (some n)) f none g = some k) :
      g = w ∧ k = n ∨ g ≠ f ∧ g ≠ w ∧ σ.wakeup g = some k := by
    by_cases hgf : g = f
    · rw [hgf, Function.update_self] at hk
      cases hk
    · rw [Function.update_of_ne hgf] at hk
      by_cases hg : g = w
      · rw [hg, Function.update_self] at hk
        exact .inl ⟨hg, (Option.some.inj hk).symm⟩
      · rw [Function.update_of_ne hg] at hk
        exact .inr ⟨hgf, hg, hk⟩
  refine ⟨fun hk ↦ ?_, fun {g g' k} hk hk' ↦ ?_, fun hk ↦ ?_, fun {k} hlt hfree ↦ ?_, h.fresh,
    h.dropped⟩
  · rcases hcases hk with ⟨-, rfl⟩ | ⟨-, -, hold⟩
    · exact h.lt hf
    · exact h.lt hold
  · rcases hcases hk with ⟨rfl, rfl⟩ | ⟨hgf, -, hold⟩ <;>
      rcases hcases hk' with ⟨rfl, hkn⟩ | ⟨hgf', -, hold'⟩
    · rfl
    · exact absurd (h.unique hold' hf) hgf'
    · exact absurd (h.unique hold (hkn ▸ hf)) hgf
    · exact h.unique hold hold'
  · rcases hcases hk with ⟨-, rfl⟩ | ⟨-, -, hold⟩
    · exact h.carried hf
    · exact h.carried hold
  · have hkn : k ≠ n := by
      rintro rfl
      refine hfree w ?_
      exact (Function.update_of_ne hne.symm ..).trans (Function.update_self ..)
    refine h.ended hlt fun g hg ↦ hfree g ?_
    have hgf : g ≠ f := by
      rintro rfl
      exact hkn (Option.some.inj (hg.symm.trans hf))
    have hgw : g ≠ w := by
      rintro rfl
      rw [hw] at hg
      cases hg
    exact (Function.update_of_ne hgf ..).trans ((Function.update_of_ne hgw ..).trans hg)

/-- A fiber leaves, and its notification comes to its end. -/
theorem Tokens.ended_by (h : Tokens σ) {n : ℕ} {e : Event F G} (hf : σ.wakeup f = some n)
    (he : ∀ k, e.ends k = true ↔ k = n) (hleft : ∀ k left, e = .dropped k left → left = []) :
    Tokens ((σ.unlinked f q).ended e) := by
  have hcases {g : F} {k : ℕ} (hk : update σ.wakeup f none g = some k) :
      g ≠ f ∧ σ.wakeup g = some k := by
    by_cases hg : g = f
    · rw [hg, Function.update_self] at hk
      cases hk
    · rw [Function.update_of_ne hg] at hk
      exact ⟨hg, hk⟩
  have hcount {k : ℕ} (hk : k ≠ n) :
      (σ.log ++ [e]).countP (Event.ends k) = σ.log.countP (Event.ends k) := by
    have hnot : e.ends k ≠ true := fun hek ↦ hk ((he k).mp hek)
    rw [List.countP_append, List.countP_singleton, if_neg hnot, Nat.add_zero]
  have hne {g : F} {k : ℕ} (hg : g ≠ f) (hk : σ.wakeup g = some k) : k ≠ n := by
    rintro rfl
    exact hg (h.unique hk hf)
  refine ⟨fun hk ↦ h.lt (hcases hk).2, fun hk hk' ↦ h.unique (hcases hk).2 (hcases hk').2,
    fun {g k} hk ↦ ?_, fun {k} hlt hfree ↦ ?_, fun {k} hle ↦ ?_, fun {k left} hmem ↦ ?_⟩
  · obtain ⟨hg, hold⟩ := hcases hk
    exact (hcount (hne hg hold)).trans (h.carried hold)
  · by_cases hk : k = n
    · show (σ.log ++ [e]).countP (Event.ends k) = 1
      rw [List.countP_append, List.countP_singleton, if_pos ((he k).mpr hk), hk, h.carried hf]
    · refine (hcount hk).trans (h.ended hlt fun g hg ↦ hfree g ?_)
      have hgf : g ≠ f := by
        rintro rfl
        exact hk (Option.some.inj (hg.symm.trans hf))
      exact (Function.update_of_ne hgf ..).trans hg
  · have hk : k ≠ n := by
      rintro rfl
      exact absurd (h.lt hf) (Nat.not_lt.mpr hle)
    exact (hcount hk).trans (h.fresh hle)
  · rcases List.mem_append.mp hmem with hold | hnew
    · exact h.dropped hold
    · exact hleft k left (List.mem_singleton.mp hnew).symm

end

section

variable {f : F} {x x' : Phase F G Q M S} {s s' : Sched F G Q M S}

theorem Placed.wakeup_head {v : View F G Q M S} {σ : Queues F G Q M} (h : Placed v σ)
    {q : Waiters Q M} {w : F} {ws : List F} (hq : σ.waiters_ q = w :: ws) : σ.wakeup w = none := by
  refine (h.waiter (q := q) ?_).2
  rw [hq]
  exact List.mem_cons_self

theorem Tokens.notifyOne {v : View F G Q M S} (h : Tokens s.queues) (hplaced : Placed v s.queues)
    (q : Waiters Q M) : Tokens (notifyOne q s).queues := by
  rcases queues_notifyOne s q with ⟨-, heq⟩ | ⟨w, ws, hq, -, heq⟩
  · rw [heq]
    exact h
  · rw [heq]
    exact h.notified (hplaced.wakeup_head hq)

/-- **One change** keeps the notifications. -/
theorem Tokens.change {strict : Prop} (h : Tokens s.queues) (hplaced : Placed (x.view f s) s.queues)
    (hchange : Change strict f (x, s) (x', s')) : Tokens s'.queues := by
  cases hchange.queueChange with
  | other hqueues hx hplace hleft hup =>
    rw [hqueues]
    exact h
  | link w q hx hw hq =>
    have hout : x.queue? = none := by
      rcases hx with rfl | ⟨m, rfl, -⟩ <;> rfl
    have hnone : update s.wakeup f none = s.wakeup := by
      rw [← show s.wakeup f = none from hplaced.wakeup_none hout]
      exact Function.update_eq_self f s.wakeup
    unfold link Sched.queues
    dsimp only
    rw [hnone]
    exact ⟨h.lt, h.unique, h.carried, h.ended, h.fresh, h.dropped⟩
  | pass q hx =>
    rcases queues_passWakeup s f q with ⟨hn, -, heq⟩ | ⟨n, hn, -, -, heq⟩ |
      ⟨n, w, ws, hn, hq, -, heq⟩
    · rw [heq]
      exact h.unlinked hn
    · rw [heq]
      refine h.ended_by hn (fun k ↦ ?_) fun k left heq ↦ ?_
      · simp [Event.ends, eq_comm]
      · exact (Event.dropped.inj heq).2.symm
    · rw [heq]
      exact h.passed hn (hplaced.wakeup_head hq)
  | leaveWait w q hw =>
    obtain ⟨-, ⟨hn, heq⟩ | ⟨n, hn, heq⟩⟩ := queues_leaveWait s f q
    · rw [heq]
      exact h.unlinked hn
    · rw [heq]
      refine h.ended_by hn (fun k ↦ ?_) fun k left heq ↦ nomatch heq
      simp [Event.ends, eq_comm]
  | take m hm => exact ⟨h.lt, h.unique, h.carried, h.ended, h.fresh, h.dropped⟩
  | unlock m hm =>
    let unlocked : Sched F G Q M S := { s with
      locked_ := update s.locked_ m false,
      held := update s.held f ((s.held f).erase m) }
    have htokens : Tokens unlocked.queues :=
      ⟨h.lt, h.unique, h.carried, h.ended, h.fresh, h.dropped⟩
    have hplaced' : Placed ((.free : Phase F G Q M S).view f unlocked) unlocked.queues :=
      ⟨hplaced.nodup, hplaced.waiter, hplaced.woken, hplaced.entering⟩
    exact htokens.notifyOne hplaced' _
  | notifyOne q => exact h.notifyOne hplaced q

end

theorem kept_tokens :
    Kept False fun v s ↦ Placed v (Sched.queues (F := F) (G := G) (Q := Q) (M := M) (S := S) s) ∧
      Tokens s.queues :=
  .of_queues (P := fun v σ ↦ Placed v σ ∧ Tokens σ)
    (fun hchange h ↦ ⟨h.1.change hchange, h.2.change h.1 hchange⟩)
    fun h _ hphase hplace hup ↦ ⟨h.1.of_view hphase hplace hup, h.2⟩

theorem tokens_init (main : F) : Tokens (init main : Sched F G Q M S).queues :=
  ⟨(fun h ↦ nomatch h), (fun h ↦ nomatch h), (fun h ↦ nomatch h),
    fun h ↦ absurd h (Nat.not_lt_zero _), fun _ ↦ rfl, fun h ↦ absurd h List.not_mem_nil⟩

/-- In every state that is reached the waiters are in their places, and each notification is
somewhere. -/
theorem tokens_of_trace {main : F} {s : Sched F G Q M S}
    {h : List (Sched F G Q M S × Action F G Q M S)} (hrun : Lib.Trace Step (init main) h s) :
    Placed s.view s.queues ∧ Tokens s.queues :=
  (kept_tokens.trace hrun (fun hfalse ↦ hfalse.elim) ⟨placed_init main, tokens_init main⟩).1

/-! ## Passing a notification on -/

section

variable {f g : F} {n : ℕ} {q : Waiters Q M} {ws : List F} {s : Sched F G Q M S}

theorem passWakeup_cons (hn : s.wakeup f = some n) (hq : s.waiters_ q = g :: ws)
    (hf : f ∉ s.waiters_ q) :
    (passWakeup f q s).wakeup g = some n ∧ g ∈ (passWakeup f q s).run_queue_ ∧
      (passWakeup f q s).waiters_ = update s.waiters_ q ws := by
  rw [hq] at hf
  have hgf : g ≠ f := fun heq ↦ hf (heq ▸ List.mem_cons_self)
  have hws : ws.erase f = ws := List.erase_of_not_mem fun hmem ↦ hf (List.mem_cons_of_mem g hmem)
  unfold passWakeup
  rw [hn]
  dsimp only
  rw [notify_cons s q n hq]
  refine ⟨?_, mem_enqueue.mpr (.inr rfl), ?_⟩
  · exact (Function.update_of_ne hgf ..).trans (Function.update_self ..)
  · show update (update s.waiters_ q ws) q ((update s.waiters_ q ws q).erase f) = _
    rw [Function.update_self, hws, Function.update_idem]

/-- The exception leaves the call, and another waiter has the notification. -/
theorem throwExc_passes {v : View F G Q M S} (hplaced : Placed v s.queues) {w : Where F G Q M S}
    (hw : w.queue? = some q) (hn : s.wakeup f = some n) (hq : s.waiters_ q = g :: ws) (e : Exc) :
    (throwExc f w e s).wakeup g = some n ∧ g ∈ (throwExc f w e s).run_queue_ ∧
      (throwExc f w e s).waiters_ q = ws := by
  have hf : f ∉ s.waiters_ q := fun hmem ↦ by
    rw [show s.wakeup f = none from (hplaced.waiter hmem).2] at hn
    cases hn
  have hqueues := queues_raise f e s
  have hwakeup : (raise f e s).wakeup f = some n := (congrArg (·.wakeup f) hqueues).trans hn
  have hwaiters : (raise f e s).waiters_ = s.waiters_ := congrArg (·.waiters_) hqueues
  have hq' : (raise f e s).waiters_ q = g :: ws := by rw [hwaiters, hq]
  obtain ⟨hg, hmem, heq⟩ := passWakeup_cons hwakeup hq' (by rw [hwaiters]; exact hf)
  have hself : (passWakeup f q (raise f e s)).waiters_ q = ws := by
    rw [heq, Function.update_self]
  cases w with
  | wait q' =>
    obtain rfl := Option.some.inj hw
    exact ⟨hg, hmem, hself⟩
  | condWait cv m =>
    obtain rfl := Option.some.inj hw
    exact ⟨hg, hmem, hself⟩
  | lock m =>
    obtain rfl := Option.some.inj hw
    exact ⟨hg, hmem, hself⟩
  | relock cv m =>
    obtain rfl := Option.some.inj hw
    have heq' : throwExc f (.relock cv m) e s =
        notifyOne (.queue cv) (passWakeup f (.lockers m) (raise f e s)) := rfl
    cases hcv : (passWakeup f (.lockers m) (raise f e s)).waiters_ (.queue cv) with
    | nil =>
      rw [heq', notifyOne_nil _ _ hcv]
      exact ⟨hg, hmem, hself⟩
    | cons w' ws' =>
      rw [heq', notifyOne_cons _ _ hcv]
      -- who is notified now was in the other queue
      have hw' : w' ∈ s.waiters_ (.queue cv) := by
        rw [heq, Function.update_of_ne (by simp), hwaiters] at hcv
        exact hcv ▸ List.mem_cons_self
      have hother : (.lockers m : Waiters Q M) ≠ .queue cv := by simp
      have hg' : g ∈ s.waiters_ (.lockers m) := hq ▸ List.mem_cons_self
      have hne : g ≠ w' := by
        rintro rfl
        have hat := (hplaced.waiter hg').1.symm.trans (hplaced.waiter hw').1
        cases hat
      refine ⟨(Function.update_of_ne hne ..).trans hg, mem_enqueue.mpr (.inl hmem), ?_⟩
      dsimp only
      rw [Function.update_of_ne hother]
      exact hself
  | _ => cases hw

end

/-! ## The result -/

/-- **No notification is lost.**  In every state that is reached, whatever the fibers do and
whenever they are canceled or time out:

* a `NotifyOne` on a queue with waiters is a new notification, and one of the waiters has it;
* each notification is carried by exactly one fiber and has not been ended, or it is carried by none
  and exactly one event has ended it: a `Wait` that returned, or being passed on;
* a fiber that carries one is in the run queue and has not left its `Wait`;
* a notification that was ended by being passed on found the queue empty;
* a fiber that carries one and leaves `Wait` by an exception leaves it to the first of the queue. -/
theorem notification_kept {main : F} {s : Sched F G Q M S}
    {h : List (Sched F G Q M S × Action F G Q M S)} (hrun : Lib.Trace Step (init main) h s) :
    (∀ q, s.waiters_ q ≠ [] → (notifyOne q s).notifications = s.notifications + 1 ∧
      ∃ f ∈ s.waiters_ q, (notifyOne q s).wakeup f = some s.notifications) ∧
    (∀ n < s.notifications,
      (∃! f, s.wakeup f = some n) ∧ s.log.countP (Event.ends n) = 0 ∨
      (∀ f, s.wakeup f ≠ some n) ∧ s.log.countP (Event.ends n) = 1) ∧
    (∀ f n, s.wakeup f = some n →
      f ∈ s.run_queue_ ∧ ∃ w q, s.parked f = some w ∧ w.queue? = some q) ∧
    (∀ n left, .dropped n left ∈ s.log → left = []) ∧
    ∀ f rest w q n e s', s.run_queue_ = f :: rest → s.parked f = some w → w.queue? = some q →
      s.wakeup f = some n → pendingExc s f = some e → Step s .run s' →
      ∀ g ws, s.waiters_ q = g :: ws →
        s'.wakeup g = some n ∧ g ∈ s'.run_queue_ ∧ s'.waiters_ q = ws := by
  obtain ⟨hplaced, htokens⟩ := tokens_of_trace hrun
  have hcount (n : ℕ) :
      (s.log.filter Event.ending).countP (Event.ends n) = s.log.countP (Event.ends n) := by
    rw [List.countP_filter]
    refine List.countP_congr fun e _ ↦ ?_
    cases e <;> simp [Event.ends, Event.ending]
  refine ⟨fun q hq ↦ ?_, fun n hn ↦ ?_, fun f n hn ↦ ?_, fun n left hmem ↦ ?_, ?_⟩
  · obtain ⟨w, ws, hw⟩ := List.exists_cons_of_ne_nil hq
    rw [notifyOne_cons s q hw]
    exact ⟨rfl, w, hw ▸ List.mem_cons_self, Function.update_self ..⟩
  · by_cases hcarried : ∃ f, s.wakeup f = some n
    · obtain ⟨f, hf⟩ := hcarried
      exact .inl ⟨⟨f, hf, fun g hg ↦ htokens.unique hg hf⟩, hcount n ▸ htokens.carried hf⟩
    · push Not at hcarried
      exact .inr ⟨hcarried, hcount n ▸ htokens.ended hn hcarried⟩
  · obtain ⟨hup, hat⟩ := hplaced.woken hn
    obtain ⟨q, hq⟩ := Option.ne_none_iff_exists'.mp hat
    obtain ⟨w, hw, hwq⟩ := Option.bind_eq_some_iff.mp hq
    exact ⟨up_view.mp hup, w, q, hw, hwq⟩
  · exact htokens.dropped (List.mem_filter.mpr ⟨hmem, rfl⟩)
  · intro f rest w q n e s' hqueue hw hwq hn he hstep g ws hg
    have hplaced' : Placed s.view ({ s with
      run_queue_ := rest, loop := .fiber f,
      parked := update s.parked f none } :
        Sched F G Q M S).queues := hplaced
    rw [hstep.run_throws hqueue hw he]
    exact throwExc_passes hplaced' hwq hn hg e

/-- Fibers `1` and `2` wait; the main fiber notifies, and then destroys fiber `1`, which has not run
since it was woken.  When it runs, fiber `2` is notified instead. -/
theorem notification_kept_canceled :
    ∃ (h : List (Sched (Fin 3) Unit Unit Unit Unit × Action (Fin 3) Unit Unit Unit Unit))
      (s s' : Sched (Fin 3) Unit Unit Unit Unit),
      Lib.Trace Step (init 0) h s ∧ s.wakeup 1 = some 0 ∧ Step s .run s' ∧
        s'.wakeup 2 = some 0 ∧ 2 ∈ s'.run_queue_ := by
  obtain ⟨h, s, hrun, hp⟩ := exists_trace_of_play
    (init 0 : Sched (Fin 3) Unit Unit Unit Unit)
    [.tick 0, .run, .call (.fiber 1), .call (.fiber 2), .call .yield, .tick 0, .run,
      .call (.wait ()), .tick 0, .run, .call (.wait ()), .tick 0, .run, .call (.notifyOne ()),
      .call (.destroyFiber 1), .tick 0]
    (fun x ↦ x.2.run_queue_ = [1] ∧ x.2.parked 1 = some (.wait ()) ∧ x.2.wakeup 1 = some 0 ∧
      pendingExc x.2 1 = some .canceled ∧ x.2.waiters_ (.queue ()) = [2] ∧ (act x.2 .run).isSome)
    (by decide +kernel)
  obtain ⟨hqueue, hw, hn, he, hq, hcan⟩ := of_decide_eq_true hp
  obtain ⟨s', hs'⟩ := Option.isSome_iff_exists.mp hcan
  obtain ⟨-, -, -, -, hpass⟩ := notification_kept hrun
  obtain ⟨hwakeup, hmem, -⟩ := hpass 1 [] (.wait ()) (.queue ()) 0 .canceled s' hqueue hw rfl hn he
    hs' 2 [] hq
  exact ⟨h, s, s', hrun, hn, hs', hwakeup, hmem⟩

end Cactus
end ManyTasks
