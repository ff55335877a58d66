import ManyTasks.Cactus.Notifications

/-!
# Mutexes and condition variables

`Unlock` only wakes a locker: `locked_` is cleared, another fiber may lock first, and the locker may
be canceled before it runs.  Still nobody is left behind: as long as fibers are in `lockers_` of a
mutex that is not locked, one more has been woken from there and has not run (`Locking`).  The fiber
that has just left `lockers_` and is about to look at `locked_` is the only exception, and it looks
at once.

* `mutex_held`: at most one fiber has a mutex locked, and a fiber that was woken from `lockers_` is
  in the run queue whenever somebody waits there for a mutex that is not locked.
-/

set_option autoImplicit false
set_option linter.unusedSectionVars false

namespace ManyTasks
namespace Cactus

variable {F G Q M S : Type} [DecidableEq F] [DecidableEq G] [DecidableEq Q] [DecidableEq M]
  [DecidableEq S]

open Function (update)

/-- Somebody has been woken from `lockers_` and has not looked at `locked_` since. -/
def Hinted (v : View F G Q M S) (σ : Queues F G Q M) (m : M) : Prop :=
  ∃ f, σ.wakeup f ≠ none ∧ v.queue? f = some (.lockers m)

/-- Each mutex is locked by one fiber, or by none and whoever waits for it has a woken fiber before
it. -/
structure Locking (v : View F G Q M S) (σ : Queues F G Q M) : Prop where
  locked {m : M} : σ.locked_ m = true ↔ ∃ f, m ∈ σ.held f
  nodup (f : F) : (σ.held f).Nodup
  holder {f g : F} {m : M} : m ∈ σ.held f → m ∈ σ.held g → f = g
  hint {m : M} : v.phase ≠ .locking m → σ.locked_ m = false → σ.waiters_ (.lockers m) ≠ [] →
    Hinted v σ m

section

variable {f : F} {x x' : Phase F G Q M S} {s s' : Sched F G Q M S} {σ : Queues F G Q M}

theorem Hinted.of_view {v v' : View F G Q M S} {m : M} (h : Hinted v σ m)
    (hplace : v'.place = v.place) : Hinted v' σ m := by
  obtain ⟨g, hg, hat⟩ := h
  refine ⟨g, hg, ?_⟩
  rw [View.queue?, hplace]
  exact hat

theorem Locking.of_view {v v' : View F G Q M S} (h : Locking v σ)
    (hphase : ∀ m, v.phase ≠ .locking m) (hplace : v'.place = v.place) : Locking v' σ :=
  ⟨h.locked, h.nodup, h.holder, fun _ hfree hne ↦ (h.hint (hphase _) hfree hne).of_view hplace⟩

/-- Another waiter of another queue is notified. -/
theorem Hinted.notified {v : View F G Q M S} {m : M} (h : Hinted v σ m) (q : Waiters Q M) (w : F)
    (ws : List F) (n : ℕ) : Hinted v (σ.notified q w ws n) m := by
  obtain ⟨g, hg, hat⟩ := h
  refine ⟨g, ?_, hat⟩
  show update σ.wakeup w (some n) g ≠ none
  by_cases hgw : g = w
  · rw [hgw, Function.update_self]
    exact Option.some_ne_none n
  · rw [Function.update_of_ne hgw]
    exact hg

/-- A fiber leaves that was not woken, or leaves another queue. -/
theorem Hinted.unlinked {m : M} (h : Hinted (x.view f s) σ m) (q : Waiters Q M)
    (hf : σ.wakeup f = none ∨ x.queue? ≠ some (.lockers m)) (hparked : s'.parked = s.parked) :
    Hinted (x'.view f s') (σ.unlinked f q) m := by
  obtain ⟨g, hg, hat⟩ := h
  have hne : g ≠ f := by
    rintro rfl
    rw [queue?_view_self] at hat
    exact hf.elim hg fun hnot ↦ hnot hat
  refine ⟨g, ?_, (queue?_view_of_ne hne hparked).trans hat⟩
  show update σ.wakeup f none g ≠ none
  rw [Function.update_of_ne hne]
  exact hg

/-- The first of `lockers_` is notified. -/
theorem hinted_notified {v : View F G Q M S} (hplaced : Placed v σ) {m : M} {w : F} {ws : List F}
    (hq : σ.waiters_ (.lockers m) = w :: ws) (n : ℕ) :
    Hinted v (σ.notified (.lockers m) w ws n) m := by
  refine ⟨w, ?_, (hplaced.waiter (q := .lockers m) ?_).1⟩
  · show update σ.wakeup w (some n) w ≠ none
    rw [Function.update_self]
    exact Option.some_ne_none n
  · rw [hq]
    exact List.mem_cons_self

/-- After `NotifyOne` on a queue nothing had to be known about this queue. -/
theorem hint_notifyOne (hplaced : Placed ((.free : Phase F G Q M S).view f s) s.queues)
    {q : Waiters Q M}
    (hother : ∀ m, q ≠ .lockers m → s.locked_ m = false → s.waiters_ (.lockers m) ≠ [] →
      Hinted ((.free : Phase F G Q M S).view f s) s.queues m) {m : M}
    (hfree : (notifyOne q s).locked_ m = false)
    (hne : (notifyOne q s).waiters_ (.lockers m) ≠ []) :
    Hinted ((.free : Phase F G Q M S).view f (notifyOne q s)) (notifyOne q s).queues m := by
  cases hq : s.waiters_ q with
  | nil =>
    rw [notifyOne_nil s q hq] at hfree hne ⊢
    refine hother m ?_ hfree hne
    rintro rfl
    exact hne hq
  | cons w ws =>
    rw [notifyOne_cons s q hq] at hfree hne ⊢
    by_cases hqm : q = .lockers m
    · subst hqm
      exact (hinted_notified hplaced hq s.notifications).of_view rfl
    · dsimp only at hne
      rw [Function.update_of_ne fun heq ↦ hqm heq.symm] at hne
      exact ((hother m hqm hfree hne).notified q w ws s.notifications).of_view rfl

theorem notifyOne_locks (q : Waiters Q M) (s : Sched F G Q M S) :
    (notifyOne q s).locked_ = s.locked_ ∧ (notifyOne q s).held = s.held := by
  cases hq : s.waiters_ q with
  | nil => rw [notifyOne_nil s q hq]; exact ⟨rfl, rfl⟩
  | cons w ws => rw [notifyOne_cons s q hq]; exact ⟨rfl, rfl⟩

theorem Locking.notifyOne (h : Locking ((.free : Phase F G Q M S).view f s) s.queues)
    (hplaced : Placed ((.free : Phase F G Q M S).view f s) s.queues) (q : Waiters Q M) :
    Locking ((.free : Phase F G Q M S).view f (notifyOne q s)) (notifyOne q s).queues := by
  obtain ⟨hlocked, hheld⟩ := notifyOne_locks q s
  refine ⟨?_, ?_, ?_, fun _ hfree hne ↦ hint_notifyOne hplaced
    (fun m _ hfree hne ↦ h.hint (fun hm ↦ nomatch hm) hfree hne) hfree hne⟩ <;>
    simp only [Sched.queues, hlocked, hheld]
  · exact h.locked
  · exact h.nodup
  · exact h.holder

theorem waiters_of_unlinked {q q' : Waiters Q M} (h : (σ.unlinked f q).waiters_ q' ≠ []) :
    σ.waiters_ q' ≠ [] := by
  intro hnil
  apply h
  show update σ.waiters_ q ((σ.waiters_ q).erase f) q' = []
  by_cases hq : q' = q
  · rw [hq, Function.update_self, ← hq, hnil]
    rfl
  · rw [Function.update_of_ne hq, hnil]

/-- A fiber that leaves by an exception does not leave the others behind. -/
theorem hint_passWakeup (hplaced : Placed (x.view f s) s.queues) {q : Waiters Q M}
    (hx : x.queue? = some q) (hparked : (passWakeup f q s).parked = s.parked) {m : M}
    (hold : s.waiters_ (.lockers m) ≠ [] → Hinted (x.view f s) s.queues m)
    (hne : (passWakeup f q s).queues.waiters_ (.lockers m) ≠ []) :
    Hinted ((.free : Phase F G Q M S).view f (passWakeup f q s)) (passWakeup f q s).queues m := by
  have hother (hqm : q ≠ .lockers m) : x.queue? ≠ some (.lockers m) := by
    rw [hx]
    exact fun heq ↦ hqm (Option.some.inj heq)
  rcases queues_passWakeup s f q with ⟨hn, -, heq⟩ | ⟨n, hn, hq, -, heq⟩ |
    ⟨n, w, ws, hn, hq, -, heq⟩
  · rw [heq] at hne ⊢
    exact (hold (waiters_of_unlinked hne)).unlinked q (.inl hn) hparked
  · rw [heq] at hne ⊢
    have hne' := waiters_of_unlinked (f := f) (q := q) hne
    have hqm : q ≠ .lockers m := fun hqm ↦ hne' (hqm ▸ hq)
    exact (hold hne').unlinked q (.inr (hother hqm)) hparked
  · rw [heq] at hne ⊢
    by_cases hqm : q = .lockers m
    · subst hqm
      have hwf : w ≠ f := by
        rintro rfl
        have hnone := hplaced.wakeup_head hq
        rw [show s.queues.wakeup w = some n from hn] at hnone
        cases hnone
      obtain ⟨-, hat⟩ : _ ∧ (x.view f s).queue? w = some (.lockers m) :=
        ⟨trivial, (hplaced.waiter (q := .lockers m)
          (by rw [show s.queues.waiters_ _ = w :: ws from hq]; exact List.mem_cons_self)).1⟩
      refine ⟨w, ?_, (queue?_view_of_ne hwf hparked).trans hat⟩
      show update (update s.wakeup w (some n)) f none w ≠ none
      rw [Function.update_of_ne hwf, Function.update_self]
      exact Option.some_ne_none n
    · have hne' := waiters_of_unlinked hne
      change update s.waiters_ q ws (.lockers m) ≠ [] at hne'
      rw [Function.update_of_ne fun heq ↦ hqm heq.symm] at hne'
      exact ((hold hne').notified q w ws n).unlinked q (.inr (hother hqm)) hparked

theorem passWakeup_locks (f : F) (q : Waiters Q M) (s : Sched F G Q M S) :
    (passWakeup f q s).locked_ = s.locked_ ∧ (passWakeup f q s).held = s.held := by
  have hlocks {σ : Queues F G Q M} (heq : (passWakeup f q s).queues = σ)
      (hlocked : σ.locked_ = s.locked_) (hheld : σ.held = s.held) :
      (passWakeup f q s).locked_ = s.locked_ ∧ (passWakeup f q s).held = s.held :=
    ⟨(congrArg Queues.locked_ heq).trans hlocked, (congrArg Queues.held heq).trans hheld⟩
  rcases queues_passWakeup s f q with ⟨-, -, heq⟩ | ⟨n, -, -, -, heq⟩ | ⟨n, w, ws, -, -, -, heq⟩
  · exact hlocks heq rfl rfl
  · exact hlocks heq rfl rfl
  · exact hlocks heq rfl rfl

theorem leaveWait_locks (f : F) (q : Waiters Q M) (s : Sched F G Q M S) :
    (leaveWait f q s).locked_ = s.locked_ ∧ (leaveWait f q s).held = s.held := by
  unfold leaveWait
  split <;> exact ⟨rfl, rfl⟩

/-- Who leaves `lockers_` locks next. -/
theorem Where.after_eq {w : Where F G Q M S} {m : M} (hw : w.queue? = some (.lockers m)) :
    w.after = .locking m := by
  cases w with
  | lock m' => exact congrArg _ (Waiters.lockers.inj (Option.some.inj hw))
  | relock cv m' => exact congrArg _ (Waiters.lockers.inj (Option.some.inj hw))
  | _ => cases hw

/-- The mutex is locked by the fiber that runs. -/
theorem Locking.take {m : M} (h : Locking ((.locking m : Phase F G Q M S).view f s) s.queues)
    (hm : s.locked_ m = false) :
    Locking ((.free : Phase F G Q M S).view f { s with
      locked_ := update s.locked_ m true,
      held := update s.held f (m :: s.held f) })
      { s.queues with
        locked_ := update s.locked_ m true,
        held := update s.held f (m :: s.held f) } := by
  have hnot (g : F) : m ∉ s.held g := fun hg ↦ by
    have hlocked : s.locked_ m = true := h.locked.mpr ⟨g, hg⟩
    rw [hm] at hlocked
    cases hlocked
  have hmem {g : F} {m' : M} :
      m' ∈ update s.held f (m :: s.held f) g ↔ m' ∈ s.held g ∨ g = f ∧ m' = m := by
    by_cases hg : g = f
    · subst hg
      rw [Function.update_self, List.mem_cons, or_comm]
      simp
    · rw [Function.update_of_ne hg]
      simp [hg]
  refine ⟨fun {m'} ↦ ?_, fun g ↦ ?_, fun {g g' m'} hg hg' ↦ ?_, fun {m'} _ hfree hne ↦ ?_⟩
  · show update s.locked_ m true m' = true ↔ ∃ g, m' ∈ update s.held f (m :: s.held f) g
    simp only [hmem]
    by_cases hmm : m' = m
    · rw [hmm, Function.update_self]
      exact ⟨fun _ ↦ ⟨f, .inr ⟨rfl, rfl⟩⟩, fun _ ↦ rfl⟩
    · rw [Function.update_of_ne hmm]
      exact h.locked.trans (exists_congr fun g ↦ by simp [hmm, Sched.queues])
  · show (update s.held f (m :: s.held f) g).Nodup
    by_cases hg : g = f
    · rw [hg, Function.update_self]
      exact List.nodup_cons.mpr ⟨hnot f, h.nodup f⟩
    · rw [Function.update_of_ne hg]
      exact h.nodup g
  · rcases hmem.mp hg with hold | ⟨hgf, hmm⟩ <;> rcases hmem.mp hg' with hold' | ⟨hgf', hmm'⟩
    · exact h.holder hold hold'
    · exact absurd (hmm' ▸ hold) (hnot g)
    · exact absurd (hmm ▸ hold') (hnot g')
    · exact hgf.trans hgf'.symm
  · change update s.locked_ m true m' = false at hfree
    have hmm : m' ≠ m := by
      rintro rfl
      rw [Function.update_self] at hfree
      cases hfree
    rw [Function.update_of_ne hmm] at hfree
    exact h.hint (fun heq ↦ hmm (Phase.locking.inj heq).symm) hfree hne

/-- The mutex is unlocked by the fiber that has locked it. -/
theorem Locking.unlock {m : M} (h : Locking ((.free : Phase F G Q M S).view f s) s.queues)
    (hplaced : Placed ((.free : Phase F G Q M S).view f s) s.queues) (hm : m ∈ s.held f) :
    Locking ((.free : Phase F G Q M S).view f (unlock f m s)) (unlock f m s).queues := by
  let unlocked : Sched F G Q M S := { s with
    locked_ := update s.locked_ m false,
    held := update s.held f ((s.held f).erase m) }
  have hplaced' : Placed ((.free : Phase F G Q M S).view f unlocked) unlocked.queues :=
    ⟨hplaced.nodup, hplaced.waiter, hplaced.woken, hplaced.entering⟩
  obtain ⟨hlocked, hheld⟩ := notifyOne_locks (.lockers m) unlocked
  have hmem {g : F} {m' : M} : m' ∈ unlocked.held g ↔ m' ∈ s.held g ∧ m' ≠ m := by
    show m' ∈ update s.held f ((s.held f).erase m) g ↔ _
    by_cases hg : g = f
    · have hnodup : (s.held f).Nodup := h.nodup f
      rw [hg, Function.update_self, hnodup.mem_erase_iff, and_comm]
    · rw [Function.update_of_ne hg]
      refine ⟨fun hmem ↦ ⟨hmem, fun hmm ↦ hg ?_⟩, fun hmem ↦ hmem.1⟩
      exact h.holder (hmm ▸ hmem) hm
  have hfree {m' : M} (hmm : m' ≠ m) : unlocked.locked_ m' = s.locked_ m' :=
    Function.update_of_ne hmm ..
  refine ⟨fun {m'} ↦ ?_, fun g ↦ ?_, fun {g g' m'} hg hg' ↦ ?_, fun {m'} _ hfree' hne ↦ ?_⟩
  · show (Cactus.unlock f m s).locked_ m' = true ↔ ∃ g, m' ∈ (Cactus.unlock f m s).held g
    rw [show (Cactus.unlock f m s).locked_ = unlocked.locked_ from hlocked,
      show (Cactus.unlock f m s).held = unlocked.held from hheld]
    simp only [hmem]
    by_cases hmm : m' = m
    · subst hmm
      simp [unlocked]
    · rw [hfree hmm]
      exact h.locked.trans (exists_congr fun g ↦ by simp [hmm, Sched.queues])
  · show ((Cactus.unlock f m s).held g).Nodup
    rw [show (Cactus.unlock f m s).held = unlocked.held from hheld]
    show (update s.held f ((s.held f).erase m) g).Nodup
    by_cases hg : g = f
    · rw [hg, Function.update_self]
      exact (h.nodup f).erase m
    · rw [Function.update_of_ne hg]
      exact h.nodup g
  · change m' ∈ (Cactus.unlock f m s).held g at hg
    change m' ∈ (Cactus.unlock f m s).held g' at hg'
    rw [show (Cactus.unlock f m s).held = unlocked.held from hheld, hmem] at hg hg'
    exact h.holder hg.1 hg'.1
  · refine hint_notifyOne hplaced' (fun k hk hfreek hnek ↦ ?_) hfree' hne
    have hkm : k ≠ m := fun hkm ↦ hk (congrArg Waiters.lockers hkm.symm)
    rw [hfree hkm] at hfreek
    exact (h.hint (by simp [Phase.view]) hfreek hnek).of_view rfl

/-- **One change** keeps the mutexes. -/
theorem Locking.change {strict : Prop} (h : Locking (x.view f s) s.queues)
    (hplaced : Placed (x.view f s) s.queues) (hchange : Change strict f (x, s) (x', s')) :
    Locking (x'.view f s') s'.queues := by
  obtain ⟨hparked, -⟩ := hchange.parked_loop
  cases hchange.queueChange with
  | other hqueues hx hplace hleft hup =>
    rw [hqueues]
    refine ⟨h.locked, h.nodup, h.holder, fun _ hfree hne ↦ ?_⟩
    obtain ⟨g, hg, hat⟩ := h.hint (hx _) hfree hne
    refine ⟨g, hg, ?_⟩
    by_cases hgf : g = f
    · subst hgf
      rw [queue?_view_self] at hat ⊢
      exact hplace.trans hat
    · exact (queue?_view_of_ne hgf hparked).trans hat
  | link w q hx hw hq =>
    refine ⟨h.locked, h.nodup, h.holder, fun {m} _ hfree hne ↦ ?_⟩
    have hphase : x ≠ .locking m := by
      rintro rfl
      rcases hx with hx | ⟨m', hx, hm'⟩
      · cases hx
      · obtain rfl := Phase.locking.inj hx
        rw [show s.locked_ m = false from hfree] at hm'
        cases hm'
    have hqm : q ≠ .lockers m := fun hqm ↦ by
      have hlocked := hq m hqm
      rw [show s.locked_ m = false from hfree] at hlocked
      cases hlocked
    change update s.waiters_ q (s.waiters_ q ++ [f]) (.lockers m) ≠ [] at hne
    rw [Function.update_of_ne fun heq ↦ hqm heq.symm] at hne
    obtain ⟨g, hg, hat⟩ := h.hint hphase hfree hne
    have hgf : g ≠ f := by
      rintro rfl
      rw [queue?_view_self] at hat
      rcases hx with rfl | ⟨m', rfl, -⟩ <;> cases hat
    refine ⟨g, ?_, (queue?_view_of_ne hgf hparked).trans hat⟩
    show update s.wakeup f none g ≠ none
    rw [Function.update_of_ne hgf]
    exact hg
  | pass q hx =>
    obtain ⟨hlocked, hheld⟩ := passWakeup_locks f q s
    refine ⟨?_, ?_, ?_, fun {m} _ hfree hne ↦ hint_passWakeup hplaced hx hparked
      (fun hne' ↦ h.hint ?_ ((congrFun hlocked m).symm.trans hfree) hne') hne⟩
    · simp only [Sched.queues, hlocked, hheld]
      exact h.locked
    · simp only [Sched.queues, hheld]
      exact h.nodup
    · simp only [Sched.queues, hheld]
      exact h.holder
    · intro hm
      rw [show x = .locking m from hm] at hx
      cases hx
  | leaveWait w q hw =>
    obtain ⟨hlocked, hheld⟩ := leaveWait_locks f q s
    refine ⟨?_, ?_, ?_, fun {m} hphase hfree hne ↦ ?_⟩
    · simp only [Sched.queues, hlocked, hheld]
      exact h.locked
    · simp only [Sched.queues, hheld]
      exact h.nodup
    · simp only [Sched.queues, hheld]
      exact h.holder
    · have hfree' : s.locked_ m = false := (congrFun hlocked m).symm.trans hfree
      have hqm : q ≠ .lockers m := fun hqm ↦ hphase (Where.after_eq (hqm ▸ hw))
      have hother : (Phase.back w).queue? ≠ some (.lockers m) := by
        intro heq
        exact hqm (Option.some.inj (hw.symm.trans heq))
      obtain ⟨-, ⟨-, heq⟩ | ⟨n, -, heq⟩⟩ := queues_leaveWait s f q
      · rw [heq] at hne ⊢
        exact (h.hint (by simp [Phase.view]) hfree' (waiters_of_unlinked hne)).unlinked q
          (.inr hother) hparked
      · rw [heq] at hne ⊢
        exact (h.hint (by simp [Phase.view]) hfree'
          (waiters_of_unlinked (f := f) (q := q) hne)).unlinked q (.inr hother) hparked
  | take m hm => exact h.take hm
  | unlock m hm => exact h.unlock hplaced hm
  | notifyOne q => exact h.notifyOne hplaced q

end

/-! ## The result -/

theorem kept_locking :
    Kept False fun v s ↦ Placed v (Sched.queues (F := F) (G := G) (Q := Q) (M := M) (S := S) s) ∧
      Locking v s.queues :=
  .of_queues (P := fun v σ ↦ Placed v σ ∧ Locking v σ)
    (fun hchange h ↦ ⟨h.1.change hchange, h.2.change h.1 hchange⟩)
    fun h hlocking hphase hplace hup ↦
      ⟨h.1.of_view hphase hplace hup, h.2.of_view hlocking hplace⟩

theorem locking_init (main : F) :
    Locking (init main : Sched F G Q M S).view (init main : Sched F G Q M S).queues := by
  refine ⟨⟨(fun h ↦ nomatch h), fun ⟨f, h⟩ ↦ absurd h List.not_mem_nil⟩, fun f ↦ List.nodup_nil,
    fun h ↦ absurd h List.not_mem_nil, fun _ _ hne ↦ absurd rfl hne⟩

/-- **No locker is forgotten.**  In every state that is reached a mutex is locked exactly when a
fiber has it locked, which is one fiber only and has it locked once; and whenever a mutex is not
locked and fibers are in its `lockers_`, some fiber that was woken from there is in the run queue
and has not run since. -/
theorem mutex_held {main : F} {s : Sched F G Q M S}
    {h : List (Sched F G Q M S × Action F G Q M S)} (hrun : Lib.Trace Step (init main) h s) :
    (∀ m, s.locked_ m = true ↔ ∃ f, m ∈ s.held f) ∧
    (∀ m f g, m ∈ s.held f → m ∈ s.held g → f = g) ∧
    (∀ f, (s.held f).Nodup) ∧
    ∀ m, s.locked_ m = false → s.waiters_ (.lockers m) ≠ [] →
      ∃ f n w, s.wakeup f = some n ∧ s.parked f = some w ∧ w.queue? = some (.lockers m) ∧
        f ∈ s.run_queue_ := by
  obtain ⟨hplaced, hlocking⟩ :=
    (kept_locking.trace hrun (fun hfalse ↦ hfalse.elim) ⟨placed_init main, locking_init main⟩).1
  refine ⟨fun m ↦ hlocking.locked, fun m f g ↦ hlocking.holder, hlocking.nodup,
    fun m hfree hne ↦ ?_⟩
  obtain ⟨f, hf, hat⟩ := hlocking.hint (fun hphase ↦ nomatch hphase) hfree hne
  obtain ⟨n, hn⟩ := Option.ne_none_iff_exists'.mp hf
  obtain ⟨w, hw, hwq⟩ := Option.bind_eq_some_iff.mp hat
  exact ⟨f, n, w, hn, hw, hwq, up_view.mp (hplaced.woken hn).1⟩

/-- Fibers `1` and `2` wait for the mutex that the main fiber has locked, and it unlocks it: fiber
`1` is woken, and fiber `2` is still in `lockers_`. -/
theorem mutex_held_unlocked :
    ∃ (h : List (Sched (Fin 3) Unit Unit Unit Unit × Action (Fin 3) Unit Unit Unit Unit))
      (s : Sched (Fin 3) Unit Unit Unit Unit),
      Lib.Trace Step (init 0) h s ∧ s.waiters_ (.lockers ()) = [2] ∧
        ∃ f n w, s.wakeup f = some n ∧ s.parked f = some w ∧ w.queue? = some (.lockers ()) ∧
          f ∈ s.run_queue_ := by
  obtain ⟨h, s, hrun, hp⟩ := exists_trace_of_play
    (init 0 : Sched (Fin 3) Unit Unit Unit Unit)
    [.tick 0, .run, .call (.lock ()), .call (.fiber 1), .call (.fiber 2), .call .yield,
      .tick 0, .run, .call (.lock ()), .tick 0, .run, .call (.lock ()), .tick 0, .run,
        .call (.unlock ())]
    (fun x ↦ x.2.locked_ () = false ∧ x.2.waiters_ (.lockers ()) = [2])
    (by decide +kernel)
  obtain ⟨hfree, hwaiters⟩ := of_decide_eq_true hp
  have hne : s.waiters_ (.lockers ()) ≠ [] := by
    rw [hwaiters]
    exact List.cons_ne_nil 2 []
  exact ⟨h, s, hrun, hwaiters, (mutex_held hrun).2.2.2 () hfree hne⟩

end Cactus
end ManyTasks
