import ManyTasks.Cactus.Queues

/-!
# Timeouts

A `TimeoutGuard` that expires sets a flag of its fiber, and `Park` throws when it finds the flag
set, unless the fiber is guarded.  The flag does not say which guard has set it, nor how many, and
it stays when the guard is destroyed.  So `Park` may throw for a guard that is gone
(`timeout_out_of_scope`), and of two guards that have expired one may be forgotten
(`timeout_forgotten`).

Both are shown not to happen otherwise.

* `timeout_in_scope`: if no fiber leaves the scope of the last guard that has expired while the flag
  is set, then `Park` throws `TimeoutException` only when some guard has expired and is not
  destroyed.
* `timeout_thrown`: if no guard expires while the exception for another one is still owed, then
  `Park` throws as long as an exception is owed.

What is about timeouts in the state is its `Timing`.  Most of what fibers do to it is `Quiet`; only
the end of a guard and its expiration are not.
-/

set_option autoImplicit false
set_option linter.unusedSectionVars false

namespace ManyTasks
namespace Cactus

variable {F G Q M S : Type}

open Function (update)

/-! ## What is about timeouts -/

/-- An exception that `Park` has thrown. -/
def Event.threw? : Event F G → Option (F × Exc × List ℕ)
  | .threw f e expired => some (f, e, expired)
  | _ => none

/-- The part of the state that is about timeouts. -/
structure Timing (F : Type) where
  timedout_ : F → Bool
  canceled_ : F → Bool
  scopes : F → List Scope
  timers_ : List (Timer F)
  timers : ℕ
  owed : F → List ℕ
  throws : List (F × Exc × List ℕ)

def Sched.timing (s : Sched F G Q M S) : Timing F where
  timedout_ := s.timedout_
  canceled_ := s.canceled_
  scopes := s.scopes
  timers_ := s.timers_
  timers := s.timers
  owed := s.owed
  throws := s.log.filterMap Event.threw?

/-- The guard has expired and is not destroyed. -/
def Timing.Expired (τ : Timing F) (f : F) (i : ℕ) : Prop :=
  .timeoutGuard i ∈ τ.scopes f ∧ ∀ t ∈ τ.timers_, t.id ≠ i

theorem mem_expired {s : Sched F G Q M S} {f : F} {i : ℕ} :
    i ∈ expired s f ↔ s.timing.Expired f i := by
  rw [expired, List.mem_filterMap, Timing.Expired]
  constructor
  · rintro ⟨x, hx, heq⟩
    cases x with
    | timeoutGuard timer =>
      simp only [List.any_eq_true, beq_iff_eq] at heq
      split at heq
      · cases heq
      · rename_i hnot
        obtain rfl := Option.some.inj heq
        exact ⟨hx, fun t ht hid ↦ hnot ⟨t, ht, hid⟩⟩
    | cancelGuard saved => cases heq
  · rintro ⟨hmem, hnot⟩
    refine ⟨_, hmem, ?_⟩
    simp only [List.any_eq_true, beq_iff_eq]
    rw [if_neg]
    rintro ⟨t, ht, hid⟩
    exact hnot t ht hid

variable [DecidableEq F]

/-- What can happen to it, apart from the end and the expiration of guards. -/
inductive Quiet : Timing F → Timing F → Prop where
  | cancel (τ : Timing F) (f : F) : Quiet τ { τ with canceled_ := update τ.canceled_ f true }
  | throwCanceled (τ : Timing F) (f : F) (l : List ℕ) :
      Quiet τ { τ with throws := τ.throws ++ [(f, .canceled, l)] }
  | throwTimeout (τ : Timing F) (f : F) (l : List ℕ) (hflag : τ.timedout_ f = true)
      (hcanceled : τ.canceled_ f = false) (hl : ∀ i, τ.Expired f i → i ∈ l) :
      Quiet τ { τ with
        timedout_ := update τ.timedout_ f false,
        owed := update τ.owed f (τ.owed f).tail,
        throws := τ.throws ++ [(f, .timeout, l)] }
  | scope (τ : Timing F) (f : F) (l : List Scope)
      (hl : ∀ i, .timeoutGuard i ∈ l ↔ .timeoutGuard i ∈ τ.scopes f) :
      Quiet τ { τ with scopes := update τ.scopes f l }
  | sleep (τ : Timing F) (f : F) (deadline : ℕ) :
      Quiet τ { τ with
        timers_ := τ.timers_ ++ [⟨τ.timers, deadline, f, false⟩],
        timers := τ.timers + 1 }
  | wake (τ : Timing F) (p : Timer F → Bool) : Quiet τ { τ with timers_ := τ.timers_.filter p }
  | guard (τ : Timing F) (f : F) (deadline : ℕ) :
      Quiet τ { τ with
        scopes := update τ.scopes f (.timeoutGuard τ.timers :: τ.scopes f),
        timers_ := τ.timers_ ++ [⟨τ.timers, deadline, f, true⟩],
        timers := τ.timers + 1 }

/-- Some of these one after the other. -/
def Quietly (τ τ' : Timing F) : Prop := Relation.ReflTransGen Quiet τ τ'

theorem Quietly.of_eq {τ τ' : Timing F} (h : τ' = τ) : Quietly τ τ' := h ▸ .refl

variable [DecidableEq G] [DecidableEq Q] [DecidableEq M] [DecidableEq S]

section

variable (s : Sched F G Q M S) (f : F) (q : Waiters Q M)

theorem timing_log (e : Event F G) (he : e.threw? = none) :
    ({ s with log := s.log ++ [e] } : Sched F G Q M S).timing = s.timing := by
  simp [Sched.timing, he]

theorem timing_notify (n : ℕ) : (notify q n s).timing = s.timing := by
  unfold notify
  split
  · exact timing_log s _ rfl
  · rw [unpark_eq]
    rfl

theorem timing_notifyOne : (notifyOne q s).timing = s.timing := by
  unfold notifyOne
  split
  · rfl
  · exact timing_notify { s with notifications := s.notifications + 1 } q s.notifications

theorem timing_passWakeup : (passWakeup f q s).timing = s.timing := by
  unfold passWakeup
  split
  · exact timing_notify s q _
  · rfl

theorem timing_leaveWait : (leaveWait f q s).timing = s.timing := by
  unfold leaveWait
  split
  · exact timing_log (unlink f q s) _ rfl
  · rfl

theorem timing_raise {e : Exc} (he : pendingExc s f = some e) :
    Quietly s.timing (raise f e s).timing := by
  unfold pendingExc at he
  split_ifs at he with hguard hcanceled htimedout
  · obtain rfl := Option.some.inj he
    refine .single ?_
    have heq : (raise f .canceled s).timing =
        { s.timing with throws := s.timing.throws ++ [(f, .canceled, expired s f)] } := by
      simp [raise, Sched.timing, Event.threw?]
    rw [heq]
    exact .throwCanceled _ f _
  · obtain rfl := Option.some.inj he
    refine .single ?_
    have heq : (raise f .timeout s).timing =
        { s.timing with
          timedout_ := update s.timedout_ f false,
          owed := update s.owed f (s.owed f).tail,
          throws := s.timing.throws ++ [(f, .timeout, expired s f)] } := by
      simp [raise, Sched.timing, Event.threw?]
    rw [heq]
    exact .throwTimeout _ f _ htimedout (Bool.eq_false_of_not_eq_true hcanceled)
      fun i hi ↦ mem_expired.mpr hi

end

/-- What a fiber does is `Quiet`. -/
theorem Change.timing {strict : Prop} {f : F} {r r' : Phase F G Q M S × Sched F G Q M S}
    (h : Change strict f r r') : Quietly r.2.timing r'.2.timing := by
  cases h with
  | yield => rw [unpark_eq]; exact .refl
  | sleep deadline => exact .single (.sleep _ f deadline)
  | raise w e hx he => exact timing_raise _ f he
  | pass w q hw => exact .of_eq (timing_passWakeup _ f q)
  | wake timer hx => exact .single (.wake _ _)
  | cleanup w hx hw hs => cases w <;> exact .refl
  | leaveWait w q hw => exact .of_eq (timing_leaveWait _ f q)
  | @joined s c saved => exact .of_eq (timing_log (restore f saved s) _ rfl)
  | @groupJoined s g saved => exact .of_eq (timing_log (restore f saved s) _ rfl)
  | unlock m hm => exact .of_eq (timing_notifyOne _ _)
  | notifyOne q => exact .of_eq (timing_notifyOne _ q)
  | fdReset slot => rw [unpark?_eq]; exact .refl
  | fiber c hc => rw [newFiber, unpark_eq]; exact .refl
  | spawn g c hc hg hstrict => rw [Cactus.spawn, newFiber, unpark_eq]; exact .refl
  | @destroyDead s c hc hdead => exact .of_eq (timing_log s _ rfl)
  | @destroyEmpty s g hg hempty => exact .of_eq (timing_log s _ rfl)
  | cancelFiber c hc => rw [cancel_eq]; exact .single (.cancel _ c)
  | cancelMember g c hc hf => rw [cancel_eq]; exact .single (.cancel _ c)
  | timeoutGuard duration => exact .single (.guard _ f _)
  | cancelGuard =>
    refine .single (.scope _ f _ fun i ↦ ?_)
    simp [Sched.timing]
  | _ => exact .refl

theorem Ran.timing {strict : Prop} {f : F} {r : Phase F G Q M S × Sched F G Q M S}
    {s : Sched F G Q M S} (h : Ran strict f r s) : Quietly r.2.timing s.timing := by
  have hchanges {r' : Phase F G Q M S × Sched F G Q M S} (h : Changes strict f r r') :
      Quietly r.2.timing r'.2.timing := by
    induction h with
    | refl => exact .refl
    | tail _ hlast ih => exact .trans ih hlast.timing
  cases h with
  | returns h => exact hchanges h
  | parks h _ => exact hchanges h

/-! ## What a step does -/

/-- The end of the scope of a guard. -/
def Timing.endGuard (τ : Timing F) (f : F) (i : ℕ) (rest : List Scope) : Timing F :=
  { τ with scopes := update τ.scopes f rest, owed := update τ.owed f ((τ.owed f).erase i),
           timers_ := τ.timers_.filter fun t ↦ t.id ≠ i }

/-- The expiration of a guard. -/
def Timing.expireGuard (τ : Timing F) (f : F) (i : ℕ) : Timing F :=
  { τ with timedout_ := update τ.timedout_ f true, owed := update τ.owed f (τ.owed f ++ [i]),
           timers_ := τ.timers_.filter fun t ↦ t.id ≠ i }

/-- What a step does: nothing but `Quiet` changes, or a guard ends, or it expires. -/
theorem Step.timing {s s' : Sched F G Q M S} {a : Action F G Q M S} (h : Step s a s') :
    Quietly s.timing s'.timing ∨
      (a = .call .endScope ∧ ∃ f i rest, s.loop = .fiber f ∧
        s.scopes f = .timeoutGuard i :: rest ∧ s'.timing = s.timing.endGuard f i rest) ∨
      ∃ t ∈ s.timers_, a = .expire t.id ∧ t.guard = true ∧
        s'.timing = s.timing.expireGuard t.fiber t.id := by
  have hmove : Move False s a s' := h.move fun hfalse ↦ hfalse.elim
  cases hmove with
  | call hloop hran => exact .inl hran.timing
  | @endScope f hloop =>
    dsimp only [endScope]
    split
    · exact .inl .refl
    · rename_i i rest hscopes
      exact .inr (.inl ⟨rfl, f, i, rest, hloop, hscopes, rfl⟩)
    · rename_i saved rest hscopes
      refine .inl (.single (.scope _ f _ fun i ↦ ?_))
      simp [Sched.timing, hscopes]
  | @finish f error hloop hscopes =>
    obtain ⟨e, r, heq, -⟩ := finish_eq f s error
    rw [heq]
    exact .inl .refl
  | event slot hloop =>
    rw [unpark?_eq]
    exact .inl .refl
  | tick d hloop => exact .inl .refl
  | @expire t hloop ht =>
    by_cases hguard : t.guard = true
    · refine .inr (.inr ⟨t, ht, rfl, hguard, ?_⟩)
      rw [onExpired, if_pos hguard, notifyTimeout_eq]
      rfl
    · left
      rw [onExpired, if_neg hguard, unpark_eq]
      exact .single (.wake _ _)
  | idle hloop => exact .inl .refl
  | resume hloop hqueue hw hran => exact .inl hran.timing
  | start hloop hqueue hw => exact .inl .refl

/-! ## The timers of guards -/

/-- A guard whose timer is active is on the stack of its fiber, and new timers are new. -/
structure Scoped (τ : Timing F) : Prop where
  scopes_lt : ∀ f i, .timeoutGuard i ∈ τ.scopes f → i < τ.timers
  guard : ∀ t ∈ τ.timers_, t.guard = true → .timeoutGuard t.id ∈ τ.scopes t.fiber

/-- Nothing but its end brings a guard back. -/
theorem Quiet.expired {τ τ' : Timing F} (h : Quiet τ τ')
    (hlt : ∀ f i, .timeoutGuard i ∈ τ.scopes f → i < τ.timers) {f : F} {i : ℕ}
    (hi : τ.Expired f i) : τ'.Expired f i := by
  obtain ⟨hscope, htimer⟩ := hi
  cases h with
  | cancel g => exact ⟨hscope, htimer⟩
  | throwCanceled g l => exact ⟨hscope, htimer⟩
  | throwTimeout g l hflag hcanceled hl => exact ⟨hscope, htimer⟩
  | scope g l hl =>
    refine ⟨?_, htimer⟩
    by_cases hg : f = g
    · subst hg
      show _ ∈ update τ.scopes f l f
      rw [Function.update_self]
      exact (hl i).mpr hscope
    · show _ ∈ update τ.scopes g l f
      rw [Function.update_of_ne hg]
      exact hscope
  | sleep g deadline =>
    refine ⟨hscope, fun t ht ↦ ?_⟩
    rcases List.mem_append.mp ht with ht | ht
    · exact htimer t ht
    · rw [List.mem_singleton.mp ht]
      exact Nat.ne_of_gt (hlt f i hscope)
  | wake p => exact ⟨hscope, fun t ht ↦ htimer t (List.mem_of_mem_filter ht)⟩
  | guard g deadline =>
    refine ⟨?_, fun t ht ↦ ?_⟩
    · by_cases hg : f = g
      · subst hg
        show _ ∈ update τ.scopes f _ f
        rw [Function.update_self]
        exact List.mem_cons_of_mem _ hscope
      · show _ ∈ update τ.scopes g _ f
        rw [Function.update_of_ne hg]
        exact hscope
    · rcases List.mem_append.mp ht with ht | ht
      · exact htimer t ht
      · rw [List.mem_singleton.mp ht]
        exact Nat.ne_of_gt (hlt f i hscope)

theorem Scoped.quiet {τ τ' : Timing F} (hinv : Scoped τ) (h : Quiet τ τ') : Scoped τ' := by
  obtain ⟨hlt, hguard⟩ := hinv
  cases h with
  | scope f l hl =>
    have hmem (g : F) (i : ℕ) :
        .timeoutGuard i ∈ update τ.scopes f l g ↔ .timeoutGuard i ∈ τ.scopes g := by
      by_cases hgf : g = f
      · subst hgf
        rw [Function.update_self]
        exact hl i
      · rw [Function.update_of_ne hgf]
    exact ⟨fun g i hi ↦ hlt g i ((hmem g i).mp hi), fun t ht hg ↦ (hmem _ _).mpr (hguard t ht hg)⟩
  | sleep f deadline =>
    refine ⟨fun g i hi ↦ Nat.lt_succ_of_lt (hlt g i hi), fun t ht hg ↦ ?_⟩
    rcases List.mem_append.mp ht with ht | ht
    · exact hguard t ht hg
    · rw [List.mem_singleton.mp ht] at hg
      cases hg
  | wake p => exact ⟨hlt, fun t ht hg ↦ hguard t (List.mem_of_mem_filter ht) hg⟩
  | guard f deadline =>
    refine ⟨fun g i hi ↦ ?_, fun t ht hg ↦ ?_⟩
    · change _ ∈ update τ.scopes f _ g at hi
      show i < τ.timers + 1
      by_cases hgf : g = f
      · rw [hgf, Function.update_self] at hi
        rcases List.mem_cons.mp hi with heq | hi
        · rw [Scope.timeoutGuard.inj heq]
          exact Nat.lt_succ_self _
        · exact Nat.lt_succ_of_lt (hlt f i hi)
      · rw [Function.update_of_ne hgf] at hi
        exact Nat.lt_succ_of_lt (hlt g i hi)
    · show _ ∈ update τ.scopes f _ t.fiber
      rcases List.mem_append.mp ht with ht | ht
      · by_cases htf : t.fiber = f
        · rw [htf, Function.update_self]
          exact List.mem_cons_of_mem _ (htf ▸ hguard t ht hg)
        · rw [Function.update_of_ne htf]
          exact hguard t ht hg
      · rw [List.mem_singleton.mp ht, Function.update_self]
        exact List.mem_cons_self
  | _ => exact ⟨hlt, hguard⟩

/-- The other guards stay when one ends. -/
theorem mem_endGuard {τ : Timing F} {f : F} {i : ℕ} {rest : List Scope}
    (hscopes : τ.scopes f = .timeoutGuard i :: rest) {g : F} {j : ℕ}
    (hj : .timeoutGuard j ∈ τ.scopes g) (hne : g ≠ f ∨ j ≠ i) :
    .timeoutGuard j ∈ (τ.endGuard f i rest).scopes g := by
  show _ ∈ update τ.scopes f rest g
  by_cases hg : g = f
  · subst hg
    rw [hscopes] at hj
    rw [Function.update_self]
    refine (List.mem_cons.mp hj).resolve_left fun heq ↦ ?_
    exact hne.elim (fun h ↦ h rfl) fun h ↦ h (Scope.timeoutGuard.inj heq)
  · rw [Function.update_of_ne hg]
    exact hj

theorem expired_endGuard {τ : Timing F} {f : F} {i : ℕ} {rest : List Scope}
    (hscopes : τ.scopes f = .timeoutGuard i :: rest) {g : F} {j : ℕ} (hj : τ.Expired g j)
    (hne : g ≠ f ∨ j ≠ i) : (τ.endGuard f i rest).Expired g j :=
  ⟨mem_endGuard hscopes hj.1 hne, fun t ht ↦ hj.2 t (List.mem_of_mem_filter ht)⟩

theorem Scoped.endGuard {τ : Timing F} (hinv : Scoped τ) {f : F} {i : ℕ} {rest : List Scope}
    (hscopes : τ.scopes f = .timeoutGuard i :: rest) : Scoped (τ.endGuard f i rest) := by
  refine ⟨fun g j hj ↦ ?_, fun t ht hg ↦ ?_⟩
  · change _ ∈ update τ.scopes f rest g at hj
    by_cases hg : g = f
    · rw [hg, Function.update_self] at hj
      refine hinv.scopes_lt f j ?_
      rw [hscopes]
      exact List.mem_cons_of_mem _ hj
    · rw [Function.update_of_ne hg] at hj
      exact hinv.scopes_lt g j hj
  · obtain ⟨hold, hid⟩ := List.mem_filter.mp ht
    exact mem_endGuard hscopes (hinv.guard t hold hg) (.inr (of_decide_eq_true hid))

theorem Scoped.expireGuard {τ : Timing F} (hinv : Scoped τ) (f : F) (i : ℕ) :
    Scoped (τ.expireGuard f i) :=
  ⟨hinv.scopes_lt, fun t ht ↦ hinv.guard t (List.mem_of_mem_filter ht)⟩

/-- A guard that expires is not destroyed. -/
theorem Scoped.expired {τ : Timing F} (hinv : Scoped τ) {t : Timer F} (ht : t ∈ τ.timers_)
    (hg : t.guard = true) : (τ.expireGuard t.fiber t.id).Expired t.fiber t.id :=
  ⟨hinv.guard t ht hg, fun _ ht' ↦ of_decide_eq_true (List.mem_filter.mp ht').2⟩

theorem expired_expireGuard {τ : Timing F} {f g : F} {i j : ℕ} (hj : τ.Expired g j) :
    (τ.expireGuard f i).Expired g j :=
  ⟨hj.1, fun t ht ↦ hj.2 t (List.mem_of_mem_filter ht)⟩

theorem scoped_init (main : F) : Scoped (init main : Sched F G Q M S).timing :=
  ⟨fun _ _ h ↦ absurd h List.not_mem_nil, fun _ h ↦ absurd h List.not_mem_nil⟩

theorem Scoped.step {s s' : Sched F G Q M S} {a : Action F G Q M S} (hinv : Scoped s.timing)
    (h : Step s a s') : Scoped s'.timing := by
  rcases h.timing with hquiet | ⟨-, f, i, rest, -, hscopes, heq⟩ | ⟨t, -, -, -, heq⟩
  · exact Lib.invariant_of_step hquiet hinv fun _ _ hinv hstep ↦ hinv.quiet hstep
  · exact heq ▸ hinv.endGuard hscopes
  · exact heq ▸ hinv.expireGuard _ _

/-! ## A timeout is thrown in the scope of a guard -/

/-- While the flag is set, some guard has expired and is not destroyed. -/
structure InScope (τ : Timing F) : Prop extends Scoped τ where
  flag : ∀ f, τ.timedout_ f = true → τ.canceled_ f = false → ∃ i, τ.Expired f i
  throws : ∀ x ∈ τ.throws, x.2.1 = .timeout → x.2.2 ≠ []

theorem InScope.quiet {τ τ' : Timing F} (hinv : InScope τ) (h : Quiet τ τ') : InScope τ' := by
  refine ⟨hinv.toScoped.quiet h, fun g hg hc ↦ ?_, fun x hx htimeout ↦ ?_⟩
  · suffices hold : τ.timedout_ g = true ∧ τ.canceled_ g = false by
      obtain ⟨i, hi⟩ := hinv.flag g hold.1 hold.2
      exact ⟨i, h.expired hinv.scopes_lt hi⟩
    cases h with
    | cancel f =>
      refine ⟨hg, ?_⟩
      change update τ.canceled_ f true g = false at hc
      by_cases hgf : g = f
      · rw [hgf, Function.update_self] at hc
        cases hc
      · rwa [Function.update_of_ne hgf] at hc
    | throwTimeout f l hset hcanceled hl =>
      refine ⟨?_, hc⟩
      change update τ.timedout_ f false g = true at hg
      by_cases hgf : g = f
      · rw [hgf, Function.update_self] at hg
        cases hg
      · rwa [Function.update_of_ne hgf] at hg
    | _ => exact ⟨hg, hc⟩
  · cases h with
    | throwCanceled f l =>
      rcases List.mem_append.mp hx with hx | hx
      · exact hinv.throws x hx htimeout
      · rw [List.mem_singleton.mp hx] at htimeout
        cases htimeout
    | throwTimeout f l hset hcanceled hl =>
      rcases List.mem_append.mp hx with hx | hx
      · exact hinv.throws x hx htimeout
      · obtain ⟨i, hi⟩ := hinv.flag f hset hcanceled
        rw [List.mem_singleton.mp hx]
        exact List.ne_nil_of_mem (hl i hi)
    | _ => exact hinv.throws x hx htimeout

theorem InScope.quietly {τ τ' : Timing F} (hinv : InScope τ) (h : Quietly τ τ') : InScope τ' :=
  Lib.invariant_of_step h hinv fun _ _ hinv hstep ↦ hinv.quiet hstep

/-- The end of a guard, when another one of the fiber has expired or the flag is not set. -/
theorem InScope.endGuard {τ : Timing F} (hinv : InScope τ) {f : F} {i : ℕ} {rest : List Scope}
    (hscopes : τ.scopes f = .timeoutGuard i :: rest)
    (hcond : τ.timedout_ f = true → τ.canceled_ f = false → ∃ j, j ≠ i ∧ τ.Expired f j) :
    InScope (τ.endGuard f i rest) := by
  refine ⟨hinv.toScoped.endGuard hscopes, fun g hg hc ↦ ?_, hinv.throws⟩
  by_cases hgf : g = f
  · subst hgf
    obtain ⟨j, hne, hj⟩ := hcond hg hc
    exact ⟨j, expired_endGuard hscopes hj (.inr hne)⟩
  · obtain ⟨j, hj⟩ := hinv.flag g hg hc
    exact ⟨j, expired_endGuard hscopes hj (.inl hgf)⟩

theorem InScope.expireGuard {τ : Timing F} (hinv : InScope τ) {t : Timer F} (ht : t ∈ τ.timers_)
    (hg : t.guard = true) : InScope (τ.expireGuard t.fiber t.id) := by
  refine ⟨hinv.toScoped.expireGuard _ _, fun f hf hc ↦ ?_, hinv.throws⟩
  by_cases hft : f = t.fiber
  · exact ⟨t.id, hft ▸ hinv.toScoped.expired ht hg⟩
  · change update τ.timedout_ t.fiber true f = true at hf
    rw [Function.update_of_ne hft] at hf
    obtain ⟨i, hi⟩ := hinv.flag f hf hc
    exact ⟨i, expired_expireGuard hi⟩

/-- The step is not the end of the last guard that has expired while the flag of its fiber is set
and the fiber is not canceled. -/
def keepsTimeout (s : Sched F G Q M S) : Action F G Q M S → Bool
  | .call .endScope =>
    match s.loop with
    | .fiber f =>
      match s.scopes f with
      | .timeoutGuard i :: _ => !s.timedout_ f || s.canceled_ f || (expired s f).any (· ≠ i)
      | _ => true
    | _ => true
  | _ => true

theorem inScope_step {s s' : Sched F G Q M S} {a : Action F G Q M S} (hinv : InScope s.timing)
    (h : Step s a s') (hkeeps : keepsTimeout s a = true) : InScope s'.timing := by
  rcases h.timing with hquiet | ⟨rfl, f, i, rest, hloop, hscopes, heq⟩ | ⟨t, ht, -, hguard, heq⟩
  · exact hinv.quietly hquiet
  · rw [heq]
    refine hinv.endGuard hscopes fun hflag hcanceled ↦ ?_
    rw [keepsTimeout, hloop] at hkeeps
    dsimp only at hkeeps
    rw [hscopes, show s.timedout_ f = true from hflag, show s.canceled_ f = false from hcanceled]
      at hkeeps
    obtain ⟨j, hj, hne⟩ := List.any_eq_true.mp hkeeps
    exact ⟨j, of_decide_eq_true hne, mem_expired.mp hj⟩
  · rw [heq]
    exact hinv.expireGuard ht hguard

/-- **Timeouts are thrown in the scope of their guards**, if no fiber leaves the scope of the last
of its guards that have expired while the exception is still pending: whenever `Park` throws
`TimeoutException`, some guard of the fiber has expired and is not destroyed. -/
theorem timeout_in_scope {main : F} {s : Sched F G Q M S}
    {h : List (Sched F G Q M S × Action F G Q M S)} (hrun : Lib.Trace Step (init main) h s)
    (hkeeps : ∀ x ∈ h, keepsTimeout x.1 x.2 = true) {f : F} {l : List ℕ}
    (hthrew : .threw f .timeout l ∈ s.log) : l ≠ [] := by
  have hinit : InScope (init main : Sched F G Q M S).timing :=
    ⟨scoped_init main, (fun _ h ↦ nomatch h), fun _ h ↦ absurd h List.not_mem_nil⟩
  have hinv : InScope s.timing :=
    hrun.invariant_of_forall (C := fun s a ↦ keepsTimeout s a = true)
      (I := fun s ↦ InScope s.timing) hkeeps hinit fun _ _ _ hinv hstep hC ↦
        inScope_step hinv hstep hC
  exact hinv.throws (f, .timeout, l) (List.mem_filterMap.mpr ⟨_, hthrew, rfl⟩) rfl

/-- A guard expires while the fiber sleeps, and `Park` throws. -/
theorem timeout_in_scope_sleep :
    ∃ (h : List (Sched (Fin 1) Unit Unit Unit Unit × Action (Fin 1) Unit Unit Unit Unit))
      (s : Sched (Fin 1) Unit Unit Unit Unit) (l : List ℕ),
      Lib.Trace Step (init 0) h s ∧ .threw 0 .timeout l ∈ s.log ∧ l ≠ [] := by
  obtain ⟨h, s, hrun, hp⟩ := exists_trace_of_play
    (init 0 : Sched (Fin 1) Unit Unit Unit Unit)
    [.tick 0, .run, .call (.timeoutGuard 1), .call (.sleepUntil 9), .tick 5, .expire 0, .run,
      .call .endScope]
    (fun x ↦ (∀ y ∈ x.1, keepsTimeout y.1 y.2 = true) ∧ .threw 0 .timeout [0] ∈ x.2.log)
    (by decide +kernel)
  obtain ⟨hkeeps, hthrew⟩ := of_decide_eq_true hp
  exact ⟨h, s, [0], hrun, hthrew, timeout_in_scope hrun hkeeps hthrew⟩

/-- A guard expires while the fiber sleeps in the scope of a `FiberCancelGuard`; both scopes end,
and then `Yield` throws. -/
theorem timeout_out_of_scope :
    ∃ (h : List (Sched (Fin 1) Unit Unit Unit Unit × Action (Fin 1) Unit Unit Unit Unit))
      (s : Sched (Fin 1) Unit Unit Unit Unit),
      Lib.Trace Step (init 0) h s ∧ .threw 0 .timeout [] ∈ s.log := by
  obtain ⟨h, s, hrun, hp⟩ := exists_trace_of_play
    (init 0 : Sched (Fin 1) Unit Unit Unit Unit)
    [.tick 0, .run, .call (.timeoutGuard 1), .call .cancelGuard, .call (.sleepUntil 3), .tick 5,
      .expire 0, .expire 1, .run, .call .endScope, .call .endScope, .call .yield]
    (fun x ↦ .threw 0 .timeout [] ∈ x.2.log) (by decide +kernel)
  exact ⟨h, s, hrun, of_decide_eq_true hp⟩

/-! ## A timeout that is owed is thrown -/

/-- At most one exception is owed to a fiber, and the flag is set as long as it is. -/
structure Owing (τ : Timing F) : Prop extends Scoped τ where
  single : ∀ f, (τ.owed f).length ≤ 1
  flag : ∀ f, τ.owed f ≠ [] → τ.timedout_ f = true
  expired : ∀ f i, i ∈ τ.owed f → τ.Expired f i

theorem Owing.quiet {τ τ' : Timing F} (hinv : Owing τ) (h : Quiet τ τ') : Owing τ' := by
  have hexpired (f : F) (i : ℕ) (hi : i ∈ τ.owed f) : τ'.Expired f i :=
    h.expired hinv.scopes_lt (hinv.expired f i hi)
  have hscoped := hinv.toScoped.quiet h
  cases h with
  | throwTimeout f l hset hcanceled hl =>
    have hnil : (τ.owed f).tail = [] := by
      rw [← List.length_eq_zero_iff, List.length_tail]
      exact Nat.sub_eq_zero_of_le (hinv.single f)
    have howed (g : F) : update τ.owed f (τ.owed f).tail g = [] ∨
        g ≠ f ∧ update τ.owed f (τ.owed f).tail g = τ.owed g := by
      by_cases hg : g = f
      · exact .inl (by rw [hg, Function.update_self, hnil])
      · exact .inr ⟨hg, Function.update_of_ne hg ..⟩
    refine ⟨hscoped, fun g ↦ ?_, fun g hne ↦ ?_, fun g i hi ↦ ?_⟩
    · rcases howed g with heq | ⟨-, heq⟩
      · exact (congrArg List.length heq).trans_le (Nat.zero_le 1)
      · exact (congrArg List.length heq).trans_le (hinv.single g)
    · rcases howed g with heq | ⟨hg, heq⟩
      · exact absurd heq hne
      · exact (Function.update_of_ne hg ..).trans (hinv.flag g (heq ▸ hne))
    · change i ∈ update τ.owed f (τ.owed f).tail g at hi
      rcases howed g with heq | ⟨-, heq⟩
      · exact absurd (heq ▸ hi) List.not_mem_nil
      · exact hexpired g i (heq ▸ hi)
  | _ => exact ⟨hscoped, hinv.single, hinv.flag, hexpired⟩

theorem Owing.endGuard {τ : Timing F} (hinv : Owing τ) {f : F} {i : ℕ} {rest : List Scope}
    (hscopes : τ.scopes f = .timeoutGuard i :: rest) : Owing (τ.endGuard f i rest) := by
  have howed (g : F) : (τ.endGuard f i rest).owed g = τ.owed g ∧ g ≠ f ∨
      (τ.endGuard f i rest).owed g = (τ.owed f).erase i ∧ g = f := by
    by_cases hg : g = f
    · exact .inr ⟨hg ▸ Function.update_self .., hg⟩
    · exact .inl ⟨Function.update_of_ne hg .., hg⟩
  have hnodup (g : F) : (τ.owed g).Nodup := by
    match τ.owed g, hinv.single g with
    | [], _ => exact List.nodup_nil
    | [x], _ => exact List.nodup_singleton x
  refine ⟨hinv.toScoped.endGuard hscopes, fun g ↦ ?_, fun g hne ↦ ?_, fun g j hj ↦ ?_⟩
  · rcases howed g with ⟨heq, -⟩ | ⟨heq, -⟩
    · exact (congrArg List.length heq).trans_le (hinv.single g)
    · exact (congrArg List.length heq).trans_le ((List.length_erase_le).trans (hinv.single f))
  · rcases howed g with ⟨heq, -⟩ | ⟨heq, rfl⟩
    · exact hinv.flag g (heq ▸ hne)
    · refine hinv.flag g fun hnil ↦ hne ?_
      rw [heq, hnil]
      rfl
  · rcases howed g with ⟨heq, hg⟩ | ⟨heq, rfl⟩
    · exact expired_endGuard hscopes (hinv.expired g j (heq ▸ hj)) (.inl hg)
    · rw [heq, (hnodup g).mem_erase_iff] at hj
      exact expired_endGuard hscopes (hinv.expired g j hj.2) (.inr hj.1)

theorem Owing.expireGuard {τ : Timing F} (hinv : Owing τ) {t : Timer F} (ht : t ∈ τ.timers_)
    (hg : t.guard = true) (hnone : τ.owed t.fiber = []) :
    Owing (τ.expireGuard t.fiber t.id) := by
  have howed (g : F) : (τ.expireGuard t.fiber t.id).owed g = τ.owed g ∧ g ≠ t.fiber ∨
      (τ.expireGuard t.fiber t.id).owed g = [t.id] ∧ g = t.fiber := by
    by_cases hgt : g = t.fiber
    · refine .inr ⟨?_, hgt⟩
      show update τ.owed t.fiber (τ.owed t.fiber ++ [t.id]) g = _
      rw [hgt, Function.update_self, hnone]
      rfl
    · exact .inl ⟨Function.update_of_ne hgt .., hgt⟩
  refine ⟨hinv.toScoped.expireGuard _ _, fun g ↦ ?_, fun g hne ↦ ?_, fun g j hj ↦ ?_⟩
  · rcases howed g with ⟨heq, -⟩ | ⟨heq, -⟩
    · exact (congrArg List.length heq).trans_le (hinv.single g)
    · exact (congrArg List.length heq).le
  · rcases howed g with ⟨heq, hgt⟩ | ⟨-, hgt⟩
    · exact (Function.update_of_ne hgt ..).trans (hinv.flag g (heq ▸ hne))
    · exact hgt ▸ Function.update_self ..
  · rcases howed g with ⟨heq, -⟩ | ⟨heq, rfl⟩
    · exact expired_expireGuard (hinv.expired g j (heq ▸ hj))
    · rw [heq, List.mem_singleton] at hj
      exact hj ▸ hinv.toScoped.expired ht hg

/-- The step is not the expiration of a guard while the exception for another guard of its fiber is
owed. -/
def singleTimeout (s : Sched F G Q M S) : Action F G Q M S → Bool
  | .expire timer => s.timers_.all fun t ↦ t.id ≠ timer ∨ t.guard = false ∨ s.owed t.fiber = []
  | _ => true

theorem Owing.step {s s' : Sched F G Q M S} {a : Action F G Q M S} (hinv : Owing s.timing)
    (h : Step s a s') (hsingle : singleTimeout s a = true) : Owing s'.timing := by
  rcases h.timing with hquiet | ⟨-, f, i, rest, -, hscopes, heq⟩ | ⟨t, ht, rfl, hguard, heq⟩
  · exact Lib.invariant_of_step hquiet hinv fun _ _ hinv hstep ↦ hinv.quiet hstep
  · exact heq ▸ hinv.endGuard hscopes
  · rw [heq]
    refine hinv.expireGuard ht hguard ?_
    rcases of_decide_eq_true (List.all_eq_true.mp hsingle t ht) with hid | hguard' | hnone
    · exact absurd rfl hid
    · rw [hguard] at hguard'
      cases hguard'
    · exact hnone

/-- A fiber that is parked and has an exception pending is woken. -/
def Interrupted (v : View F G Q M S) (s : Sched F G Q M S) : Prop :=
  ∀ g, v.running ≠ some g → v.place g ≠ none → pendingExc s g ≠ none → g ∈ v.queue

/-- The flags of a fiber. -/
def flags (s : Sched F G Q M S) (g : F) : Bool × Bool × Bool :=
  (s.cancel_guarded_ g, s.canceled_ g, s.timedout_ g)

theorem pendingExc_congr {s s' : Sched F G Q M S} {g : F} (h : flags s' g = flags s g) :
    pendingExc s' g = pendingExc s g := by
  obtain ⟨hguarded, hcanceled, htimedout⟩ : _ ∧ _ ∧ _ := by simpa [flags] using h
  rw [pendingExc, pendingExc, hguarded, hcanceled, htimedout]

theorem flags_notify (q : Waiters Q M) (n : ℕ) (s : Sched F G Q M S) :
    flags (notify q n s) = flags s := by
  unfold notify
  split
  · rfl
  · rw [unpark_eq]
    rfl

theorem flags_notifyOne (q : Waiters Q M) (s : Sched F G Q M S) :
    flags (notifyOne q s) = flags s := by
  unfold notifyOne
  split
  · rfl
  · exact flags_notify q _ _

/-- Of another fiber, a change does not touch the flags, or it wakes the fiber if it has to. -/
theorem Change.flags {strict : Prop} {f : F} {x x' : Phase F G Q M S} {s s' : Sched F G Q M S}
    (h : Change strict f (x, s) (x', s')) {g : F} (hg : g ≠ f) :
    flags s' g = flags s g ∨ (pendingExc s' g ≠ none → g ∈ s'.run_queue_) := by
  have hcancel (c : F) : Cactus.flags (cancel c s) g = Cactus.flags s g ∨
      (pendingExc (cancel c s) g ≠ none → g ∈ (cancel c s).run_queue_) := by
    rw [cancel_eq]
    by_cases hgc : g = c
    · subst hgc
      right
      cases hguarded : s.cancel_guarded_ g with
      | true => simp [pendingExc, hguarded]
      | false => exact fun _ ↦ mem_enqueue.mpr (.inr rfl)
    · left
      simp [Cactus.flags, Function.update_of_ne hgc]
  cases h with
  | yield => rw [unpark_eq]; exact .inl rfl
  | join c hc => exact .inl (by simp [Cactus.flags, Function.update_of_ne hg])
  | group c hc hf => exact .inl (by simp [Cactus.flags, Function.update_of_ne hg])
  | raise w e hx he =>
    left
    cases e with
    | canceled => rfl
    | timeout => simp [Cactus.flags, Cactus.raise, Function.update_of_ne hg]
  | pass w q hw =>
    left
    unfold passWakeup
    split
    · exact congrFun (flags_notify q _ s) g
    · rfl
  | cleanup w hx hw hs => cases w <;> exact .inl rfl
  | leaveWait w q hw =>
    left
    unfold Cactus.leaveWait
    split <;> rfl
  | joined c saved =>
    exact .inl (by simp [Cactus.flags, proceed, restore, Cactus.cleanup, Function.update_of_ne hg])
  | groupJoined c saved =>
    exact .inl (by simp [Cactus.flags, proceed, restore, Cactus.cleanup, Function.update_of_ne hg])
  | unlock m hm => exact .inl (congrFun (flags_notifyOne _ _) g)
  | notifyOne q => exact .inl (congrFun (flags_notifyOne q s) g)
  | fdReset slot => rw [unpark?_eq]; exact .inl rfl
  | fiber c hc => rw [newFiber, unpark_eq]; exact .inl rfl
  | spawn h c hc hg hstrict => rw [Cactus.spawn, newFiber, unpark_eq]; exact .inl rfl
  | cancelFiber c hc => exact hcancel c
  | cancelMember h c hc hf => exact hcancel c
  | cancelGuard => exact .inl (by simp [Cactus.flags, call, Function.update_of_ne hg])
  | _ => exact .inl rfl

theorem kept_interrupted :
    Kept False (Interrupted (F := F) (G := G) (Q := Q) (M := M) (S := S)) where
  change {f x x' s s'} h hinv g hrunning hplace hpending := by
    have hg : g ≠ f := fun hgf ↦ hrunning (congrArg some hgf.symm)
    rcases h.flags hg with heq | hwoken
    · rw [pendingExc_congr heq] at hpending
      have hplace' : (x.view f s).place g ≠ none := by
        simp only [Phase.view, Function.update_of_ne hg, h.parked_loop.1] at hplace ⊢
        exact hplace
      exact h.mem_run_queue hg (hinv g hrunning hplace' hpending)
    · exact hwoken hpending
  frame _ _ _ _ hinv := hinv
  park {f w v s} hrunning _ _ hnone hinv g _ hplace hpending := by
    refine hinv g (fun hg ↦ hpending ?_) hplace hpending
    obtain rfl := Option.some.inj (hrunning.symm.trans hg)
    exact hnone
  resume {f w v s rest} hnone _ _ hqueue hinv g hrunning hplace hpending := by
    have hmem := hinv g (hnone ▸ (by simp)) hplace hpending
    rw [hqueue] at hmem
    exact (List.mem_cons.mp hmem).resolve_left fun hgf ↦ hrunning (congrArg some hgf.symm)
  start {f v s rest} hnone _ _ hqueue hinv g hrunning hplace hpending := by
    have hmem := hinv g (hnone ▸ (by simp)) hplace hpending
    rw [hqueue] at hmem
    exact (List.mem_cons.mp hmem).resolve_left fun hgf ↦ hrunning (congrArg some hgf.symm)
  endScope {f s} hloop _ hinv g hrunning hplace hpending := by
    rw [endScope_view] at hrunning hplace ⊢
    have hgf : g ≠ f := by
      rintro rfl
      rw [Sched.view, hloop] at hrunning
      exact hrunning rfl
    have hflags : flags (Cactus.endScope f s) g = flags s g := by
      unfold Cactus.endScope
      split
      · rfl
      · rfl
      · simp [flags, restore, Function.update_of_ne hgf]
    rw [pendingExc_congr hflags] at hpending
    exact hinv g hrunning hplace hpending
  finish {f error s} hloop hparked _ hinv g _ hplace hpending := by
    obtain ⟨e, r, heq, hsub, -⟩ := finish_eq f s error
    rw [heq] at hplace hpending ⊢
    refine hsub g (hinv g (fun hg ↦ hplace ?_) hplace hpending)
    rw [Sched.view, hloop] at hg
    obtain rfl := Option.some.inj hg
    exact hparked
  event _ hinv g hrunning hplace hpending :=
    mem_enqueue?.mpr (.inl (hinv g hrunning hplace hpending))
  expire {t s} _ ht hinv g hrunning hplace hpending := by
    by_cases hguard : t.guard = true
    · rw [onExpired, if_pos hguard, notifyTimeout_eq] at hrunning hplace hpending ⊢
      by_cases hgt : g = t.fiber
      · subst hgt
        cases hguarded : s.cancel_guarded_ t.fiber with
        | true => exact absurd (by simp [pendingExc, deactivate, hguarded]) hpending
        | false => simp [Sched.view, deactivate, hguarded]
      · have hold : g ∈ s.run_queue_ := by
          refine hinv g hrunning hplace ?_
          rwa [pendingExc_congr (s := s)] at hpending
          simp [flags, deactivate, Function.update_of_ne hgt]
        show g ∈ ite _ _ _
        split
        · exact hold
        · exact mem_enqueue.mpr (.inl hold)
    · rw [onExpired, if_neg hguard, unpark_eq] at hrunning hplace hpending ⊢
      exact mem_enqueue.mpr (.inl (hinv g hrunning hplace hpending))

/-- **A timeout that is owed is thrown**, if no guard expires while the exception for another guard
of its fiber is owed.  As long as guards of the fiber have expired, are not destroyed, and have had
no exception, and the fiber is not in the scope of a `FiberCancelGuard`, a `Park` throws and does
not block, and if the fiber is parked already it is woken and throws when it comes back:
`TimeoutException`, or `FiberCanceledException` if the fiber is canceled. -/
theorem timeout_thrown {main : F} {s : Sched F G Q M S}
    {h : List (Sched F G Q M S × Action F G Q M S)} (hrun : Lib.Trace Step (init main) h s)
    (hsingle : ∀ x ∈ h, singleTimeout x.1 x.2 = true) {f : F} (howed : s.owed f ≠ [])
    (hguarded : s.cancel_guarded_ f = false) :
    (∀ i ∈ s.owed f, i ∈ expired s f) ∧
    ∃ e, e = (if s.canceled_ f then .canceled else .timeout) ∧
      (∀ w, park f w s = throwExc f w e s) ∧
      ∀ w, s.parked f = some w → f ∈ s.run_queue_ ∧ unparked f w s = throwExc f w e s := by
  have hinit : Owing (init main : Sched F G Q M S).timing :=
    ⟨scoped_init main, fun _ ↦ Nat.zero_le 1, fun _ hne ↦ absurd rfl hne,
      fun _ _ hi ↦ absurd hi List.not_mem_nil⟩
  have hinv : Owing s.timing :=
    hrun.invariant_of_forall (C := fun s a ↦ singleTimeout s a = true)
      (I := fun s ↦ Owing s.timing) hsingle hinit fun _ _ _ hinv hstep hC ↦ hinv.step hstep hC
  have hflag : s.timedout_ f = true := hinv.flag f howed
  have hpending : pendingExc s f = some (if s.canceled_ f then .canceled else .timeout) := by
    rw [pendingExc, hguarded, hflag]
    cases s.canceled_ f <;> rfl
  obtain ⟨hinterrupted, hunparked⟩ := kept_interrupted.trace hrun (fun hfalse ↦ hfalse.elim)
    (fun g _ hplace ↦ absurd rfl hplace)
  refine ⟨fun i hi ↦ mem_expired.mpr (hinv.expired f i hi), _, rfl, fun w ↦ ?_, fun w hw ↦ ⟨?_, ?_⟩⟩
  · rw [park, hpending]
  · refine hinterrupted f (fun hrunning ↦ ?_) ?_ ?_
    · cases hloop : s.loop with
      | fiber g =>
        rw [Sched.view, hloop] at hrunning
        obtain rfl := Option.some.inj hrunning
        rw [hunparked g hloop] at hw
        cases hw
      | _ =>
        rw [Sched.view, hloop] at hrunning
        cases hrunning
    · show s.parked f ≠ none
      exact hw ▸ Option.some_ne_none w
    · exact hpending ▸ Option.some_ne_none _
  · rw [unparked, hpending]

/-- A guard expires while the fiber sleeps; it is woken, and will throw. -/
theorem timeout_thrown_sleep :
    ∃ (h : List (Sched (Fin 1) Unit Unit Unit Unit × Action (Fin 1) Unit Unit Unit Unit))
      (s : Sched (Fin 1) Unit Unit Unit Unit),
      Lib.Trace Step (init 0) h s ∧ s.owed 0 = [0] ∧ 0 ∈ s.run_queue_ ∧
        unparked 0 (.sleep 1) s = throwExc 0 (.sleep 1) .timeout s := by
  obtain ⟨h, s, hrun, hp⟩ := exists_trace_of_play
    (init 0 : Sched (Fin 1) Unit Unit Unit Unit)
    [.tick 0, .run, .call (.timeoutGuard 1), .call (.sleepUntil 9), .tick 5, .expire 0]
    (fun x ↦ (∀ y ∈ x.1, singleTimeout y.1 y.2 = true) ∧ x.2.owed 0 = [0] ∧
      x.2.cancel_guarded_ 0 = false ∧ x.2.canceled_ 0 = false ∧ x.2.parked 0 = some (.sleep 1))
    (by decide +kernel)
  obtain ⟨hsingle, howed, hguarded, hcanceled, hw⟩ := of_decide_eq_true hp
  have hne : s.owed 0 ≠ [] := by
    rw [howed]
    exact List.cons_ne_nil 0 []
  obtain ⟨-, e, he, -, hparked⟩ := timeout_thrown hrun hsingle hne hguarded
  obtain ⟨hmem, hthrow⟩ := hparked _ hw
  obtain rfl : e = .timeout := by rw [he, hcanceled]; rfl
  exact ⟨h, s, hrun, howed, hmem, hthrow⟩

/-- Two guards expire at once.  One exception is thrown; the fiber catches it in the scopes of both
guards, and the next `Wait` blocks. -/
theorem timeout_forgotten :
    ∃ (h : List (Sched (Fin 1) Unit Unit Unit Unit × Action (Fin 1) Unit Unit Unit Unit))
      (s s' : Sched (Fin 1) Unit Unit Unit Unit),
      Lib.Trace Step (init 0) h s ∧ (expired s 0).length = 2 ∧
        s.log = [.threw 0 .timeout (expired s 0)] ∧ s.owed 0 ≠ [] ∧
        s.cancel_guarded_ 0 = false ∧ s.canceled_ 0 = false ∧
        Step s (.call (.wait ())) s' ∧ s'.parked 0 = some (.wait ()) ∧ s'.run_queue_ = [] := by
  obtain ⟨h, s, hrun, hp⟩ := exists_trace_of_play
    (init 0 : Sched (Fin 1) Unit Unit Unit Unit)
    [.tick 0, .run, .call (.timeoutGuard 1), .call (.timeoutGuard 1), .call (.wait ()), .tick 5,
      .expire 0, .expire 1, .run]
    (fun x ↦ (expired x.2 0).length = 2 ∧ x.2.log = [.threw 0 .timeout (expired x.2 0)] ∧
      x.2.owed 0 ≠ [] ∧ x.2.cancel_guarded_ 0 = false ∧ x.2.canceled_ 0 = false ∧
      (act x.2 (.call (.wait ()))).any fun y ↦ y.parked 0 = some (.wait ()) ∧ y.run_queue_ = [])
    (by decide +kernel)
  obtain ⟨hexpired, hlog, howed, hguarded, hcanceled, hblocks⟩ := of_decide_eq_true hp
  obtain ⟨s', hs', hblocks'⟩ := (Option.any_eq_true _ _).mp hblocks
  obtain ⟨hw, hqueue⟩ := of_decide_eq_true hblocks'
  exact ⟨h, s, s', hrun, hexpired, hlog, howed, hguarded, hcanceled, hs', hw, hqueue⟩

end Cactus
end ManyTasks
