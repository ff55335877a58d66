import ManyTasks.Cactus.Ties

/-!
# Fibers that are alive

A fiber is alive from its creation to its end, and nobody touches it before or after: whoever is
pointed to, parked, in the run queue, in a group or has a scope open is alive (`Alive`).  In
particular nothing that expires, is notified or is canceled puts a fiber into the run queue that has
ended.  The fiber that runs is not in the run queue, unless it has just called `Yield`.

The last holds only while all calls are `careful`: a fiber that destroys itself cancels itself
first.

* `Sound`: this together with where the waiters and the pointers are, kept by every step
  (`kept_sound`).
-/

set_option autoImplicit false
set_option linter.unusedSectionVars false

namespace ManyTasks
namespace Cactus

variable {F G Q M S : Type} [DecidableEq F] [DecidableEq G] [DecidableEq Q] [DecidableEq M]
  [DecidableEq S]

open Function (update)

section

variable {strict : Prop} {f : F} {x x' : Phase F G Q M S} {s s' : Sched F G Q M S}

/-! ## While a fiber runs -/

/-- The fiber has been created and has not ended. -/
def Live (τ : Ties F G S) (g : F) : Prop := τ.state_ g ≠ none ∧ τ.state_ g ≠ some .Dead

/-- Only fibers that are alive are somewhere, and the fiber that runs is not in the run queue,
unless it has just called `Yield`. -/
structure Alive (v : View F G Q M S) (τ : Ties F G S) : Prop where
  nodup : v.queue.Nodup
  idle {g : F} : v.running = some g → g ∈ v.queue → v.phase = .entering .yield
  queue {g : F} : g ∈ v.queue → Live τ g
  place {g : F} : v.place g ≠ none → Live τ g
  running {g : F} : v.running = some g → Live τ g
  member {g : F} {h : G} : g ∈ τ.fibers_ h → Live τ g ∧ τ.group_ g = some h
  fibers (h : G) : (τ.fibers_ h).Nodup
  scope {g : F} : τ.scopes g ≠ [] → Live τ g
  joining {c : F} : v.phase = .joining c → Live τ c
  object {c : F} : τ.object c = true → τ.state_ c ≠ none

/-- Between two fibers nothing is said of the fiber that runs. -/
theorem Alive.of_idle {v : View F G Q M S} {τ : Ties F G S} (hrunning : v.running = none)
    (hphase : v.phase = .free) (hnodup : v.queue.Nodup) (hqueue : ∀ {g}, g ∈ v.queue → Live τ g)
    (hplace : ∀ {g}, v.place g ≠ none → Live τ g)
    (hmember : ∀ {g h}, g ∈ τ.fibers_ h → Live τ g ∧ τ.group_ g = some h)
    (hfibers : ∀ h, (τ.fibers_ h).Nodup) (hscope : ∀ {g}, τ.scopes g ≠ [] → Live τ g)
    (hobject : ∀ {c}, τ.object c = true → τ.state_ c ≠ none) : Alive v τ where
  nodup := hnodup
  idle hg := by simp [hrunning] at hg
  queue := hqueue
  place := hplace
  running hg := by simp [hrunning] at hg
  member := hmember
  fibers := hfibers
  scope := hscope
  joining hc := by simp [hphase] at hc
  object := hobject

/-- A fiber that exists is not changed by others, and does not change its own state, until it
ends. -/
theorem TieChange.state_eq {τ : Ties F G S} (h : TieChange strict f (x, s) (x', τ)) {g : F}
    (hg : s.state_ g ≠ none) : τ.state_ g = s.state_ g := by
  cases h with
  | cleanup w hx hs => cases w <;> rfl
  | fiber c hc =>
    have hgc : g ≠ c := fun hgc ↦ hg (hgc ▸ hc)
    exact Function.update_of_ne hgc ..
  | spawn h c hc hstrict =>
    have hgc : g ≠ c := fun hgc ↦ hg (hgc ▸ hc)
    exact Function.update_of_ne hgc ..
  | _ => rfl

theorem Live.change {τ : Ties F G S} (h : TieChange strict f (x, s) (x', τ)) {g : F}
    (hg : Live s.ties g) : Live τ g := by
  unfold Live
  rw [h.state_eq hg.1]
  exact hg

/-- The fiber that runs wakes itself only by `Yield`. -/
theorem Woken.self (hstrict : strict) {σ : Queues F G Q M} (hσ : σ = s.queues)
    (hplaced : Placed (x.view f s) σ) (htied : Tied (x.view f s) s.ties)
    (hlive : Live s.ties f) (h : Woken strict f x x' s s' f) : x' = .entering .yield := by
  subst hσ
  cases h with
  | yield hg hx => exact hx
  | notified q hg hf =>
    obtain ⟨hat, hnone⟩ := hplaced.waiter hg
    rcases hf with rfl | hn
    · rw [queue?_view_self] at hat
      cases hat
    · exact absurd hnone hn
  | slot slot hg hx =>
    have hat := htied.slot hg
    rw [place_self, hx] at hat
    cases hat
  | canceled hguarded hx hne => exact absurd rfl (hne hstrict)
  | created hg hg' => exact absurd hg hlive.1

theorem Woken.live (hplaced : Placed (x.view f s) s.queues) (htied : Tied (x.view f s) s.ties)
    (halive : Alive (x.view f s) s.ties) {τ : Ties F G S} (hτ : s'.ties = τ)
    (htie : TieChange strict f (x, s) (x', τ)) {g : F} (h : Woken strict f x x' s s' g) :
    Live τ g := by
  cases h with
  | yield hg hx => exact (halive.running (congrArg some hg.symm)).change htie
  | notified q hg hf =>
    refine (halive.place fun hnone ↦ ?_).change htie
    have hat := (hplaced.waiter hg).1
    rw [View.queue?, hnone] at hat
    cases hat
  | slot slot hg hx =>
    refine (halive.place ?_).change htie
    rw [htied.slot hg]
    simp
  | canceled hguarded hx hne =>
    rcases hx with rfl | ⟨h, hmem⟩
    · exact (halive.joining rfl).change htie
    · exact (halive.member hmem).1.change htie
  | created hg hg' =>
    subst hτ
    have hstate : s'.ties.state_ g = some .Ready := hg'
    exact ⟨hstate ▸ (by simp), hstate ▸ (by simp)⟩

/-- Nothing but an exception takes a fiber out of `Yield` before it is parked. -/
theorem Change.entering (h : Change strict f (.entering .yield, s) (x', s')) :
    s'.run_queue_ = s.run_queue_.erase f := by
  cases h with
  | raise w e hx he => cases e <;> rfl
  | link w q hx hw hq => rcases hx with hx | ⟨m, hx, -⟩ <;> cases hx
  | wake timer hx => rcases hx with hx | hx <;> cases hx
  | cleanup w hx hw hs => rcases hx with hx | hx <;> cases hx

section

variable {τ : Ties F G S} (h : Alive (x.view f s) s.ties) (htie : TieChange strict f (x, s) (x', τ))
include h htie

theorem TieChange.member :
    (∀ {g k}, g ∈ τ.fibers_ k → Live τ g ∧ τ.group_ g = some k) ∧ ∀ k, (τ.fibers_ k).Nodup := by
  have hlive {g : F} (hg : Live s.ties g) : Live τ g := hg.change htie
  have hsame (hfibers : τ.fibers_ = s.fibers_) (hgroup : τ.group_ = s.group_) :
      (∀ {g k}, g ∈ τ.fibers_ k → Live τ g ∧ τ.group_ g = some k) ∧
        ∀ k, (τ.fibers_ k).Nodup := by
    rw [hfibers, hgroup]
    exact ⟨fun hg ↦ ⟨hlive (h.member hg).1, (h.member hg).2⟩, h.fibers⟩
  cases htie with
  | cleanup w hx hs => cases w <;> exact hsame rfl rfl
  | @spawn _ k c hc hstrict =>
    have hnot (k' : G) : c ∉ s.fibers_ k' := fun hmem ↦ (h.member hmem).1.1 hc
    refine ⟨fun {g k'} hg ↦ ?_, fun k' ↦ ?_⟩
    · change g ∈ update s.fibers_ k (s.fibers_ k ++ [c]) k' at hg
      have hmem : g ∈ s.fibers_ k' ∨ g = c ∧ k' = k := by
        by_cases hk : k' = k
        · rw [hk, Function.update_self, List.mem_append, List.mem_singleton] at hg
          exact hg.imp (hk ▸ ·) fun hgc ↦ ⟨hgc, hk⟩
        · rw [Function.update_of_ne hk] at hg
          exact .inl hg
      rcases hmem with hold | ⟨rfl, rfl⟩
      · obtain ⟨holdlive, hgroup⟩ := h.member hold
        have hgc : g ≠ c := fun hgc ↦ hnot k' (hgc ▸ hold)
        exact ⟨hlive holdlive, (Function.update_of_ne hgc ..).trans hgroup⟩
      · refine ⟨?_, Function.update_self ..⟩
        show update s.state_ g _ g ≠ none ∧ update s.state_ g _ g ≠ some .Dead
        rw [Function.update_self]
        exact ⟨nofun, nofun⟩
    · show (update s.fibers_ k (s.fibers_ k ++ [c]) k').Nodup
      by_cases hk : k' = k
      · rw [hk, Function.update_self]
        exact (h.fibers k).append (List.nodup_singleton c) (List.disjoint_singleton.mpr (hnot k))
      · rw [Function.update_of_ne hk]
        exact h.fibers k'
  | _ => exact hsame rfl rfl

theorem TieChange.scope {g : F} (hg : τ.scopes g ≠ []) : Live τ g := by
  by_cases hgf : g = f
  · exact hgf ▸ (h.running rfl).change htie
  · refine (h.scope fun hnil ↦ hg ?_).change htie
    cases htie with
    | cleanup w hx hs => cases w <;> exact hnil
    | timeoutGuard deadline => exact (Function.update_of_ne hgf ..).trans hnil
    | cancelGuard => exact (Function.update_of_ne hgf ..).trans hnil
    | _ => exact hnil

theorem TieChange.joining {c : F} (hc : x' = .joining c) : Live τ c := by
  refine Live.change htie ?_
  cases htie with
  | other hplace hjoining hclosing => exact h.joining (hjoining c hc)
  | destroyFiber c' hc' hdead =>
    obtain rfl := Phase.joining.inj hc
    exact ⟨h.object hc', hdead⟩
  | _ => cases hc

theorem TieChange.object {c : F} (hc : τ.object c = true) : τ.state_ c ≠ none := by
  have hsame (hold : s.object c = true) : τ.state_ c ≠ none := by
    have hstate : s.state_ c ≠ none := h.object hold
    rw [htie.state_eq hstate]
    exact hstate
  have hdestroyed (c' : F) (hc : update s.object c' false c = true) : s.object c = true := by
    by_cases hcc : c = c'
    · rw [hcc, Function.update_self] at hc
      cases hc
    · rwa [Function.update_of_ne hcc] at hc
  cases htie with
  | cleanup w hx hs => cases w <;> exact hsame hc
  | fiber c' hc' =>
    by_cases hcc : c = c'
    · show update s.state_ c' _ c ≠ none
      rw [hcc, Function.update_self]
      exact nofun
    · exact hsame ((Function.update_of_ne hcc ..).symm.trans hc)
  | destroyFiber c' hc' hdead => exact hsame (hdestroyed c' hc)
  | destroyDead c' hdead => exact hsame (hdestroyed c' hc)
  | _ => exact hsame hc

end

/-- **One change** keeps the fibers alive, if the call is `careful`. -/
theorem Alive.change (hstrict : strict) (h : Alive (x.view f s) s.ties)
    (hplaced : Placed (x.view f s) s.queues) (htied : Tied (x.view f s) s.ties)
    (hchange : Change strict f (x, s) (x', s')) : Alive (x'.view f s') s'.ties := by
  obtain ⟨hparked, -⟩ := hchange.parked_loop
  obtain ⟨hnodup, hqueue⟩ := hchange.run_queue
  have htie := hchange.tieChange
  have hlive {g : F} (hg : Live s.ties g) : Live s'.ties g := hg.change htie
  have hf : Live s.ties f := h.running rfl
  have hplace {g : F} (hg : (x'.view f s').place g ≠ none) : Live s'.ties g := by
    by_cases hgf : g = f
    · exact hgf ▸ hlive hf
    · rw [place_of_ne hgf hparked] at hg
      exact hlive (h.place hg)
  have hidle {g : F} (hg : some f = some g) (hmem : g ∈ s'.run_queue_) :
      x' = .entering .yield := by
    obtain rfl := Option.some.inj hg
    rcases hqueue f hmem with hold | hwoken
    · obtain rfl : x = .entering .yield := h.idle rfl hold
      rw [hchange.entering] at hmem
      exact absurd rfl (((show s.run_queue_.Nodup from h.nodup).mem_erase_iff.mp hmem).1)
    · exact hwoken.self hstrict rfl hplaced htied hf
  obtain ⟨hmember, hfibers⟩ := htie.member h
  exact ⟨hnodup h.nodup, hidle, fun hg ↦ (hqueue _ hg).elim (fun hold ↦ hlive (h.queue hold))
      fun hwoken ↦ hwoken.live hplaced htied h rfl htie, hplace,
    fun hg ↦ Option.some.inj hg ▸ hlive hf, hmember, hfibers, htie.scope h, htie.joining h,
    htie.object h⟩

end

/-! ## What the scheduler does -/

section

variable {v v' : View F G Q M S} {τ τ' : Ties F G S}

/-- Fibers are woken that are alive. -/
theorem Alive.wake (h : Alive v τ) {r : List F} (hrunning : v.running = none) (hnodup : r.Nodup)
    (hlive : ∀ g ∈ r, Live τ g) : Alive { v with queue := r } τ where
  nodup := hnodup
  idle hg := nomatch hrunning.symm.trans hg
  queue hg := hlive _ hg
  place := h.place
  running := h.running
  member := h.member
  fibers := h.fibers
  scope := h.scope
  joining := h.joining
  object := h.object

/-- The pointers do not matter. -/
theorem Alive.untie (h : Alive v τ) (slots : S → Option F) (ts : List (Timer F)) :
    Alive v { τ with slot_ := slots, timers_ := ts } :=
  ⟨h.nodup, h.idle, h.queue, h.place, h.running, h.member, h.fibers, h.scope, h.joining, h.object⟩

theorem Tied.untie (h : Tied v τ) (slots : S → Option F) (ts : List (Timer F))
    (hslots : ∀ {slot g}, slots slot = some g → τ.slot_ slot = some g)
    (hts : ∀ t ∈ ts, t ∈ τ.timers_) : Tied v { τ with slot_ := slots, timers_ := ts } :=
  ⟨fun hg ↦ h.slot (hslots hg), h.groupWaiter, fun ht ↦ h.sleeper (hts _ ht), h.waiter, h.joiner⟩

/-- A fiber is parked. -/
theorem Alive.park (h : Alive v τ) : Alive { v with running := none, phase := .free } τ :=
  ⟨h.nodup, nofun, h.queue, h.place, nofun, h.member, h.fibers, h.scope, nofun, h.object⟩

/-- The first fiber of the run queue is run. -/
theorem Alive.run (h : Alive v τ) {f : F} {rest : List F} (hqueue : v.queue = f :: rest)
    {x : Phase F G Q M S} (hx : ∀ c, x ≠ .joining c) :
    Alive { v with running := some f, queue := rest, phase := x } τ := by
  have hnodup : (f :: rest).Nodup := hqueue ▸ h.nodup
  have hmem {g : F} (hg : g ∈ f :: rest) : Live τ g := h.queue (hqueue ▸ hg)
  refine ⟨(List.nodup_cons.mp hnodup).2, fun hg hrest ↦ ?_, fun hg ↦
    hmem (List.mem_cons_of_mem f hg), h.place, fun hg ↦ ?_, h.member, h.fibers, h.scope, fun hc ↦
    absurd hc (hx _), h.object⟩
  · obtain rfl := Option.some.inj hg
    exact absurd hrest (List.nodup_cons.mp hnodup).1
  · obtain rfl := Option.some.inj hg
    exact hmem List.mem_cons_self

/-- Fibers change their state, but none of them ends that is somewhere. -/
theorem Alive.states (h : Alive v τ) {st : F → Option FiberState}
    (hlive : ∀ {g}, Live τ g → Live { τ with state_ := st } g)
    (hst : ∀ {g}, τ.state_ g ≠ none → st g ≠ none) : Alive v { τ with state_ := st } :=
  ⟨h.nodup, h.idle, fun hg ↦ hlive (h.queue hg), fun hg ↦ hlive (h.place hg), fun hg ↦
    hlive (h.running hg), fun hg ↦ ⟨hlive (h.member hg).1, (h.member hg).2⟩, h.fibers, fun hg ↦
    hlive (h.scope hg), fun hc ↦ hlive (h.joining hc), fun hc ↦ hst (h.object hc)⟩

end

/-- All that is true of places, pointers and fibers in every run of `careful` calls. -/
structure Sound (v : View F G Q M S) (s : Sched F G Q M S) : Prop where
  placed : Placed v s.queues
  timers : Scoped s.timing
  tied : Tied v s.ties
  alive : Alive v s.ties

theorem kept_placed (strict : Prop) :
    Kept strict (fun v (s : Sched F G Q M S) ↦ Placed v s.queues) :=
  .of_queues (P := Placed) (fun h hinv ↦ hinv.change h)
    fun h _ hphase hplace hup ↦ h.of_view hphase hplace hup

section

variable {f : F} {s : Sched F G Q M S}

theorem Scoped.endScope (h : Scoped s.timing) : Scoped (endScope f s).timing := by
  unfold Cactus.endScope
  split
  · exact h
  · rename_i i rest hscopes
    exact h.endGuard hscopes
  · rename_i saved rest hscopes
    refine h.quiet (.scope _ f _ fun i ↦ ?_)
    simp [Sched.timing, hscopes]

theorem Sound.endScope (h : Sound s.view s) (hloop : s.loop = .fiber f) :
    Sound (endScope f s).view (endScope f s) := by
  refine ⟨?_, h.timers.endScope, ?_, ?_⟩
  · rw [endScope_view]
    unfold Cactus.endScope
    split <;> exact h.placed
  all_goals
    obtain ⟨saved, l, o, ts, heq, hts⟩ := endScope_eq f s
    rw [heq]
  · obtain ⟨hslot, hgroupWaiter, hsleeper, hwaiter, hjoiner⟩ := h.tied
    exact ⟨hslot, hgroupWaiter, fun ht ↦ hsleeper (hts _ ht), hwaiter, hjoiner⟩
  · have hrunning : s.view.running = some f := by rw [Sched.view, hloop]; rfl
    obtain ⟨hnodup, hidle, hqueue, hplace, hrun, hmember, hfibers, hscope, hjoining, hobject⟩ :=
      h.alive
    refine ⟨hnodup, hidle, hqueue, hplace, hrun, hmember, hfibers, fun {g} hg ↦ ?_, hjoining,
      hobject⟩
    by_cases hgf : g = f
    · rw [hgf]
      exact hrun hrunning
    · exact hscope ((Function.update_of_ne hgf ..).symm.trans_ne hg)

/-- Whoever is woken by the end of a fiber is parked. -/
theorem Wakes.place (h : Tied s.view s.ties) {g : F} (hg : Wakes f s g) : s.parked g ≠ none := by
  rcases hg with hg | ⟨k, -, ⟨-, hg⟩ | hg⟩
  · obtain ⟨b, hb⟩ := h.waiter hg
    exact fun hnone ↦ nomatch hb.symm.trans hnone
  · obtain ⟨b, hb⟩ := h.joiner hg
    exact fun hnone ↦ nomatch hb.symm.trans hnone
  · exact fun hnone ↦ nomatch (h.groupWaiter hg).symm.trans hnone

theorem fibersWithout_of_ne {k : G} (hk : s.group_ f ≠ some k) :
    fibersWithout f s k = s.fibers_ k := by
  unfold fibersWithout
  cases hg : s.group_ f with
  | none => rfl
  | some g =>
    have hkg : k ≠ g := fun hkg ↦ hk (hg.trans (congrArg some hkg.symm))
    exact Function.update_of_ne hkg ..

theorem fibersWithout_self {k : G} (hk : s.group_ f = some k) :
    fibersWithout f s k = (s.fibers_ k).erase f := by
  unfold fibersWithout
  rw [hk]
  exact Function.update_self ..

/-- The fiber that has ended is in no group. -/
theorem mem_fibersWithout (h : Alive s.view s.ties) {k : G} {g : F} :
    g ∈ fibersWithout f s k ↔ g ∈ s.fibers_ k ∧ g ≠ f := by
  by_cases hk : s.group_ f = some k
  · rw [fibersWithout_self hk, (show (s.fibers_ k).Nodup from h.fibers k).mem_erase_iff]
    exact and_comm
  · rw [fibersWithout_of_ne hk]
    refine ⟨fun hg ↦ ⟨hg, ?_⟩, fun hg ↦ hg.1⟩
    rintro rfl
    exact hk (h.member hg).2

theorem Sound.finish (h : Sound s.view s) (error : Bool) (hloop : s.loop = .fiber f)
    (hparked : s.parked f = none) (hscopes : s.scopes f = []) :
    Sound (finish f error s).view (finish f error s) := by
  refine ⟨(kept_placed True).finish hloop hparked hscopes h.placed, ?_, ?_, ?_⟩
  all_goals
    obtain ⟨e, r, heq, hsub, hnodup, -, -, hwoken⟩ := finish_eq f s error
    rw [heq]
  · exact h.timers
  · obtain ⟨hslot, hgroupWaiter, hsleeper, hwaiter, hjoiner⟩ := h.tied
    exact ⟨hslot, hgroupWaiter, hsleeper, hwaiter, hjoiner⟩
  · have hrunning : s.view.running = some f := by rw [Sched.view, hloop]; rfl
    have hlive {g : F} (hg : Live s.ties g) (hgf : g ≠ f) :
        update s.state_ f (some .Dead) g ≠ none ∧
          update s.state_ f (some .Dead) g ≠ some .Dead := by
      rw [Function.update_of_ne hgf]
      exact hg
    have hplace {g : F} (hg : s.parked g ≠ none) : g ≠ f := by
      rintro rfl
      exact hg hparked
    refine Alive.of_idle rfl rfl (hnodup h.alive.nodup) (fun {g} hg ↦ ?_) (fun {g} hg ↦ ?_)
      (fun {g k} hg ↦ ?_) (fun k ↦ ?_) (fun {g} hg ↦ ?_) fun {c} hc ↦ ?_
    · rcases hwoken g hg with hold | hwakes
      · refine hlive (h.alive.queue hold) ?_
        rintro rfl
        cases h.alive.idle hrunning hold
      · have hg' := hwakes.place h.tied
        exact hlive (h.alive.place hg') (hplace hg')
    · exact hlive (h.alive.place hg) (hplace hg)
    · obtain ⟨hold, hgf⟩ := (mem_fibersWithout h.alive).mp hg
      exact ⟨hlive (h.alive.member hold).1 hgf, (h.alive.member hold).2⟩
    · show (fibersWithout f s k).Nodup
      by_cases hk : s.group_ f = some k
      · rw [fibersWithout_self hk]
        exact List.Nodup.erase f (h.alive.fibers k)
      · rw [fibersWithout_of_ne hk]
        exact h.alive.fibers k
    · refine hlive (h.alive.scope hg) ?_
      rintro rfl
      exact hg hscopes
    · show update s.state_ f (some .Dead) c ≠ none
      by_cases hcf : c = f
      · rw [hcf, Function.update_self]
        simp
      · rw [Function.update_of_ne hcf]
        exact h.alive.object hc

/-- Whoever has a timer is alive. -/
theorem Sound.timer (h : Sound s.view s) {t : Timer F} (ht : t ∈ s.timers_) :
    Live s.ties t.fiber := by
  cases hguard : t.guard with
  | true =>
    refine h.alive.scope fun hnil ↦ ?_
    have hmem := h.timers.guard t ht hguard
    rw [show s.timing.scopes t.fiber = [] from hnil] at hmem
    exact absurd hmem List.not_mem_nil
  | false =>
    refine h.alive.place fun hnone ↦ ?_
    exact nomatch (h.tied.sleeper ht hguard).symm.trans hnone

end

/-- **Every step** of a run of `careful` calls keeps it. -/
theorem kept_sound : Kept True (Sound (F := F) (G := G) (Q := Q) (M := M) (S := S)) where
  change {f x x' s s'} h hinv := by
    refine ⟨hinv.placed.change h, ?_, hinv.tied.change h,
      hinv.alive.change trivial hinv.placed hinv.tied h⟩
    exact Lib.invariant_of_step h.timing hinv.timers fun _ _ hinv hstep ↦ hinv.quiet hstep
  frame _ _ _ _ hinv := ⟨hinv.placed, hinv.timers, hinv.tied, hinv.alive⟩
  park hrunning hphase hplace hnone hinv :=
    ⟨(kept_placed True).park hrunning hphase hplace hnone hinv.placed, hinv.timers,
      hinv.tied.stay fun hg _ ↦ hg, hinv.alive.park⟩
  resume hrunning hphase hplace hqueue hinv :=
    ⟨(kept_placed True).resume hrunning hphase hplace hqueue hinv.placed, hinv.timers,
      hinv.tied.stay fun hg _ ↦ hg, hinv.alive.run hqueue fun c ↦ nofun⟩
  start {f v s rest} hrunning hphase hplace hqueue hinv := by
    refine ⟨(kept_placed True).start hrunning hphase hplace hqueue hinv.placed,
      hinv.timers, ⟨hinv.tied.slot, hinv.tied.groupWaiter, hinv.tied.sleeper, hinv.tied.waiter,
        hinv.tied.joiner⟩, ?_⟩
    have hrun := hinv.alive.run hqueue (x := v.phase) fun c hc ↦ nomatch hphase.symm.trans hc
    refine hrun.states (fun {g} hg ↦ ?_) fun {g} hg ↦ ?_
    · show update s.state_ f _ g ≠ none ∧ update s.state_ f _ g ≠ some .Dead
      by_cases hgf : g = f
      · rw [hgf, Function.update_self]
        exact ⟨nofun, nofun⟩
      · rw [Function.update_of_ne hgf]
        exact hg
    · show update s.state_ f _ g ≠ none
      by_cases hgf : g = f
      · rw [hgf, Function.update_self]
        exact nofun
      · rw [Function.update_of_ne hgf]
        exact hg
  endScope hloop _ hinv := hinv.endScope hloop
  finish hloop hparked hscopes hinv := hinv.finish _ hloop hparked hscopes
  event {slot s} hrunning hinv := by
    refine ⟨(kept_placed True).event hrunning hinv.placed, hinv.timers, ?_, ?_⟩
    · have htied := hinv.tied.untie (update s.slot_ slot none) s.timers_
        (fun hg ↦ (update_none_eq_some hg).1) fun t ht ↦ ht
      exact htied.stay fun hg _ ↦ hg
    · refine (hinv.alive.untie (update s.slot_ slot none) s.timers_).wake hrunning
        (nodup_enqueue? hinv.alive.nodup) fun g hg ↦ ?_
      rcases mem_enqueue?.mp hg with hold | hslot
      · exact hinv.alive.queue hold
      · exact hinv.alive.place fun hnone ↦ nomatch (hinv.tied.slot hslot).symm.trans hnone
  expire {t s} hrunning ht hinv := by
    refine ⟨(kept_placed True).expire hrunning ht hinv.placed, ?_, ?_, ?_⟩
    all_goals
      obtain ⟨b, o, r, heq, -, hnodup, hwoken⟩ := onExpired_eq s t
      rw [heq]
    · exact ⟨hinv.timers.scopes_lt, fun t' ht' ↦ hinv.timers.guard t' (List.mem_of_mem_filter ht')⟩
    · have htied := hinv.tied.untie s.slot_ (s.timers_.filter fun t' ↦ t'.id ≠ t.id) id
        fun t' ht' ↦ List.mem_of_mem_filter ht'
      exact htied.stay fun hg _ ↦ hg
    · refine (hinv.alive.untie s.slot_ _).wake hrunning (hnodup hinv.alive.nodup) fun g hg ↦ ?_
      rcases hwoken g hg with hold | ⟨rfl, -⟩
      · exact hinv.alive.queue hold
      · exact hinv.timer ht

end Cactus
end ManyTasks
