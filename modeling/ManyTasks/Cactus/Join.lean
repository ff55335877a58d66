import ManyTasks.Cactus.Alive

/-!
# Joining

The destructors of `Fiber` and of `Group` park once and do not look again when they come back.  So
they rely on nobody else putting their fiber into the run queue: the fiber is guarded against
cancellation and timeouts, and only the fiber that it waits for has a pointer to it (`Joins`).

Two things break this.  A fiber that destroys its own `Fiber` object, or its own group, cancels
itself first, and this puts it into the run queue while it runs; there it is found when it parks.
And after the last fiber of a group has woken the destructor of the group, another fiber can be
spawned into the group before the destructor runs.  If neither happens (`careful`):

* `joined_dead`: the destructor of `Fiber` returns only when the fiber is dead, that of `Group` only
  when the group is empty, and the fiber that waits is put into the run queue just when this comes
  about.
-/

set_option autoImplicit false
set_option linter.unusedSectionVars false

namespace ManyTasks
namespace Cactus

variable {F G Q M S : Type} [DecidableEq F] [DecidableEq G] [DecidableEq Q] [DecidableEq M]
  [DecidableEq S]

open Function (update)

/-! ## Who waits for whom -/

/-- The place is in a destructor. -/
def Where.Joins : Where F G Q M S → Prop
  | .join _ _ | .group _ _ => True
  | _ => False

/-- A fiber in a destructor is guarded, whoever it waits for has a pointer to it, and it is woken
exactly when the fiber it waits for is dead or the group is empty. -/
structure Joins (v : View F G Q M S) (τ : Ties F G S) : Prop where
  guarded {g : F} {w : Where F G Q M S} : v.place g = some w → w.Joins → τ.cancel_guarded_ g = true
  join {g c : F} {b : Bool} : v.place g = some (.join c b) →
    τ.waiter_ c = some g ∧ (v.up g ↔ τ.state_ c = some .Dead)
  group {g : F} {k : G} {b : Bool} : v.place g = some (.group k b) →
    τ.joiner_ k = some g ∧ (v.up g ↔ τ.fibers_ k = [])
  unborn {c : F} : τ.state_ c = none → τ.waiter_ c = none
  object {c : F} : τ.object c = true → τ.waiter_ c = none
  joining {c : F} : v.phase = .joining c → τ.waiter_ c = none ∧ τ.object c = false
  life {k : G} : τ.life k = .alive → τ.joiner_ k = none
  closing {k : G} : v.phase = .closing k → τ.joiner_ k = none ∧ τ.life k ≠ .alive
  joined {c : F} {st : Option FiberState} : .joined c st ∈ τ.log → st = some .Dead
  groupJoined {k : G} {l : List F} : .groupJoined k l ∈ τ.log → l = []

section

variable {strict : Prop} {f : F} {x x' : Phase F G Q M S} {s s' : Sched F G Q M S}

/-- A fiber in a destructor is not put into the run queue by a change. -/
theorem Woken.not_joins (hplaced : Placed (x.view f s) s.queues)
    (htied : Tied (x.view f s) s.ties) (hjoins : Joins (x.view f s) s.ties)
    (halive : Alive (x.view f s) s.ties) {g : F} {w : Where F G Q M S} (hgf : g ≠ f)
    (hg : (x.view f s).place g = some w) (hw : w.Joins) (h : Woken strict f x x' s s' g) :
    False := by
  cases h with
  | yield heq hx => exact hgf heq
  | notified q hmem hf =>
    have hat := (hplaced.waiter hmem).1
    rw [View.queue?, hg] at hat
    cases w <;> first | exact hw | cases hat
  | slot slot hslot hx =>
    have hat := (htied.slot hslot).symm.trans hg
    obtain rfl := Option.some.inj hat
    exact hw
  | canceled hguarded hx hne =>
    rw [show s.cancel_guarded_ g = true from hjoins.guarded hg hw] at hguarded
    cases hguarded
  | created hnone hready =>
    refine (halive.place (g := g) ?_).1 hnone
    rw [hg]
    simp

/-- So another fiber in a destructor stays there, woken or not. -/
theorem Joins.others (h : Joins (x.view f s) s.ties) (hplaced : Placed (x.view f s) s.queues)
    (htied : Tied (x.view f s) s.ties) (halive : Alive (x.view f s) s.ties)
    (hchange : Change strict f (x, s) (x', s')) {g : F} {w : Where F G Q M S} (hgf : g ≠ f)
    (hg : (x'.view f s').place g = some w) (hw : w.Joins) :
    (x.view f s).place g = some w ∧ ((x'.view f s').up g ↔ (x.view f s).up g) := by
  obtain ⟨hparked, -⟩ := hchange.parked_loop
  rw [place_of_ne (x := x) (s := s) hgf hparked] at hg
  refine ⟨hg, fun hup ↦ .inl ?_, fun hup ↦ .inl (hchange.mem_run_queue hgf (mem_of_up hgf hup))⟩
  exact (hchange.run_queue.2 g (mem_of_up hgf hup)).resolve_right fun hwoken ↦
    hwoken.not_joins hplaced htied h halive hgf hg hw

/-- The fiber that runs, if it is in a destructor, is woken just if it has come back. -/
theorem up_self (halive : Alive (x.view f s) s.ties) {w : Where F G Q M S}
    (hx : x.where? = some w) (hw : w.Joins) : (x.view f s).up f ↔ x.Left := by
  refine ⟨fun hup ↦ hup.elim (fun hmem ↦ ?_) fun hleft ↦ hleft.2, fun hleft ↦ .inr ⟨rfl, hleft⟩⟩
  have hyield : x = .entering .yield := halive.idle rfl hmem
  subst hyield
  obtain rfl := Option.some.inj hx
  exact hw.elim

/-- What is left to be shown of a change after which the fiber that runs is in no destructor. -/
theorem Joins.of_others {v v' : View F G Q M S} {τ τ' : Ties F G S} (h : Joins v τ)
    (hothers : ∀ {g w}, v'.place g = some w → w.Joins →
      v.place g = some w ∧ (v'.up g ↔ v.up g) ∧ τ'.cancel_guarded_ g = τ.cancel_guarded_ g)
    (hstate : ∀ c, τ'.state_ c = some .Dead ↔ τ.state_ c = some .Dead)
    (hfibers : ∀ {g k}, τ.joiner_ k = some g → (τ'.fibers_ k = [] ↔ τ.fibers_ k = []))
    (hwaiter : ∀ {g c b}, v'.place g = some (.join c b) → τ'.waiter_ c = τ.waiter_ c)
    (hjoiner : ∀ {g k b}, v'.place g = some (.group k b) → τ'.joiner_ k = τ.joiner_ k)
    (hunborn : ∀ {c}, τ'.state_ c = none → τ'.waiter_ c = none)
    (hobject : ∀ {c}, τ'.object c = true → τ'.waiter_ c = none)
    (hjoining : ∀ {c}, v'.phase = .joining c → τ'.waiter_ c = none ∧ τ'.object c = false)
    (hlife : ∀ {k}, τ'.life k = .alive → τ'.joiner_ k = none)
    (hclosing : ∀ {k}, v'.phase = .closing k → τ'.joiner_ k = none ∧ τ'.life k ≠ .alive)
    (hjoined : ∀ {c st}, .joined c st ∈ τ'.log → st = some .Dead)
    (hgroupJoined : ∀ {k l}, .groupJoined k l ∈ τ'.log → l = []) : Joins v' τ' where
  guarded hg hw := by
    obtain ⟨hold, -, hguarded⟩ := hothers hg hw
    exact hguarded.trans (h.guarded hold hw)
  join {g c b} hg := by
    obtain ⟨hold, hup, -⟩ := hothers hg trivial
    obtain ⟨hwaits, hdead⟩ := h.join hold
    exact ⟨(hwaiter hg).trans hwaits, hup.trans (hdead.trans (hstate c).symm)⟩
  group {g k b} hg := by
    obtain ⟨hold, hup, -⟩ := hothers hg trivial
    obtain ⟨hwaits, hempty⟩ := h.group hold
    exact ⟨(hjoiner hg).trans hwaits, hup.trans (hempty.trans (hfibers hwaits).symm)⟩
  unborn := hunborn
  object := hobject
  joining := hjoining
  life := hlife
  closing := hclosing
  joined := hjoined
  groupJoined := hgroupJoined

theorem Where.Untied.not_joins {w : Where F G Q M S} (hw : w.Untied) : ¬ w.Joins := by
  cases w <;> first | exact id | exact hw.elim

theorem update_none_of_eq {α β : Type} [DecidableEq α] {p : α → Option β} {a' : α} (a : α)
    (h : p a' = none) : update p a none a' = none := by
  by_cases ha : a' = a
  · rw [ha, Function.update_self]
  · rw [Function.update_of_ne ha, h]

section

variable (h : Joins (x.view f s) s.ties) (hplaced : Placed (x.view f s) s.queues)
  (htied : Tied (x.view f s) s.ties) (halive : Alive (x.view f s) s.ties)
  (hchange : Change strict f (x, s) (x', s'))
include h hplaced htied halive hchange

/-- Where the fiber that runs is in no destructor afterwards, all others stay. -/
theorem Joins.stay (hx' : ∀ w, x'.where? = some w → ¬ w.Joins) {τ : Ties F G S}
    (hguarded : ∀ g, g ≠ f → τ.cancel_guarded_ g = s.cancel_guarded_ g) {g : F}
    {w : Where F G Q M S} (hg : (x'.view f s').place g = some w) (hw : w.Joins) :
    (x.view f s).place g = some w ∧ ((x'.view f s').up g ↔ (x.view f s).up g) ∧
      τ.cancel_guarded_ g = s.ties.cancel_guarded_ g := by
  have hgf : g ≠ f := by
    rintro rfl
    exact hx' w (place_self.symm.trans hg) hw
  obtain ⟨hold, hup⟩ := h.others hplaced htied halive hchange hgf hg hw
  exact ⟨hold, hup, hguarded g hgf⟩

/-- The change is about something else. -/
theorem Joins.plain (hx' : ∀ w, x'.where? = some w → ¬ w.Joins) (hj : ∀ c, x' ≠ .joining c)
    (hc : ∀ k, x' ≠ .closing k) {τ : Ties F G S}
    (hguarded : ∀ g, g ≠ f → τ.cancel_guarded_ g = s.cancel_guarded_ g)
    (hstate : τ.state_ = s.state_) (hfibers : τ.fibers_ = s.fibers_)
    (hwaiter : τ.waiter_ = s.waiter_) (hjoiner : τ.joiner_ = s.joiner_)
    (hobject : τ.object = s.object) (hlife : τ.life = s.life) (hlog : τ.log = s.ties.log) :
    Joins (x'.view f s') τ := by
  refine h.of_others (h.stay hplaced htied halive hchange hx' hguarded) ?_ ?_ ?_ ?_ ?_ ?_
    (fun heq ↦ absurd heq (hj _)) ?_ (fun heq ↦ absurd heq (hc _)) ?_ ?_ <;>
    simp only [hstate, hfibers, hwaiter, hjoiner, hobject, hlife, hlog]
  · exact fun _ ↦ Iff.rfl
  · exact fun _ ↦ Iff.rfl
  · exact fun _ ↦ rfl
  · exact fun _ ↦ rfl
  · exact h.unborn
  · exact h.object
  · exact h.life
  · exact h.joined
  · exact h.groupJoined

/-- The destructor of `Fiber` comes to `Park`. -/
theorem Joins.enterJoin {c : F} {b : Bool} (hx : x = .joining c) (hx' : x' = .entering (.join c b))
    (halive' : Alive (x'.view f s') s'.ties) :
    Joins (x'.view f s') { s.ties with
      cancel_guarded_ := update s.cancel_guarded_ f true,
      waiter_ := update s.waiter_ c (some f) } := by
  subst hx hx'
  obtain ⟨hnone, hobject⟩ := h.joining rfl
  have hlive : Live s.ties c := halive.joining rfl
  have hself {w : Where F G Q M S}
      (hg : ((Phase.entering (.join c b)).view f s').place f = some w) : .join c b = w :=
    Option.some.inj (place_self.symm.trans hg)
  refine ⟨fun {g w} hg hw ↦ ?_, fun {g c' b'} hg ↦ ?_, fun {g k b'} hg ↦ ?_, fun {c'} hc' ↦ ?_,
    fun {c'} hc' ↦ ?_, nofun, h.life, nofun, h.joined, h.groupJoined⟩
  · by_cases hgf : g = f
    · exact hgf ▸ Function.update_self ..
    · refine (Function.update_of_ne hgf ..).trans ?_
      exact h.guarded (h.others hplaced htied halive hchange hgf hg hw).1 hw
  · by_cases hgf : g = f
    · subst hgf
      obtain ⟨rfl, rfl⟩ := Where.join.inj (hself hg)
      refine ⟨Function.update_self .., ?_⟩
      rw [up_self halive' rfl trivial]
      refine ⟨fun hleft ↦ ?_, fun hdead ↦ absurd hdead hlive.2⟩
      obtain ⟨w, hleft | hleft⟩ := hleft <;> cases hleft
    · obtain ⟨hold, hup⟩ := h.others hplaced htied halive hchange hgf hg trivial
      obtain ⟨hwaits, hdead⟩ := h.join hold
      have hcc : c' ≠ c := by
        rintro rfl
        rw [hnone] at hwaits
        cases hwaits
      exact ⟨(Function.update_of_ne hcc ..).trans hwaits, hup.trans hdead⟩
  · by_cases hgf : g = f
    · subst hgf
      cases hself hg
    · obtain ⟨hold, hup⟩ := h.others hplaced htied halive hchange hgf hg trivial
      exact ⟨(h.group hold).1, hup.trans (h.group hold).2⟩
  · have hcc : c' ≠ c := fun hcc ↦ hlive.1 (hcc ▸ hc')
    exact (Function.update_of_ne hcc ..).trans (h.unborn hc')
  · have hcc : c' ≠ c := by
      rintro rfl
      exact Bool.false_ne_true (hobject.symm.trans hc')
    exact (Function.update_of_ne hcc ..).trans (h.object hc')

/-- The destructor of `Group` comes to `Park`. -/
theorem Joins.enterGroup {k : G} {b : Bool} (hx : x = .closing k)
    (hx' : x' = .entering (.group k b)) (hk : s.fibers_ k ≠ [])
    (halive' : Alive (x'.view f s') s'.ties) :
    Joins (x'.view f s') { s.ties with
      cancel_guarded_ := update s.cancel_guarded_ f true,
      joiner_ := update s.joiner_ k (some f) } := by
  subst hx hx'
  obtain ⟨hnone, halive₁⟩ := h.closing rfl
  have hself {w : Where F G Q M S}
      (hg : ((Phase.entering (.group k b)).view f s').place f = some w) : .group k b = w :=
    Option.some.inj (place_self.symm.trans hg)
  refine ⟨fun {g w} hg hw ↦ ?_, fun {g c b'} hg ↦ ?_, fun {g k' b'} hg ↦ ?_, h.unborn,
    h.object, nofun, fun {k'} hk' ↦ ?_, nofun, h.joined, h.groupJoined⟩
  · by_cases hgf : g = f
    · exact hgf ▸ Function.update_self ..
    · refine (Function.update_of_ne hgf ..).trans ?_
      exact h.guarded (h.others hplaced htied halive hchange hgf hg hw).1 hw
  · by_cases hgf : g = f
    · subst hgf
      cases hself hg
    · obtain ⟨hold, hup⟩ := h.others hplaced htied halive hchange hgf hg trivial
      exact ⟨(h.join hold).1, hup.trans (h.join hold).2⟩
  · by_cases hgf : g = f
    · subst hgf
      obtain ⟨rfl, rfl⟩ := Where.group.inj (hself hg)
      refine ⟨Function.update_self .., ?_⟩
      rw [up_self halive' rfl trivial]
      refine ⟨fun hleft ↦ ?_, fun hempty ↦ absurd hempty hk⟩
      obtain ⟨w, hleft | hleft⟩ := hleft <;> cases hleft
    · obtain ⟨hold, hup⟩ := h.others hplaced htied halive hchange hgf hg trivial
      obtain ⟨hwaits, hempty⟩ := h.group hold
      have hkk : k' ≠ k := by
        rintro rfl
        rw [hnone] at hwaits
        cases hwaits
      exact ⟨(Function.update_of_ne hkk ..).trans hwaits, hup.trans hempty⟩
  · have hkk : k' ≠ k := fun hkk ↦ halive₁ (hkk ▸ hk')
    exact (Function.update_of_ne hkk ..).trans (h.life hk')

/-- The destructor of `Fiber` is left. -/
theorem Joins.leaveJoin {c : F} {b : Bool} (hx : x.where? = some (.join c b)) (hx' : x' = .free)
    {τ : Ties F G S} (hguarded : ∀ g, g ≠ f → τ.cancel_guarded_ g = s.cancel_guarded_ g)
    (hwaiter : τ.waiter_ = update s.waiter_ c none) (hstate : τ.state_ = s.state_)
    (hfibers : τ.fibers_ = s.fibers_) (hjoiner : τ.joiner_ = s.joiner_)
    (hobject : τ.object = s.object) (hlife : τ.life = s.life)
    (hlog : τ.log = s.ties.log ∨
      s.state_ c = some .Dead ∧ τ.log = s.ties.log ++ [.joined c (s.state_ c)]) :
    Joins (x'.view f s') τ := by
  subst hx'
  have hf : s.waiter_ c = some f := (h.join (place_self.trans hx)).1
  have hstay {g : F} {w : Where F G Q M S} := h.stay hplaced htied halive hchange (g := g) (w := w)
    (fun w ↦ nofun) hguarded
  refine h.of_others hstay (fun c' ↦ by rw [hstate]; rfl) (fun _ ↦ by rw [hfibers]; rfl)
    (fun {g c' b'} hg ↦ ?_) (fun _ ↦ congrFun hjoiner _) (fun hc' ↦ ?_) (fun hc' ↦ ?_) nofun
    (fun hk ↦ ?_) nofun (fun {c' st} hmem ↦ ?_) fun {k l} hmem ↦ ?_
  · obtain ⟨hold, -⟩ := hstay hg trivial
    have hcc : c' ≠ c := by
      rintro rfl
      have hgf : g = f := Option.some.inj ((h.join hold).1.symm.trans hf)
      rw [hgf, place_self] at hg
      cases hg
    rw [hwaiter, Function.update_of_ne hcc]
    rfl
  · rw [hwaiter]
    exact update_none_of_eq c (h.unborn ((congrFun hstate _).symm.trans hc'))
  · rw [hwaiter]
    exact update_none_of_eq c (h.object ((congrFun hobject _).symm.trans hc'))
  · rw [hjoiner]
    exact h.life ((congrFun hlife _).symm.trans hk)
  · rcases hlog with hlog | ⟨hdead, hlog⟩
    · exact h.joined (hlog ▸ hmem)
    · rw [hlog, List.mem_append, List.mem_singleton] at hmem
      rcases hmem with hmem | heq
      · exact h.joined hmem
      · exact (Event.joined.inj heq).2.trans hdead
  · rcases hlog with hlog | ⟨-, hlog⟩
    · exact h.groupJoined (hlog ▸ hmem)
    · rw [hlog, List.mem_append, List.mem_singleton] at hmem
      exact hmem.elim h.groupJoined nofun

/-- The destructor of `Group` is left. -/
theorem Joins.leaveGroup {k : G} {b : Bool} (hx : x.where? = some (.group k b)) (hx' : x' = .free)
    {τ : Ties F G S} (hguarded : ∀ g, g ≠ f → τ.cancel_guarded_ g = s.cancel_guarded_ g)
    (hjoiner : τ.joiner_ = update s.joiner_ k none) (hstate : τ.state_ = s.state_)
    (hfibers : τ.fibers_ = s.fibers_) (hwaiter : τ.waiter_ = s.waiter_)
    (hobject : τ.object = s.object) (hlife : ∀ k', τ.life k' = .alive → s.life k' = .alive)
    (hlog : τ.log = s.ties.log ∨
      s.fibers_ k = [] ∧ τ.log = s.ties.log ++ [.groupJoined k (s.fibers_ k)]) :
    Joins (x'.view f s') τ := by
  subst hx'
  have hf : s.joiner_ k = some f := (h.group (place_self.trans hx)).1
  have hstay {g : F} {w : Where F G Q M S} := h.stay hplaced htied halive hchange (g := g) (w := w)
    (fun w ↦ nofun) hguarded
  refine h.of_others hstay (fun c' ↦ by rw [hstate]; rfl) (fun _ ↦ by rw [hfibers]; rfl)
    (fun _ ↦ congrFun hwaiter _) (fun {g k' b'} hg ↦ ?_) (fun hc' ↦ ?_) (fun hc' ↦ ?_) nofun
    (fun hk ↦ ?_) nofun (fun {c' st} hmem ↦ ?_) fun {k' l} hmem ↦ ?_
  · obtain ⟨hold, -⟩ := hstay hg trivial
    have hkk : k' ≠ k := by
      rintro rfl
      have hgf : g = f := Option.some.inj ((h.group hold).1.symm.trans hf)
      rw [hgf, place_self] at hg
      cases hg
    rw [hjoiner, Function.update_of_ne hkk]
    rfl
  · rw [hwaiter]
    exact h.unborn ((congrFun hstate _).symm.trans hc')
  · rw [hwaiter]
    exact h.object ((congrFun hobject _).symm.trans hc')
  · rw [hjoiner]
    exact update_none_of_eq k (h.life (hlife _ hk))
  · rcases hlog with hlog | ⟨-, hlog⟩
    · exact h.joined (hlog ▸ hmem)
    · rw [hlog, List.mem_append, List.mem_singleton] at hmem
      exact hmem.elim h.joined nofun
  · rcases hlog with hlog | ⟨hempty, hlog⟩
    · exact h.groupJoined (hlog ▸ hmem)
    · rw [hlog, List.mem_append, List.mem_singleton] at hmem
      rcases hmem with hmem | heq
      · exact h.groupJoined hmem
      · exact (Event.groupJoined.inj heq).2.trans hempty

/-- A fiber is created, for a `Fiber` object or in a group. -/
theorem Joins.created {c : F} (hc : s.state_ c = none) (hx' : x' = .free) {τ : Ties F G S}
    (hguarded : τ.cancel_guarded_ = s.cancel_guarded_)
    (hstate : τ.state_ = update s.state_ c (some .Ready)) (hwaiter : τ.waiter_ = s.waiter_)
    (hobject : ∀ c', τ.object c' = true → s.object c' = true ∨ c' = c)
    (hfibers : ∀ {g k}, s.joiner_ k = some g → (τ.fibers_ k = [] ↔ s.fibers_ k = []))
    (hjoiner : τ.joiner_ = s.joiner_) (hlife : τ.life = s.life) (hlog : τ.log = s.ties.log) :
    Joins (x'.view f s') τ := by
  subst hx'
  have hnone : s.waiter_ c = none := h.unborn hc
  refine h.of_others (h.stay hplaced htied halive hchange (fun w ↦ nofun)
      fun g _ ↦ congrFun hguarded g) (fun c' ↦ ?_) hfibers (fun _ ↦ congrFun hwaiter _)
    (fun _ ↦ congrFun hjoiner _) (fun {c'} hc' ↦ ?_) (fun {c'} hc' ↦ ?_) nofun (fun hk ↦ ?_) nofun
    (fun hmem ↦ h.joined (hlog ▸ hmem)) fun hmem ↦ h.groupJoined (hlog ▸ hmem)
  · rw [hstate]
    by_cases hcc : c' = c
    · subst hcc
      rw [Function.update_self, show s.ties.state_ c' = none from hc]
      exact ⟨nofun, nofun⟩
    · rw [Function.update_of_ne hcc]
      rfl
  · rw [hstate] at hc'
    rw [hwaiter]
    by_cases hcc : c' = c
    · rw [hcc, Function.update_self] at hc'
      cases hc'
    · rw [Function.update_of_ne hcc] at hc'
      exact h.unborn hc'
  · rw [hwaiter]
    rcases hobject c' hc' with hold | rfl
    · exact h.object hold
    · exact hnone
  · rw [hjoiner]
    exact h.life ((congrFun hlife _).symm.trans hk)

/-- **One change** keeps the destructors waiting, if the call is `careful`. -/
theorem Joins.change (hstrict : strict) (halive' : Alive (x'.view f s') s'.ties) :
    Joins (x'.view f s') s'.ties := by
  have hstay {g : F} {w : Where F G Q M S} {τ : Ties F G S} :=
    h.stay hplaced htied halive hchange (g := g) (w := w) (τ := τ)
  have hplain := h.plain hplaced htied halive hchange
  have htie := hchange.tieChange
  generalize hτ : s'.ties = τ at htie
  cases htie with
  | other hplace hjoining hclosing =>
    refine h.of_others (fun {g w} hg hw ↦ ?_) (fun _ ↦ Iff.rfl) (fun _ ↦ Iff.rfl) (fun _ ↦ rfl)
      (fun _ ↦ rfl) h.unborn h.object (fun heq ↦ h.joining (hjoining _ heq)) h.life
      (fun heq ↦ h.closing (hclosing _ heq)) h.joined h.groupJoined
    rcases hplace with rfl | ⟨-, hx'⟩
    · by_cases hgf : g = f
      · subst hgf
        have hwhere : x'.where? = some w := place_self.symm.trans hg
        exact ⟨place_self.trans hwhere,
          (up_self halive' hwhere hw).trans (up_self halive hwhere hw).symm, rfl⟩
      · obtain ⟨hold, hup⟩ := h.others hplaced htied halive hchange hgf hg hw
        exact ⟨hold, hup, rfl⟩
    · exact hstay (fun w hw ↦ (hx' w hw).not_joins) (fun _ _ ↦ rfl) hg hw
  | raise w hx hf =>
    have hwhere : x.where? = some w := by rcases hx with rfl | rfl <;> rfl
    refine hplain (fun w' hw' hjoins ↦ ?_) (fun c ↦ nofun) (fun k ↦ nofun) (fun g _ ↦ rfl) rfl rfl
      rfl rfl rfl rfl rfl
    obtain rfl := Option.some.inj hw'
    have hguarded := h.guarded (place_self.trans hwhere) hjoins
    exact Bool.false_ne_true (hf.symm.trans hguarded)
  | sleep deadline =>
    exact hplain (fun w hw ↦ by cases hw; exact id) (fun c ↦ nofun) (fun k ↦ nofun)
      (fun g _ ↦ rfl) rfl rfl rfl rfl rfl rfl rfl
  | join c hc => exact h.enterJoin hplaced htied halive hchange rfl rfl halive'
  | group k hk => exact h.enterGroup hplaced htied halive hchange rfl rfl hk halive'
  | waitGroup k =>
    exact hplain (fun w hw ↦ by cases hw; exact id) (fun c ↦ nofun) (fun k ↦ nofun)
      (fun g _ ↦ rfl) rfl rfl rfl rfl rfl rfl rfl
  | fdWait slot =>
    exact hplain (fun w hw ↦ by cases hw; exact id) (fun c ↦ nofun) (fun k ↦ nofun)
      (fun g _ ↦ rfl) rfl rfl rfl rfl rfl rfl rfl
  | cleanup w hx hs =>
    have hwhere : x.where? = some w := by rcases hx with rfl | rfl <;> rfl
    cases w with
    | join c b =>
      exact h.leaveJoin hplaced htied halive hchange hwhere rfl (fun g _ ↦ rfl) rfl rfl rfl rfl rfl
        rfl (.inl rfl)
    | group k b =>
      exact h.leaveGroup hplaced htied halive hchange hwhere rfl (fun g _ ↦ rfl) rfl rfl rfl rfl
        rfl (fun _ hk ↦ hk) (.inl rfl)
    | _ =>
      exact hplain (fun w ↦ nofun) (fun c ↦ nofun) (fun k ↦ nofun) (fun g _ ↦ rfl) rfl rfl rfl rfl
        rfl rfl rfl
  | joined c saved =>
    have hdead : s.state_ c = some .Dead :=
      (h.join (place_self (x := .back (.join c saved)))).2.mp (.inr ⟨rfl, _, .inl rfl⟩)
    exact h.leaveJoin hplaced htied halive hchange rfl rfl
      (fun g hg ↦ Function.update_of_ne hg ..) rfl rfl rfl rfl rfl rfl (.inr ⟨hdead, rfl⟩)
  | groupJoined k saved =>
    have hempty : s.fibers_ k = [] :=
      (h.group (place_self (x := .back (.group k saved)))).2.mp (.inr ⟨rfl, _, .inl rfl⟩)
    exact h.leaveGroup hplaced htied halive hchange rfl rfl
      (fun g hg ↦ Function.update_of_ne hg ..) rfl rfl rfl rfl rfl
      (fun k' hk' ↦ (of_update_eq hk' nofun).1) (.inr ⟨hempty, rfl⟩)
  | fiber c hc =>
    refine h.created hplaced htied halive hchange hc rfl rfl rfl rfl (fun c' hc' ↦ ?_)
      (fun _ ↦ Iff.rfl) rfl rfl rfl
    by_cases hcc : c' = c
    · exact .inr hcc
    · exact .inl ((Function.update_of_ne hcc ..).symm.trans hc')
  | spawn k c hc hspawn =>
    refine h.created hplaced htied halive hchange hc rfl rfl rfl rfl (fun c' hc' ↦ .inl hc')
      (fun {g k'} hk' ↦ ?_) rfl rfl rfl
    show update s.fibers_ k (s.fibers_ k ++ [c]) k' = [] ↔ s.fibers_ k' = []
    by_cases hkk : k' = k
    · subst hkk
      -- somebody waits for the group, so the call is careful only if the group is not empty
      have hne : s.fibers_ k' ≠ [] := (hspawn hstrict).resolve_left (hk' ▸ nofun)
      rw [Function.update_self]
      exact ⟨fun heq ↦ absurd heq (List.append_ne_nil_of_left_ne_nil hne [c]),
        fun heq ↦ absurd heq hne⟩
    · rw [Function.update_of_ne hkk]
  | destroyFiber c hc hdead =>
    refine h.of_others (hstay (fun w ↦ nofun) fun _ _ ↦ rfl) (fun _ ↦ Iff.rfl) (fun _ ↦ Iff.rfl)
      (fun _ ↦ rfl) (fun _ ↦ rfl) h.unborn (fun hc' ↦ h.object (of_update_eq hc' nofun).1)
      (fun heq ↦ ?_) h.life nofun h.joined h.groupJoined
    obtain rfl := Phase.joining.inj heq
    exact ⟨h.object hc, Function.update_self ..⟩
  | destroyDead c hdead =>
    refine h.of_others (hstay (fun w ↦ nofun) fun _ _ ↦ rfl) (fun _ ↦ Iff.rfl) (fun _ ↦ Iff.rfl)
      (fun _ ↦ rfl) (fun _ ↦ rfl) h.unborn (fun hc' ↦ h.object (of_update_eq hc' nofun).1) nofun
      h.life nofun (fun {c' st} hmem ↦ ?_) fun {k l} hmem ↦ ?_
    · rcases List.mem_append.mp hmem with hmem | hmem
      · exact h.joined hmem
      · exact (Event.joined.inj (List.mem_singleton.mp hmem)).2.trans hdead
    · exact (List.mem_append.mp hmem).elim h.groupJoined fun hmem ↦
        nomatch List.mem_singleton.mp hmem
  | destroyGroup k hk =>
    refine h.of_others (hstay (fun w ↦ nofun) fun _ _ ↦ rfl) (fun _ ↦ Iff.rfl) (fun _ ↦ Iff.rfl)
      (fun _ ↦ rfl) (fun _ ↦ rfl) h.unborn h.object nofun
      (fun hk' ↦ h.life (of_update_eq hk' nofun).1) (fun heq ↦ ?_) h.joined h.groupJoined
    obtain rfl := Phase.closing.inj heq
    refine ⟨h.life hk, ?_⟩
    show update s.life k .closing k ≠ .alive
    rw [Function.update_self]
    exact nofun
  | destroyEmpty k hk hempty =>
    refine h.of_others (hstay (fun w ↦ nofun) fun _ _ ↦ rfl) (fun _ ↦ Iff.rfl) (fun _ ↦ Iff.rfl)
      (fun _ ↦ rfl) (fun _ ↦ rfl) h.unborn h.object nofun
      (fun hk' ↦ h.life (of_update_eq hk' nofun).1) nofun (fun {c st} hmem ↦ ?_)
      fun {k' l} hmem ↦ ?_
    · exact (List.mem_append.mp hmem).elim h.joined fun hmem ↦
        nomatch List.mem_singleton.mp hmem
    · rcases List.mem_append.mp hmem with hmem | hmem
      · exact h.groupJoined hmem
      · exact (Event.groupJoined.inj (List.mem_singleton.mp hmem)).2.trans hempty
  | cancelGuard =>
    exact hplain (fun w ↦ nofun) (fun c ↦ nofun) (fun k ↦ nofun)
      (fun g hg ↦ Function.update_of_ne hg ..) rfl rfl rfl rfl rfl rfl rfl
  | _ =>
    exact hplain (fun w ↦ nofun) (fun c ↦ nofun) (fun k ↦ nofun) (fun g _ ↦ rfl) rfl rfl rfl rfl rfl
      rfl rfl

end

end

/-! ## What the scheduler does -/

section

variable {v v' : View F G Q M S} {τ : Ties F G S}

theorem up_of_running {g : F} (h : v.running = none) : v.up g ↔ g ∈ v.queue :=
  or_iff_left fun hg ↦ nomatch h.symm.trans hg.1

theorem up_of_phase {g : F} (h : ¬ v.phase.Left) : v.up g ↔ g ∈ v.queue :=
  or_iff_left fun hg ↦ h hg.2

/-- Nobody who is in a destructor is woken. -/
theorem Joins.of_view (h : Joins v τ) (hplace : v'.place = v.place)
    (hup : ∀ {g w}, v.place g = some w → w.Joins → (v'.up g ↔ v.up g))
    (hjoining : ∀ c, v'.phase ≠ .joining c) (hclosing : ∀ k, v'.phase ≠ .closing k) :
    Joins v' τ := by
  refine h.of_others (fun {g w} hg hw ↦ ?_) (fun _ ↦ Iff.rfl) (fun _ ↦ Iff.rfl) (fun _ ↦ rfl)
    (fun _ ↦ rfl) h.unborn h.object (fun hc ↦ absurd hc (hjoining _)) h.life
    (fun hk ↦ absurd hk (hclosing _)) h.joined h.groupJoined
  rw [hplace] at hg
  exact ⟨hg, hup hg hw, rfl⟩

/-- The other pointers do not matter. -/
theorem Joins.untie (h : Joins v τ) (slots : S → Option F) (ts : List (Timer F)) :
    Joins v { τ with slot_ := slots, timers_ := ts } :=
  ⟨h.guarded, h.join, h.group, h.unborn, h.object, h.joining, h.life, h.closing, h.joined,
    h.groupJoined⟩

theorem not_left_entering {w : Where F G Q M S} : ¬ (Phase.entering w).Left := by
  rintro ⟨w', h | h⟩ <;> cases h

end

section

variable {f : F} {s : Sched F G Q M S}

theorem Joins.endScope (h : Joins s.view s.ties) (hparked : s.parked f = none) :
    Joins (endScope f s).view (endScope f s).ties := by
  rw [endScope_view]
  obtain ⟨saved, l, o, ts, heq, -⟩ := endScope_eq f s
  rw [heq]
  refine ⟨fun {g w} hg hw ↦ ?_, h.join, h.group, h.unborn, h.object, h.joining, h.life, h.closing,
    h.joined, h.groupJoined⟩
  have hgf : g ≠ f := by
    rintro rfl
    exact nomatch hg.symm.trans hparked
  exact (Function.update_of_ne hgf ..).trans (h.guarded hg hw)

/-- **The end of a fiber** wakes whoever waits for it, and for its group if it was the last. -/
theorem Joins.finish (h : Joins s.view s.ties) (hsound : Sound s.view s) (error : Bool) :
    Joins (finish f error s).view (finish f error s).ties := by
  obtain ⟨e, r, heq, hsub, -, hwaiter, hjoiner, hwoken⟩ := finish_eq f s error
  rw [heq]
  have hup {v : View F G Q M S} (hv : v.phase = .free) (g : F) : v.up g ↔ g ∈ v.queue :=
    up_of_phase (by rw [hv]; exact not_left_free)
  refine ⟨h.guarded, fun {g c b} hg ↦ ?_, fun {g k b} hg ↦ ?_, fun {c} hc ↦ ?_, h.object, nofun,
    h.life, nofun, h.joined, h.groupJoined⟩
  · obtain ⟨hwaits, hdead⟩ := h.join hg
    refine ⟨hwaits, ?_⟩
    rw [hup rfl] at hdead ⊢
    show g ∈ r ↔ update s.state_ f (some .Dead) c = some .Dead
    by_cases hcf : c = f
    · rw [hcf, Function.update_self]
      exact ⟨fun _ ↦ rfl, fun _ ↦ hwaiter g (hcf ▸ hwaits)⟩
    · rw [Function.update_of_ne hcf]
      refine ⟨fun hmem ↦ hdead.mp ((hwoken g hmem).resolve_right fun hwakes ↦ ?_), fun hst ↦
        hsub g (hdead.mpr hst)⟩
      -- it waits for `c`, not for this fiber, and not for a group
      rcases hwakes with hw | ⟨k, -, ⟨-, hw⟩ | hw⟩
      · obtain ⟨b', hat⟩ := hsound.tied.waiter hw
        exact hcf (Where.join.inj (Option.some.inj (hg.symm.trans hat))).1
      · obtain ⟨b', hat⟩ := hsound.tied.joiner hw
        exact nomatch hg.symm.trans hat
      · exact nomatch hg.symm.trans (hsound.tied.groupWaiter hw)
  · obtain ⟨hwaits, hempty⟩ := h.group hg
    refine ⟨hwaits, ?_⟩
    rw [hup rfl] at hempty ⊢
    show g ∈ r ↔ fibersWithout f s k = []
    constructor
    · intro hmem
      rcases hwoken g hmem with hold | hw | ⟨k', -, ⟨hnil, hw⟩ | hw⟩
      · refine List.eq_nil_iff_forall_not_mem.mpr fun c hc ↦ ?_
        have hc' := ((mem_fibersWithout hsound.alive).mp hc).1
        rw [show s.fibers_ k = [] from hempty.mp hold] at hc'
        exact absurd hc' List.not_mem_nil
      · obtain ⟨b', hat⟩ := hsound.tied.waiter hw
        exact nomatch hg.symm.trans hat
      · obtain ⟨b', hat⟩ := hsound.tied.joiner hw
        rw [(Where.group.inj (Option.some.inj (hg.symm.trans hat))).1]
        exact hnil
      · exact nomatch hg.symm.trans (hsound.tied.groupWaiter hw)
    · intro hnil
      by_cases hk : s.group_ f = some k
      · exact hjoiner k hk hnil g hwaits
      · rw [fibersWithout_of_ne hk] at hnil
        exact hsub g (hempty.mpr hnil)
  · exact h.unborn (of_update_eq hc nofun).1

end

/-- All that is true of destructors in every run of `careful` calls. -/
structure Joining (v : View F G Q M S) (s : Sched F G Q M S) : Prop where
  sound : Sound v s
  joins : Joins v s.ties

/-- **Every step** of a run of `careful` calls keeps it. -/
theorem kept_joining : Kept True (Joining (F := F) (G := G) (Q := Q) (M := M) (S := S)) where
  change h hinv := by
    have hsound := kept_sound.change h hinv.sound
    exact ⟨hsound, hinv.joins.change hinv.sound.placed hinv.sound.tied hinv.sound.alive h trivial
      hsound.alive⟩
  frame l t r p hinv := ⟨kept_sound.frame l t r p hinv.sound, hinv.joins⟩
  park {f w v s} hrunning hphase hplace hnone hinv := by
    refine ⟨kept_sound.park hrunning hphase hplace hnone hinv.sound,
      hinv.joins.of_view rfl (fun _ _ ↦ ?_) (fun c ↦ nofun) fun k ↦ nofun⟩
    rw [up_of_running rfl, up_of_phase (hphase ▸ not_left_entering)]
  resume {f w v s rest} hrunning hphase hplace hqueue hinv := by
    refine ⟨kept_sound.resume hrunning hphase hplace hqueue hinv.sound,
      hinv.joins.of_view rfl (fun {g w'} _ _ ↦ ?_) (fun c ↦ nofun) fun k ↦ nofun⟩
    rw [up_of_running hrunning, hqueue, List.mem_cons, or_comm]
    refine or_congr_right ⟨fun hg ↦ (Option.some.inj hg.1).symm, fun hg ↦ ?_⟩
    exact ⟨congrArg some hg.symm, w, .inl rfl⟩
  start {f v s rest} hrunning hphase hplace hqueue hinv := by
    refine ⟨kept_sound.start hrunning hphase hplace hqueue hinv.sound, ?_⟩
    have hlive : Live s.ties f := hinv.sound.alive.queue (hqueue ▸ List.mem_cons_self)
    refine hinv.joins.of_others (fun {g w} hg hw ↦ ⟨hg, ?_, rfl⟩) (fun c ↦ ?_) (fun _ ↦ Iff.rfl)
      (fun _ ↦ rfl) (fun _ ↦ rfl) (fun hc ↦ hinv.joins.unborn (of_update_eq hc nofun).1)
      hinv.joins.object (fun hc ↦ nomatch hphase.symm.trans hc) hinv.joins.life
      (fun hk ↦ nomatch hphase.symm.trans hk) hinv.joins.joined hinv.joins.groupJoined
    · have hgf : g ≠ f := by
        rintro rfl
        exact nomatch hg.symm.trans hplace
      rw [up_of_running hrunning, up_of_phase (hphase ▸ not_left_free), hqueue, List.mem_cons]
      exact (or_iff_right hgf).symm
    · show update s.state_ f _ c = _ ↔ s.state_ c = _
      by_cases hcf : c = f
      · rw [hcf, Function.update_self]
        exact ⟨nofun, fun hdead ↦ absurd hdead hlive.2⟩
      · rw [Function.update_of_ne hcf]
  endScope hloop hparked hinv :=
    ⟨kept_sound.endScope hloop hparked hinv.sound, hinv.joins.endScope hparked⟩
  finish hloop hparked hscopes hinv :=
    ⟨kept_sound.finish hloop hparked hscopes hinv.sound, hinv.joins.finish hinv.sound _⟩
  event {slot s} hrunning hinv := by
    refine ⟨kept_sound.event hrunning hinv.sound,
      (hinv.joins.untie (update s.slot_ slot none) s.timers_).of_view rfl (fun {g w} hg hw ↦ ?_)
        (fun c ↦ nofun) fun k ↦ nofun⟩
    refine Iff.trans (up_of_phase not_left_free) (Iff.trans ?_ (up_of_phase not_left_free).symm)
    refine mem_enqueue?.trans (or_iff_left fun hslot ↦ ?_)
    obtain rfl := Option.some.inj (hg.symm.trans (hinv.sound.tied.slot hslot))
    exact hw
  expire {t s} hrunning ht hinv := by
    refine ⟨kept_sound.expire hrunning ht hinv.sound, ?_⟩
    obtain ⟨b, o, r, heq, hsub, -, hwoken⟩ := onExpired_eq s t
    rw [heq]
    refine (hinv.joins.untie s.slot_ _).of_view rfl (fun {g w} hg hw ↦ ?_) (fun c ↦ nofun)
      fun k ↦ nofun
    refine Iff.trans (up_of_phase not_left_free) (Iff.trans ?_ (up_of_phase not_left_free).symm)
    refine ⟨fun hmem ↦ (hwoken g hmem).resolve_right ?_, hsub g⟩
    rintro ⟨rfl, hguard | hguarded⟩
    · obtain rfl := Option.some.inj (hg.symm.trans (hinv.sound.tied.sleeper ht hguard))
      exact hw
    · exact Bool.false_ne_true (hguarded.symm.trans (hinv.joins.guarded hg hw))

/-! ## Destructors -/

theorem sound_init (main : F) : Sound (init main : Sched F G Q M S).view (init main) := by
  have hmain : Live (init main : Sched F G Q M S).ties main := by
    refine ⟨?_, ?_⟩ <;> simp [Sched.ties, init]
  have htied : Tied (init main : Sched F G Q M S).view (init main : Sched F G Q M S).ties := by
    constructor <;> simp [Sched.ties, init]
  refine ⟨placed_init main, scoped_init main, htied, Alive.of_idle rfl rfl
    (List.nodup_singleton main) (fun hg ↦ ?_) (fun hg ↦ absurd rfl hg) (by simp [Sched.ties, init])
    (fun k ↦ List.nodup_nil) (fun hg ↦ absurd rfl hg) (by simp [Sched.ties, init])⟩
  rw [List.mem_singleton.mp hg]
  exact hmain

theorem joining_init (main : F) : Joining (init main : Sched F G Q M S).view (init main) :=
  ⟨sound_init main, nofun, nofun, nofun, fun _ ↦ rfl, nofun, nofun, fun _ ↦ rfl, nofun,
    nofun, nofun⟩

theorem mem_ties_log {s : Sched F G Q M S} {e : Event F G} (he : e.joins = true) :
    e ∈ s.ties.log ↔ e ∈ s.log := by
  rw [Sched.ties, List.mem_filter]
  exact and_iff_left he

/-- What a fiber in a destructor waits for has come about. -/
def Where.Joined (s : Sched F G Q M S) : Where F G Q M S → Prop
  | .join c _ => s.state_ c = some .Dead
  | .group k _ => s.fibers_ k = []
  | _ => False

/-- A fiber that is parked in a destructor is in the run queue exactly when this has come about. -/
theorem Joining.mem_run_queue {s : Sched F G Q M S} (h : Joining s.view s) {f : F}
    {w : Where F G Q M S} (hf : s.parked f = some w) (hw : w.Joins) :
    f ∈ s.run_queue_ ↔ w.Joined s := by
  cases w with
  | join c b => exact up_view.symm.trans (h.joins.join hf).2
  | group k b => exact up_view.symm.trans (h.joins.group hf).2
  | _ => exact hw.elim

/-- **Destructors wait.**  In every run in which no fiber destroys itself or its own group, and none
is spawned into a group whose destructor has been woken, the destructor of `Fiber` returns only when
the fiber is dead, and that of `Group` only when it is empty.  A fiber that is parked in one of them
is in the run queue exactly when what it waits for has come about, and the step that puts it there
brings this about. -/
theorem joined_dead {main : F} {s : Sched F G Q M S}
    {h : List (Sched F G Q M S × Action F G Q M S)} (hrun : Lib.Trace Step (init main) h s)
    (hcareful : ∀ x ∈ h, carefully x.1 x.2 = true) :
    (∀ c st, .joined c st ∈ s.log → st = some .Dead) ∧
    (∀ k l, .groupJoined k l ∈ s.log → l = []) ∧
    ∀ f w, s.parked f = some w → w.Joins →
      (f ∈ s.run_queue_ ↔ w.Joined s) ∧
      ∀ a s', Step s a s' → carefully s a = true → f ∉ s.run_queue_ → f ∈ s'.run_queue_ →
        ¬ w.Joined s ∧ w.Joined s' := by
  obtain ⟨hinv, hunparked⟩ := kept_joining.trace hrun (fun _ ↦ hcareful) (joining_init main)
  refine ⟨fun c st hmem ↦ hinv.joins.joined ((mem_ties_log rfl).mpr hmem),
    fun k l hmem ↦ hinv.joins.groupJoined ((mem_ties_log rfl).mpr hmem), fun f w hf hw ↦ ?_⟩
  have hup := hinv.mem_run_queue hf hw
  refine ⟨hup, fun a s' hstep ha hout hin ↦ ⟨fun hjoined ↦ hout (hup.mpr hjoined), ?_⟩⟩
  have hmove : Move True s a s' := hstep.move fun _ ↦ ha
  obtain ⟨hinv', -⟩ := kept_joining.step hmove ⟨hinv, hunparked⟩
  exact (hinv'.mem_run_queue (hmove.parked hunparked hf hout) hw).mp hin

/-- The main fiber destroys a `Fiber`, waits until it has ended, and goes on. -/
theorem joined_dead_destroyed :
    ∃ (h : List (Sched (Fin 2) Unit Unit Unit Unit × Action (Fin 2) Unit Unit Unit Unit))
      (s : Sched (Fin 2) Unit Unit Unit Unit),
      Lib.Trace Step (init 0) h s ∧ (∀ x ∈ h, carefully x.1 x.2 = true) ∧
        ∃ st, .joined 1 st ∈ s.log ∧ st = some .Dead := by
  obtain ⟨h, s, hrun, hp⟩ := exists_trace_of_play
    (init 0 : Sched (Fin 2) Unit Unit Unit Unit)
    [.tick 0, .run, .call (.fiber 1), .call (.destroyFiber 1), .tick 0, .run,
      .call (.finish false), .tick 0, .run]
    (fun x ↦ (∀ y ∈ x.1, carefully y.1 y.2 = true) ∧
      .joined 1 (some .Dead) ∈ x.2.log)
    (by decide +kernel)
  obtain ⟨hcareful, hmem⟩ := of_decide_eq_true hp
  exact ⟨h, s, hrun, hcareful, _, hmem, (joined_dead hrun hcareful).1 1 _ hmem⟩

/-- What breaks it: fiber `1` destroys its own `Fiber`, and goes on while it runs; it destroys the
group it is in, and goes on while it is in the group; and fiber `2` spawns fiber `3` into a group
after fiber `1`, the last one, has woken the destructor of the group. -/
theorem joined_running :
    (∃ (h : List (Sched (Fin 4) Unit Unit Unit Unit × Action (Fin 4) Unit Unit Unit Unit))
      (s : Sched (Fin 4) Unit Unit Unit Unit),
      Lib.Trace Step (init 0) h s ∧ .joined 1 (some .Running) ∈ s.log) ∧
    (∃ (h : List (Sched (Fin 4) Unit Unit Unit Unit × Action (Fin 4) Unit Unit Unit Unit))
      (s : Sched (Fin 4) Unit Unit Unit Unit),
      Lib.Trace Step (init 0) h s ∧ .groupJoined () [1] ∈ s.log) ∧
    ∃ (h : List (Sched (Fin 4) Unit Unit Unit Unit × Action (Fin 4) Unit Unit Unit Unit))
      (s : Sched (Fin 4) Unit Unit Unit Unit),
      Lib.Trace Step (init 0) h s ∧ .groupJoined () [3] ∈ s.log := by
  refine ⟨?_, ?_, ?_⟩
  · obtain ⟨h, s, hrun, hp⟩ := exists_trace_of_play
      (init 0 : Sched (Fin 4) Unit Unit Unit Unit)
      [.tick 0, .run, .call (.fiber 1), .call .yield, .tick 0, .run, .call (.destroyFiber 1),
        .tick 0, .run, .call .yield, .tick 0, .run]
      (fun x ↦ .joined 1 (some .Running) ∈ x.2.log) (by decide +kernel)
    exact ⟨h, s, hrun, of_decide_eq_true hp⟩
  · obtain ⟨h, s, hrun, hp⟩ := exists_trace_of_play
      (init 0 : Sched (Fin 4) Unit Unit Unit Unit)
      [.tick 0, .run, .call (.spawn () 1), .call .yield, .tick 0, .run, .call (.destroyGroup ()),
        .tick 0, .run, .call .yield, .tick 0, .run]
      (fun x ↦ .groupJoined () [1] ∈ x.2.log) (by decide +kernel)
    exact ⟨h, s, hrun, of_decide_eq_true hp⟩
  · obtain ⟨h, s, hrun, hp⟩ := exists_trace_of_play
      (init 0 : Sched (Fin 4) Unit Unit Unit Unit)
      [.tick 0, .run, .call (.spawn () 1), .call (.fiber 2), .call (.destroyGroup ()),
        .tick 0, .run, .call (.finish false), .tick 0, .run, .call (.spawn () 3),
        .call (.finish false), .tick 0, .run]
      (fun x ↦ .groupJoined () [3] ∈ x.2.log) (by decide +kernel)
    exact ⟨h, s, hrun, of_decide_eq_true hp⟩

end Cactus
end ManyTasks
