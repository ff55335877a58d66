import ManyTasks.SyncMap.Insertion

/-!
# Calls of the map with snapshots take effect at once

A call that finds what it needs in the snapshot, or finds that the snapshot lacks the key and is not
dirty, takes effect when it reads the pointer to the snapshot; all others take effect under the
lock.  That the first is so, though the call looks into the snapshot later, is since the map in a
snapshot is not changed any more (`Frozen`): the map that is changed is never one that has been
published.

* `map_linearizable`: the map is linearizable; of the calls of `Insert` for a key at most one
  returns true; a `Lookup` that begins after this finds the entry, and none finds anything else; and
  a published map stays as it is.
-/

set_option autoImplicit false
set_option linter.unusedSectionVars false

namespace ManyTasks
namespace SyncMap

open Function (update)
open Lib (Atomic Progress)

variable {C K V : Type}

/-! ## What is under the lock -/

/-- All entries. -/
def State.contents (s : State C K V) : K → Option V := fun key ↦
  (s.maps s.snapshot_.read_only key).or (s.mutable_map_.bind fun a ↦ s.maps a key)

/-- The map at the address is not the one that is changed, and will not be. -/
structure Frozen (s : State C K V) (a : ℕ) : Prop where
  lt : a < s.next
  ne : s.mutable_map_ ≠ some a

/-- The map that is changed is not that of the snapshot, has no key of it, and makes the snapshot
dirty. -/
structure Core (s : State C K V) : Prop where
  fresh : s.snapshot_.read_only < s.next
  lt {a : ℕ} : s.mutable_map_ = some a → a < s.next
  ne : s.mutable_map_ ≠ some s.snapshot_.read_only
  dirty : s.snapshot_.dirty = s.mutable_map_.isSome
  disjoint {a : ℕ} {key : K} {v : V} : s.mutable_map_ = some a →
    s.maps s.snapshot_.read_only key = some v → s.maps a key = none

section

variable {s : State C K V} {key : K}

theorem contents_of_some {v : V} (h : s.maps s.snapshot_.read_only key = some v) :
    s.contents key = some v := by
  rw [State.contents, h]
  rfl

theorem contents_of_none (h : s.maps s.snapshot_.read_only key = none) :
    s.contents key = s.mutable_map_.bind fun a ↦ s.maps a key := by
  rw [State.contents, h]
  rfl

/-- What the section under the lock has to do for the operation. -/
structure Locked [DecidableEq K] (s : State C K V) (op : Op K V) (res : Res V) (s' : State C K V) :
    Prop where
  core : Core s'
  apply_eq : apply s.contents op = (res, s'.contents)
  frozen {a : ℕ} : Frozen s a → Frozen s' a ∧ s'.maps a = s.maps a

variable [DecidableEq K]

/-- Nothing is done. -/
theorem Locked.refl (h : Core s) {op : Op K V} {res : Res V}
    (happly : apply s.contents op = (res, s.contents)) : Locked s op res s :=
  ⟨h, happly, fun ha ↦ ⟨ha, rfl⟩⟩

theorem locked_lookup (h : Core s) :
    Locked s (.lookup key) (.found (lookupLocked key s).1) (lookupLocked key s).2 := by
  unfold lookupLocked
  split
  · rename_i v hro
    exact .refl h (by rw [apply, contents_of_some hro])
  · rename_i hro
    have hkey := contents_of_none hro
    split
    · rename_i hmap
      rw [hmap] at hkey
      exact .refl h (by rw [apply, hkey]; rfl)
    · rename_i map hmap
      rw [hmap] at hkey
      dsimp only
      split
      · -- the map that was changed becomes the snapshot
        have hcontents : insertAll (s.maps map) (s.maps s.snapshot_.read_only) = s.contents := by
          funext key'
          rw [insertAll]
          cases hro' : s.maps s.snapshot_.read_only key' with
          | some v =>
            rw [h.disjoint hmap hro', contents_of_some hro']
            rfl
          | none =>
            rw [contents_of_none hro', hmap, Option.or_none]
            rfl
        refine ⟨⟨h.lt hmap, (by simp), (by simp), rfl, (by simp)⟩, ?_,
          fun {a} ha ↦ ⟨⟨ha.lt, (by simp)⟩, ?_⟩⟩
        · rw [apply, hkey]
          refine congrArg (Prod.mk _) ?_
          funext key'
          show s.contents key' = (update s.maps map _ map key').or none
          rw [Function.update_self, hcontents, Option.or_none]
        · exact Function.update_of_ne (fun heq ↦ ha.ne (hmap.trans (congrArg some heq.symm))) ..
      · refine ⟨⟨h.fresh, h.lt, h.ne, h.dirty, h.disjoint⟩, ?_, fun ha ↦ ⟨⟨ha.lt, ha.ne⟩, rfl⟩⟩
        rw [apply, hkey]
        rfl

theorem locked_insert (h : Core s) (value : V) :
    Locked s (.insert key value) (.inserted (insertLocked key value s).1)
      (insertLocked key value s).2 := by
  unfold insertLocked
  split
  · rename_i v hro
    exact .refl h (apply_of_some (contents_of_some hro) value)
  · rename_i hro
    have hkey := contents_of_none hro
    have hother {key' : K} {v : V} (hv : s.maps s.snapshot_.read_only key' = some v) :
        key' ≠ key := by
      rintro rfl
      rw [hro] at hv
      cases hv
    split
    · rename_i hmap
      rw [hmap] at hkey
      have hne : s.snapshot_.read_only ≠ s.next := Nat.ne_of_lt h.fresh
      refine ⟨⟨Nat.lt_succ_of_lt h.fresh, fun {a} ha ↦ ?_, fun heq ↦ ?_, rfl,
        fun {a key' v} ha hv ↦ ?_⟩, ?_, fun {a} ha ↦ ⟨⟨Nat.lt_succ_of_lt ha.lt, fun heq ↦ ?_⟩, ?_⟩⟩
      · obtain rfl := Option.some.inj ha
        exact Nat.lt_succ_self _
      · exact hne (Option.some.inj heq).symm
      · obtain rfl := Option.some.inj ha
        change update s.maps s.next _ s.snapshot_.read_only key' = some v at hv
        rw [Function.update_of_ne hne] at hv
        show update s.maps s.next _ s.next key' = none
        rw [Function.update_self, Function.update_of_ne (hother hv)]
      · rw [apply_of_none hkey]
        refine congrArg (Prod.mk _) ?_
        funext key'
        show _ = (update s.maps s.next _ s.snapshot_.read_only key').or
          (update s.maps s.next _ s.next key')
        rw [Function.update_of_ne hne, Function.update_self]
        by_cases hk : key' = key
        · rw [hk, Function.update_self, Function.update_self, hro]
          rfl
        · rw [Function.update_of_ne hk, Function.update_of_ne hk, State.contents, hmap]
          rfl
      · exact Nat.ne_of_lt ha.lt (Option.some.inj heq).symm
      · exact Function.update_of_ne (Nat.ne_of_lt ha.lt) ..
    · rename_i map hmap
      rw [hmap] at hkey
      split
      · rename_i hold
        have hne : s.snapshot_.read_only ≠ map :=
          fun heq ↦ h.ne (hmap.trans (congrArg some heq.symm))
        refine ⟨⟨h.fresh, h.lt, h.ne, h.dirty, fun {a key' v} ha hv ↦ ?_⟩, ?_, fun {a} ha ↦
          ⟨⟨ha.lt, ha.ne⟩, ?_⟩⟩
        · obtain rfl := Option.some.inj (hmap.symm.trans ha)
          change update s.maps map _ s.snapshot_.read_only key' = some v at hv
          rw [Function.update_of_ne hne] at hv
          show update s.maps map _ map key' = none
          rw [Function.update_self, Function.update_of_ne (hother hv)]
          exact h.disjoint hmap hv
        · rw [apply_of_none (hkey.trans hold)]
          refine congrArg (Prod.mk _) ?_
          funext key'
          show _ = (update s.maps map _ s.snapshot_.read_only key').or
            (s.mutable_map_.bind fun a ↦ update s.maps map _ a key')
          rw [hmap, Option.bind_some, Function.update_of_ne hne, Function.update_self]
          by_cases hk : key' = key
          · rw [hk, Function.update_self, Function.update_self, hro]
            rfl
          · rw [Function.update_of_ne hk, Function.update_of_ne hk, State.contents, hmap]
            rfl
        · exact Function.update_of_ne (fun heq ↦ ha.ne (hmap.trans (congrArg some heq.symm))) ..
      · rename_i v hold
        exact .refl h (apply_of_some (hkey.trans hold) value)

theorem locked_spec [DecidableEq C] (h : Core s) (op : Op K V) :
    Locked s op (locked s op).1 (locked s op).2 := by
  cases op with
  | lookup key => exact locked_lookup h
  | insert key value => exact locked_insert h value

/-- A call that is settled by the current snapshot takes effect when it reads it. -/
theorem Core.readSnapshot (h : Core s) {op : Op K V} {res : Res V}
    (hres : readSnapshot s.maps s.snapshot_ op = some res) :
    apply s.contents op = (res, s.contents) := by
  cases op with
  | lookup key =>
    dsimp only [SyncMap.readSnapshot] at hres
    cases hro : s.maps s.snapshot_.read_only key with
    | some v =>
      rw [hro] at hres
      rw [apply, contents_of_some hro, ← Option.some.inj hres]
    | none =>
      rw [hro] at hres
      have hdirty := h.dirty
      cases hmap : s.mutable_map_ with
      | none =>
        rw [hmap] at hdirty
        rw [hdirty] at hres
        rw [apply, contents_of_none hro, hmap, ← Option.some.inj hres]
        rfl
      | some map =>
        rw [hmap] at hdirty
        rw [hdirty] at hres
        cases hres
  | insert key value =>
    dsimp only [SyncMap.readSnapshot] at hres
    cases hro : s.maps s.snapshot_.read_only key with
    | some v =>
      rw [hro] at hres
      rw [apply_of_some (contents_of_some hro), ← Option.some.inj hres]
    | none =>
      rw [hro] at hres
      cases hres

end

/-! ## Calls -/

/-- How far the call has come, of that which takes effect at once. -/
def Call.progress (maps : ℕ → K → Option V) : Call K V → Progress (Op K V) (Res V)
  | .idle => .idle
  | .called op => .called op
  | .acquired op snapshot => (readSnapshot maps snapshot op).elim (.called op) (.done op)
  | .waiting op => .called op
  | .returning op res => .done op res
  | .returned op res => .returned op res

variable [DecidableEq C] [DecidableEq K]

/-- The state stands for the entries and calls that take effect at once. -/
structure Implements (s : State C K V) (o : Atomic C (Op K V) (Res V) (K → Option V)) : Prop where
  core : Core s
  frozen {c : C} {op : Op K V} {snapshot : Snapshot} :
    s.calls c = .acquired op snapshot → Frozen s snapshot.read_only
  state : o.state = s.contents
  calls (c : C) : o.calls c = (s.calls c).progress s.maps

section

variable {s s' : State C K V} {o : Atomic C (Op K V) (Res V) (K → Option V)}

theorem readSnapshot_congr {maps maps' : ℕ → K → Option V} {snapshot : Snapshot}
    (h : maps' snapshot.read_only = maps snapshot.read_only) (op : Op K V) :
    readSnapshot maps' snapshot op = readSnapshot maps snapshot op := by
  cases op with
  | lookup key => rw [readSnapshot, readSnapshot, h]
  | insert key value => rw [readSnapshot, readSnapshot, h]

theorem implements_init :
    Implements (init : State C K V) (.init fun _ ↦ none) :=
  ⟨⟨Nat.zero_lt_one, nofun, nofun, rfl, nofun⟩, nofun, rfl, fun _ ↦ rfl⟩

/-- One call goes on, and the map stays as it is. -/
theorem Implements.update (h : Implements s o) {c : C} {x : Call K V}
    {p : Progress (Op K V) (Res V)} (hp : p = x.progress s.maps)
    (hx : ∀ op snapshot, x = .acquired op snapshot → snapshot = s.snapshot_) :
    Implements { s with calls := update s.calls c x } { o with calls := update o.calls c p } := by
  refine ⟨⟨h.core.fresh, h.core.lt, h.core.ne, h.core.dirty, h.core.disjoint⟩,
    fun {c' op snapshot} hc' ↦ ?_, h.state, fun c' ↦ ?_⟩
  · change Function.update s.calls c x c' = _ at hc'
    by_cases hc : c' = c
    · rw [hc, Function.update_self] at hc'
      rw [hx op snapshot hc']
      exact ⟨h.core.fresh, h.core.ne⟩
    · rw [Function.update_of_ne hc] at hc'
      exact ⟨(h.frozen hc').lt, (h.frozen hc').ne⟩
  · show Function.update o.calls c p c' = (Function.update s.calls c x c').progress s.maps
    by_cases hc : c' = c
    · rw [hc, Function.update_self, Function.update_self, hp]
    · rw [Function.update_of_ne hc, Function.update_of_ne hc, h.calls c']

/-- The same, where nothing takes effect. -/
theorem Implements.stutter (h : Implements s o) {c : C} {x : Call K V}
    (hp : (s.calls c).progress s.maps = x.progress s.maps)
    (hx : ∀ op snapshot, x = .acquired op snapshot → snapshot = s.snapshot_) :
    Implements { s with calls := Function.update s.calls c x } o := by
  have hupdate := h.update (c := c) hp hx
  rwa [← h.calls c, Function.update_eq_self] at hupdate

/-- **One step** of the map is one of an object whose calls take effect at once. -/
theorem Implements.step (h : Implements s o) {l : Lib.Label C (Op K V) (Res V)}
    (hstep : Step s l s') : ∃ o', Atomic.Step apply o l o' ∧ Implements s' o' := by
  have hcalls {c : C} {x : Call K V} (hc : s.calls c = x) : o.calls c = x.progress s.maps :=
    (h.calls c).trans (by rw [hc])
  cases hstep with
  | call c op hc => exact ⟨_, .call c op (hcalls hc), h.update rfl nofun⟩
  | acquire c op hc =>
    have hx (op' : Op K V) (snapshot : Snapshot)
        (heq : Call.acquired op s.snapshot_ = .acquired op' snapshot) : snapshot = s.snapshot_ :=
      (Call.acquired.inj heq).2.symm
    cases hres : readSnapshot s.maps s.snapshot_ op with
    | none =>
      refine ⟨o, .stutter, h.stutter ?_ hx⟩
      rw [hc, Call.progress, Call.progress, hres]
      rfl
    | some res =>
      refine ⟨_, .effect c op (hcalls hc), ?_⟩
      rw [h.state, h.core.readSnapshot hres, ← h.state]
      refine h.update ?_ hx
      rw [Call.progress, hres]
      rfl
  | read c op snapshot hc =>
    refine ⟨o, .stutter, h.stutter ?_ fun op' snapshot' heq ↦ ?_⟩
    · rw [hc, Call.progress]
      cases readSnapshot s.maps snapshot op <;> rfl
    · cases hres : readSnapshot s.maps snapshot op <;> rw [hres] at heq <;> cases heq
  | lock c op hc =>
    refine ⟨_, .effect c op (hcalls hc), ?_⟩
    have hlocked := locked_spec h.core op
    rw [h.state, hlocked.apply_eq]
    refine ⟨⟨hlocked.core.fresh, hlocked.core.lt, hlocked.core.ne, hlocked.core.dirty,
      hlocked.core.disjoint⟩, fun {c' op' snapshot} hc' ↦ ?_, rfl, fun c' ↦ ?_⟩
    · have hold : s.calls c' = .acquired op' snapshot := by
        change Function.update s.calls c _ c' = _ at hc'
        by_cases hcc : c' = c
        · rw [hcc, Function.update_self] at hc'
          cases hc'
        · rwa [Function.update_of_ne hcc] at hc'
      obtain ⟨hfrozen, -⟩ := hlocked.frozen (h.frozen hold)
      exact ⟨hfrozen.lt, hfrozen.ne⟩
    · show Function.update o.calls c _ c' = (Function.update s.calls c _ c').progress _
      by_cases hcc : c' = c
      · rw [hcc, Function.update_self, Function.update_self]
        rfl
      · rw [Function.update_of_ne hcc, Function.update_of_ne hcc, h.calls c']
        -- what another call has seen in its snapshot is still there
        cases hc' : s.calls c' with
        | acquired op' snapshot =>
          obtain ⟨-, hmaps⟩ := hlocked.frozen (h.frozen hc')
          rw [Call.progress, Call.progress, readSnapshot_congr hmaps]
        | _ => rfl
  | ret c op res hc => exact ⟨_, .ret c op res (hcalls hc), h.update rfl nofun⟩

/-- A map that is published stays as it is. -/
theorem Frozen.step (h : Implements s o) {a : ℕ} (ha : Frozen s a)
    {l : Lib.Label C (Op K V) (Res V)} (hstep : Step s l s') :
    Frozen s' a ∧ s'.maps a = s.maps a := by
  cases hstep with
  | lock c op hc =>
    obtain ⟨hfrozen, hmaps⟩ := (locked_spec h.core op).frozen ha
    exact ⟨⟨hfrozen.lt, hfrozen.ne⟩, hmaps⟩
  | _ => exact ⟨⟨ha.lt, ha.ne⟩, rfl⟩

end

/-! ## Runs -/

/-- The call and its result, once it has one. -/
def Call.result : Call K V → Option (Op K V × Res V)
  | .returning op res | .returned op res => some (op, res)
  | _ => none

section

variable {s s' : State C K V} {o : Atomic C (Op K V) (Res V) (K → Option V)}

theorem Implements.results (h : Implements s o) {c : C} {x : Op K V × Res V}
    (hc : (s.calls c).result = some x) : o.results c = some x := by
  rw [Atomic.results, h.calls c]
  cases hcall : s.calls c <;> rw [hcall] at hc <;> first | exact hc | cases hc

/-- A successful `Insert` has been under the lock. -/
theorem Implements.inserted (h : Implements s o) {c : C} {key : K} {v : V}
    (hc : o.results c = some (.insert key v, .inserted true)) :
    (s.calls c).result = some (.insert key v, .inserted true) := by
  rw [Atomic.results, h.calls c] at hc
  cases hcall : s.calls c with
  | returning op res => rwa [hcall] at hc
  | returned op res => rwa [hcall] at hc
  | acquired op snapshot =>
    rw [hcall, Call.progress] at hc
    cases hres : readSnapshot s.maps snapshot op with
    | none =>
      rw [hres] at hc
      cases hc
    | some res =>
      rw [hres] at hc
      obtain ⟨rfl, rfl⟩ := Prod.mk.inj (Option.some.inj hc)
      dsimp only [readSnapshot] at hres
      split at hres <;> cases hres
  | _ =>
    rw [hcall] at hc
    cases hc

end

/-- **The map is linearizable**, and of a key it is always one entry that is seen.  In every state
that is reached, no two calls of `Insert` have returned true for a key, and what a `Lookup` has
found, some `Insert` has inserted.  From there on, every `Lookup` that begins after an `Insert` has
returned true finds its value, and the map in the snapshot is not changed any more. -/
theorem map_linearizable :
    Lib.Linearizable apply Step (init : State C K V) (fun _ ↦ none) ∧
    ∀ h (s : State C K V), Lib.Trace Step init h s →
      (∀ c c' key v v', s.calls c = .returned (.insert key v) (.inserted true) →
        s.calls c' = .returned (.insert key v') (.inserted true) → c = c') ∧
      (∀ c key v, s.calls c = .returned (.lookup key) (.found (some v)) →
        ∃ c', (s.calls c').result = some (.insert key v, .inserted true)) ∧
      ∀ h' s', Lib.Trace Step s h' s' →
        (∀ c c' key v r, s.calls c = .returned (.insert key v) (.inserted true) →
          s.calls c' = .idle → s'.calls c' = .returned (.lookup key) r → r = .found (some v)) ∧
        s'.maps s.snapshot_.read_only = s.maps s.snapshot_.read_only := by
  refine ⟨fun h s hrun ↦ ?_, fun h s hrun ↦ ?_⟩
  · obtain ⟨h', o, hrun', hlabels, -⟩ :=
      hrun.simulation implements_init fun _ _ _ _ hR hstep ↦ hR.step hstep
    exact ⟨h', o, hrun', hlabels⟩
  -- the same run, of calls that take effect at once
  obtain ⟨h₁, o, hrun₁, -, hR⟩ :=
    hrun.simulation implements_init fun _ _ _ _ hR hstep ↦ hR.step hstep
  have hinserted : Inserted o :=
    hrun₁.invariant (I := fun _ o ↦ Inserted o) inserted_init fun _ _ _ _ hI hstep ↦ hI.step hstep
  have hresults {c : C} {op : Op K V} {r : Res V} (hc : s.calls c = .returned op r) :
      o.results c = some (op, r) := hR.results (by rw [hc]; rfl)
  refine ⟨fun c c' key v v' hc hc' ↦ hinserted.unique (hresults hc) (hresults hc'),
    fun c key v hc ↦ ?_, fun h' s' hrun' ↦ ⟨fun c c' key v r hc hidle hret ↦ ?_, ?_⟩⟩
  · obtain ⟨c', hc'⟩ := hinserted.entry.mp (hinserted.found (hresults hc))
    exact ⟨c', hR.inserted hc'⟩
  · obtain ⟨h₂, o', hrun₂, -, hR'⟩ := hrun'.simulation hR fun _ _ _ _ hR hstep ↦ hR.step hstep
    have hnone : o.results c' = none := by
      rw [Atomic.results, hR.calls c', hidle]
      rfl
    have hvisible : Visible key v c' o := by
      refine ⟨hinserted.entry.mpr ⟨c, hresults hc⟩, fun hr ↦ ?_⟩
      rw [hnone] at hr
      cases hr
    have hvisible' : Visible key v c' o' :=
      hrun₂.invariant (I := fun _ o ↦ Visible key v c' o) hvisible fun _ _ _ _ hI hstep ↦
        hI.step hstep
    exact hvisible'.found (hR'.results (by rw [hret]; rfl))
  · have hfrozen : (∃ o', Implements s' o') ∧ Frozen s' s.snapshot_.read_only ∧
        s'.maps s.snapshot_.read_only = s.maps s.snapshot_.read_only := by
      refine hrun'.invariant (I := fun _ s' ↦ (∃ o', Implements s' o') ∧
        Frozen s' s.snapshot_.read_only ∧
        s'.maps s.snapshot_.read_only = s.maps s.snapshot_.read_only)
        ⟨⟨o, hR⟩, ⟨hR.core.fresh, hR.core.ne⟩, rfl⟩ fun _ s₁ _ s₂ hI hstep ↦ ?_
      obtain ⟨⟨o₁, hR₁⟩, hfrozen, hmaps⟩ := hI
      obtain ⟨o₂, -, hR₂⟩ := hR₁.step hstep
      obtain ⟨hfrozen', hmaps'⟩ := hfrozen.step hR₁ hstep
      exact ⟨⟨o₂, hR₂⟩, hfrozen', hmaps'.trans hmaps⟩
    exact hfrozen.2.2

/-- An `Insert` returns true, and a `Lookup` that begins then finds the value, under the lock. -/
theorem map_linearizable_dirty :
    ∃ h h' r, ∃ s s' : State (Fin 2) ℕ ℕ, Lib.Trace Step init h s ∧
      s.calls 0 = .returned (.insert 7 1) (.inserted true) ∧ s.calls 1 = .idle ∧
      Lib.Trace Step s h' s' ∧ s'.calls 1 = .returned (.lookup 7) r ∧ r = .found (some 1) := by
  have hrun : ∃ h, ∃ s : State (Fin 2) ℕ ℕ, Lib.Trace Step init h s ∧
      s.calls 0 = .returned (.insert 7 1) (.inserted true) ∧ s.calls 1 = .idle ∧
      ∃ h' s', Lib.Trace Step s h' s' ∧ ∃ r, s'.calls 1 = .returned (.lookup 7) r :=
    ⟨_, _, .cons (.call 0 (.insert 7 1) rfl) <| .cons (.acquire 0 _ rfl) <|
      .cons (.read 0 _ _ rfl) <| .cons (.lock 0 (.insert 7 1) rfl) <| .cons (.ret 0 _ _ rfl) .nil,
      rfl, rfl, _, _, .cons (.call 1 (.lookup 7) rfl) <| .cons (.acquire 1 _ rfl) <|
      .cons (.read 1 _ _ rfl) <| .cons (.lock 1 (.lookup 7) rfl) <| .cons (.ret 1 _ _ rfl) .nil,
      _, rfl⟩
  obtain ⟨h, s, hrun, hc, hidle, h', s', hrun', r, hret⟩ := hrun
  obtain ⟨-, -, hlater⟩ := map_linearizable.2 h s hrun
  exact ⟨h, h', r, s, s', hrun, hc, hidle, hrun', hret,
    (hlater h' s' hrun').1 0 1 7 1 r hc hidle hret⟩

end SyncMap
end ManyTasks
