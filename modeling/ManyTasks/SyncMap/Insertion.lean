import ManyTasks.SyncMap.Map

/-!
# A map into which keys are inserted once

What `SyncMap` is for: `Insert` does nothing if the key is there, and nothing is ever removed.  Here
the calls take effect at once (`Lib.Atomic`), so what is true of all runs is seen from the state
alone: an entry is in the map exactly if some `Insert` of it has succeeded, and no two have for one
key.
-/

set_option autoImplicit false

namespace ManyTasks
namespace SyncMap

open Function (update)
open Lib (Atomic)

variable {C K V : Type} [DecidableEq C] [DecidableEq K]

/-- What the operations do to the entries, and what they return. -/
def apply (map : K → Option V) : Op K V → Res V × (K → Option V)
  | .lookup key => (.found (map key), map)
  | .insert key value =>
    match map key with
    | some _ => (.inserted false, map)
    | none => (.inserted true, update map key (some value))

theorem apply_of_some {map : K → Option V} {key : K} {v : V} (h : map key = some v) (value : V) :
    apply map (.insert key value) = (.inserted false, map) := by
  rw [apply, h]

theorem apply_of_none {map : K → Option V} {key : K} (h : map key = none) (value : V) :
    apply map (.insert key value) = (.inserted true, update map key (some value)) := by
  rw [apply, h]

/-- Entries stay. -/
theorem apply_stays {map : K → Option V} {key : K} {v : V} (h : map key = some v) (op : Op K V) :
    (apply map op).2 key = some v := by
  cases op with
  | lookup key' => exact h
  | insert key' value =>
    cases hkey : map key' with
    | some v' => rwa [apply_of_some hkey]
    | none =>
      have hne : key ≠ key' := by
        rintro rfl
        rw [h] at hkey
        cases hkey
      rw [apply_of_none hkey]
      exact (Function.update_of_ne hne ..).trans h

/-- Entries and successful calls of `Insert` are the same, and a `Lookup` finds entries only. -/
structure Inserted (o : Atomic C (Op K V) (Res V) (K → Option V)) : Prop where
  entry {key : K} {v : V} :
    o.state key = some v ↔ ∃ c, o.results c = some (.insert key v, .inserted true)
  unique {c c' : C} {key : K} {v v' : V} : o.results c = some (.insert key v, .inserted true) →
    o.results c' = some (.insert key v', .inserted true) → c = c'
  found {c : C} {key : K} {v : V} :
    o.results c = some (.lookup key, .found (some v)) → o.state key = some v

omit [DecidableEq C] [DecidableEq K] in
theorem inserted_init : Inserted (.init fun _ ↦ none : Atomic C (Op K V) (Res V) (K → Option V)) :=
  ⟨⟨nofun, nofun⟩, nofun, nofun⟩

theorem Inserted.step {o o' : Atomic C (Op K V) (Res V) (K → Option V)}
    {l : Lib.Label C (Op K V) (Res V)} (h : Inserted o) (hstep : Atomic.Step apply o l o') :
    Inserted o' := by
  obtain ⟨hstate, hresults⟩ | ⟨c, op, hnone, hstate, hresults⟩ := hstep.results
  · constructor
    all_goals rw [hresults]
    · rw [hstate]
      exact h.entry
    · exact h.unique
    · rw [hstate]
      exact h.found
  -- a call that has taken effect before keeps its result
  have hold {c' : C} {x : Op K V × Res V} (hx : o.results c' = some x) :
      o'.results c' = some x := by
    have hne : c' ≠ c := by
      rintro rfl
      rw [hnone] at hx
      cases hx
    rw [hresults, Function.update_of_ne hne]
    exact hx
  have hnew {c' : C} {x : Op K V × Res V} (hx : o'.results c' = some x) :
      o.results c' = some x ∨ c' = c ∧ (op, (apply o.state op).1) = x := by
    rw [hresults] at hx
    by_cases hc : c' = c
    · rw [hc, Function.update_self] at hx
      exact .inr ⟨hc, Option.some.inj hx⟩
    · rw [Function.update_of_ne hc] at hx
      exact .inl hx
  -- nothing is inserted
  have hquiet (hsame : o'.state = o.state)
      (hinsert : ∀ {c' key v}, o'.results c' = some (.insert key v, .inserted true) →
        o.results c' = some (.insert key v, .inserted true))
      (hfound : ∀ {c' key v}, o'.results c' = some (.lookup key, .found (some v)) →
        o.state key = some v) : Inserted o' := by
    refine ⟨fun {key v} ↦ ?_, fun hc hc' ↦ h.unique (hinsert hc) (hinsert hc'), fun hc ↦ ?_⟩
    · rw [hsame, h.entry]
      exact ⟨fun ⟨c', hc'⟩ ↦ ⟨c', hold hc'⟩, fun ⟨c', hc'⟩ ↦ ⟨c', hinsert hc'⟩⟩
    · rw [hsame]
      exact hfound hc
  cases op with
  | lookup key₀ =>
    refine hquiet hstate (fun hx ↦ (hnew hx).resolve_right fun heq ↦ nomatch heq.2) fun hx ↦ ?_
    rcases hnew hx with hx | ⟨-, heq⟩
    · exact h.found hx
    · obtain ⟨hop, hres⟩ := Prod.mk.inj heq
      obtain rfl := Op.lookup.inj hop
      exact Res.found.inj hres
  | insert key₀ v₀ =>
    have hfound {c' : C} {key : K} {v : V}
        (hx : o'.results c' = some (.lookup key, .found (some v))) : o.state key = some v :=
      h.found ((hnew hx).resolve_right fun heq ↦ nomatch heq.2)
    cases hkey : o.state key₀ with
    | some v₁ =>
      rw [apply_of_some hkey] at hstate hnew
      exact hquiet hstate (fun hx ↦ (hnew hx).resolve_right fun heq ↦
        nomatch (Prod.mk.inj heq.2).2) hfound
    | none =>
      rw [apply_of_none hkey] at hstate hnew
      change o'.state = update o.state key₀ (some v₀) at hstate
      have hinsert {c' : C} {key : K} {v : V}
          (hx : o'.results c' = some (.insert key v, .inserted true)) :
          (o.results c' = some (.insert key v, .inserted true) ∧ key ≠ key₀) ∨
            c' = c ∧ key = key₀ ∧ v = v₀ := by
        rcases hnew hx with hx | ⟨hc, heq⟩
        · refine .inl ⟨hx, ?_⟩
          rintro rfl
          rw [h.entry.mpr ⟨c', hx⟩] at hkey
          cases hkey
        · obtain ⟨rfl, rfl⟩ := Op.insert.inj (Prod.mk.inj heq).1
          exact .inr ⟨hc, rfl, rfl⟩
      have hself : o'.results c = some (.insert key₀ v₀, .inserted true) := by
        rw [hresults, Function.update_self, apply_of_none hkey]
      refine ⟨fun {key v} ↦ ?_, fun {c₁ c₂ key v v'} hc₁ hc₂ ↦ ?_, fun {c' key v} hc' ↦ ?_⟩
      · rw [hstate]
        by_cases hk : key = key₀
        · subst hk
          rw [Function.update_self, Option.some_inj]
          constructor
          · rintro rfl
            exact ⟨c, hself⟩
          · rintro ⟨c', hc'⟩
            rcases hinsert hc' with ⟨-, hne⟩ | ⟨-, -, rfl⟩
            · exact absurd rfl hne
            · rfl
        · rw [Function.update_of_ne hk, h.entry]
          refine ⟨fun ⟨c', hc'⟩ ↦ ⟨c', hold hc'⟩, fun ⟨c', hc'⟩ ↦ ⟨c', ?_⟩⟩
          exact ((hinsert hc').resolve_right fun heq ↦ hk heq.2.1).1
      · rcases hinsert hc₁ with ⟨hc₁, hne⟩ | ⟨rfl, rfl, -⟩
        · rcases hinsert hc₂ with ⟨hc₂, -⟩ | ⟨-, heq, -⟩
          · exact h.unique hc₁ hc₂
          · exact absurd heq hne
        · rcases hinsert hc₂ with ⟨-, hne⟩ | ⟨rfl, -, -⟩
          · exact absurd rfl hne
          · rfl
      · have hv := hfound hc'
        have hne : key ≠ key₀ := by
          rintro rfl
          rw [hv] at hkey
          cases hkey
        rw [hstate]
        exact (Function.update_of_ne hne ..).trans hv

/-- Once the entry is there, every `Lookup` that takes effect finds it. -/
structure Visible (key : K) (v : V) (c : C) (o : Atomic C (Op K V) (Res V) (K → Option V)) :
    Prop where
  entry : o.state key = some v
  found {r : Res V} : o.results c = some (.lookup key, r) → r = .found (some v)

theorem Visible.step {key : K} {v : V} {c : C} {o o' : Atomic C (Op K V) (Res V) (K → Option V)}
    {l : Lib.Label C (Op K V) (Res V)} (h : Visible key v c o) (hstep : Atomic.Step apply o l o') :
    Visible key v c o' := by
  obtain ⟨hstate, hresults⟩ | ⟨c', op, -, hstate, hresults⟩ := hstep.results
  · exact ⟨hstate ▸ h.entry, hresults ▸ h.found⟩
  refine ⟨by rw [hstate]; exact apply_stays h.entry op, fun {r} hr ↦ ?_⟩
  rw [hresults] at hr
  by_cases hc : c = c'
  · rw [hc, Function.update_self] at hr
    obtain ⟨rfl, rfl⟩ := Prod.mk.inj (Option.some.inj hr)
    exact congrArg Res.found h.entry
  · rw [Function.update_of_ne hc] at hr
    exact h.found hr

end SyncMap
end ManyTasks
