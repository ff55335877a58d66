import Mathlib.Algebra.Order.Group.Nat
import Mathlib.Data.List.Basic
import Mathlib.Data.List.Nodup
import Mathlib.Tactic.Basic

/-!
# Finite maps in the order of insertion

A map is the list of its pairs, in the order in which the keys were inserted.  There are no two
pairs with the same key, so what `find` says does not depend on the order (`find_eq_some_iff`).
-/

set_option autoImplicit false

namespace ManyTasks
namespace Lib

variable {K V : Type}

structure OrderedMap (K V : Type) where
  entries : List (K × V)
  nodup : (entries.map Prod.fst).Nodup

namespace OrderedMap

def empty (K V : Type) : OrderedMap K V := ⟨[], List.nodup_nil⟩

variable (m : OrderedMap K V)

def keys : List K := m.entries.map Prod.fst

theorem mem_keys {m : OrderedMap K V} {key : K} : key ∈ m.keys ↔
    ∃ value, (key, value) ∈ m.entries := by
  rw [keys, List.mem_map]
  constructor
  · rintro ⟨p, hp, rfl⟩
    exact ⟨p.2, hp⟩
  · rintro ⟨value, h⟩
    exact ⟨_, h, rfl⟩

/-- The pairs before and after one have other keys. -/
theorem others_ne {m : OrderedMap K V} {key : K} {value : V} {before after : List (K × V)}
    (hm : m.entries = before ++ (key, value) :: after) :
    (∀ p ∈ before, p.1 ≠ key) ∧ ∀ p ∈ after, p.1 ≠ key := by
  have hnodup := m.nodup
  rw [hm, List.map_append, List.map_cons, List.nodup_append, List.nodup_cons] at hnodup
  obtain ⟨-, ⟨hafter, -⟩, hbefore⟩ := hnodup
  refine ⟨fun p hp ↦ hbefore _ (List.mem_map_of_mem hp) _ List.mem_cons_self,
    fun p hp heq ↦ hafter ?_⟩
  exact List.mem_map.mpr ⟨p, hp, heq⟩

variable [DecidableEq K]

def find (key : K) : Option V := (m.entries.find? fun p ↦ p.1 = key).map Prod.snd

/-- The pair with this key gets another value. -/
def update (key : K) (value : V) : OrderedMap K V where
  entries := m.entries.map fun p ↦ if p.1 = key then (key, value) else p
  nodup := by
    have hkeys : (m.entries.map fun p ↦ if p.1 = key then (key, value) else p).map Prod.fst =
        m.entries.map Prod.fst := by
      rw [List.map_map]
      refine List.map_congr_left fun p _ ↦ ?_
      rw [Function.comp_apply]
      split
      · next heq => exact heq.symm
      · rfl
    rw [hkeys]
    exact m.nodup

/-- A pair with a new key comes last. -/
def append (key : K) (value : V) (h : key ∉ m.keys) : OrderedMap K V where
  entries := m.entries ++ [(key, value)]
  nodup := by
    rw [List.map_append, List.nodup_append]
    refine ⟨m.nodup, List.nodup_singleton _, fun a ha b hb heq ↦ h ?_⟩
    rw [List.map_singleton, List.mem_singleton] at hb
    have ha' : a = key := heq.trans hb
    rwa [← ha']

/-- The key gets this value, whether it is there or not. -/
def insert (key : K) (value : V) : OrderedMap K V :=
  if h : key ∈ m.keys then m.update key value else m.append key value h

/-- The others keep their order. -/
def erase (key : K) : OrderedMap K V where
  entries := m.entries.filter fun p ↦ p.1 ≠ key
  nodup := m.nodup.sublist (List.filter_sublist.map Prod.fst)

variable {m} {key : K} {value value' : V} {before after : List (K × V)}

/-! ## What is found -/

/-- **A key has one value.** -/
theorem find_eq_some_iff : m.find key = some value ↔ (key, value) ∈ m.entries := by
  rw [find, Option.map_eq_some_iff]
  constructor
  · rintro ⟨p, hp, rfl⟩
    have hkey : p.1 = key := by simpa using List.find?_some hp
    rw [← hkey]
    exact List.mem_of_find?_eq_some hp
  · intro h
    have hsome : (m.entries.find? fun p ↦ p.1 = key).isSome := by
      rw [List.find?_isSome]
      exact ⟨_, h, decide_eq_true rfl⟩
    obtain ⟨p, hp⟩ := Option.isSome_iff_exists.mp hsome
    have hmem := List.mem_of_find?_eq_some hp
    have hkey : p.1 = key := by simpa using List.find?_some hp
    have heq := List.inj_on_of_nodup_map m.nodup hmem h hkey
    exact ⟨p, hp, congrArg Prod.snd heq⟩

theorem find_eq_none_iff : m.find key = none ↔ key ∉ m.keys := by
  rw [Option.eq_none_iff_forall_ne_some, mem_keys, not_exists]
  exact forall_congr' fun value ↦ find_eq_some_iff.not

/-- Maps with the same pairs say the same. -/
theorem find_eq_of_perm {m' : OrderedMap K V} (h : m.entries.Perm m'.entries) (key : K) :
    m.find key = m'.find key := by
  refine Option.ext fun value ↦ ?_
  rw [← Option.mem_def, Option.mem_def, find_eq_some_iff, find_eq_some_iff, h.mem_iff]

/-! ## At a key that is there -/

section There

variable (hm : m.entries = before ++ (key, value) :: after)

include hm

theorem find_of_eq : m.find key = some value :=
  find_eq_some_iff.mpr (hm ▸ List.mem_append_right _ List.mem_cons_self)

theorem insert_of_eq : (m.insert key value').entries = before ++ (key, value') :: after := by
  obtain ⟨hbefore, hafter⟩ := others_ne hm
  have hsame (l : List (K × V)) (hl : ∀ p ∈ l, p.1 ≠ key) :
      (l.map fun p ↦ if p.1 = key then (key, value') else p) = l :=
    (List.map_congr_left fun p hp ↦ if_neg (hl p hp)).trans (List.map_id' l)
  have hmem : key ∈ m.keys := mem_keys.mpr ⟨value, hm ▸ List.mem_append_right _ List.mem_cons_self⟩
  rw [insert, dif_pos hmem, update]
  dsimp only
  rw [hm, List.map_append, List.map_cons, hsame before hbefore, hsame after hafter, if_pos rfl]

theorem erase_of_eq : (m.erase key).entries = before ++ after := by
  obtain ⟨hbefore, hafter⟩ := others_ne hm
  have hsame (l : List (K × V)) (hl : ∀ p ∈ l, p.1 ≠ key) : (l.filter fun p ↦ p.1 ≠ key) = l :=
    List.filter_eq_self.mpr fun p hp ↦ decide_eq_true (hl p hp)
  rw [erase]
  dsimp only
  rw [hm, List.filter_append, List.filter_cons_of_neg (by simp), hsame before hbefore,
    hsame after hafter]

end There

/-! ## At a key that is not there -/

theorem insert_of_not_mem (h : key ∉ m.keys) :
    (m.insert key value).entries = m.entries ++ [(key, value)] := by
  rw [insert, dif_neg h]
  rfl

theorem erase_of_not_mem (h : key ∉ m.keys) : (m.erase key).entries = m.entries :=
  List.filter_eq_self.mpr fun p hp ↦
    decide_eq_true fun heq ↦ h (List.mem_map.mpr ⟨p, hp, heq⟩)

end OrderedMap
end Lib
end ManyTasks
