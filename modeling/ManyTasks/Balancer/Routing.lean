import ManyTasks.Balancer.Balancer
import Mathlib.Data.List.Nodup

/-!
# Which backend a client is given

A `Log` is what can be seen from outside: the backends that have been set last, those that have been
found dead since, and how many connections are open to each address.  `Log.best` is the backend that
is to be chosen.

The balancer counts the connections of a `Peer`, which belongs to one place in one list of backends,
and not those to an address.  The two are the same as long as a new list has no address twice, and
none to which there are still connections (`Fresh`); then every connection goes where it is to go
(`routed_of_fresh`).
-/

set_option autoImplicit false

namespace ManyTasks
namespace Balancer

open Lib (Trace)
open Function (update update_self update_of_ne)

variable {α : Type} [DecidableEq α]

/-! ## The first least element of a list -/

section Argmin

variable {β γ δ : Type} [LinearOrder δ]

theorem argmin_map (g : β → γ) (f : γ → δ) (l : List β) :
    (l.map g).argmin f = (l.argmin (f ∘ g)).map g := by
  induction l with
  | nil => rfl
  | cons b l ih =>
    rw [List.map_cons, List.argmin_cons, List.argmin_cons, ih]
    cases l.argmin (f ∘ g) with
    | none => rfl
    | some c =>
      dsimp only [Option.map_some, Function.comp_apply]
      split
      · rfl
      · rfl

theorem argmin_congr {f g : β → δ} {l : List β} (h : ∀ b ∈ l, f b = g b) :
    l.argmin f = l.argmin g := by
  induction l with
  | nil => rfl
  | cons b l ih =>
    rw [List.argmin_cons, List.argmin_cons, ih fun c hc ↦ h c (List.mem_cons_of_mem b hc)]
    cases hc : l.argmin g with
    | none => rfl
    | some c =>
      dsimp only
      rw [h b List.mem_cons_self, h c (List.mem_cons_of_mem b (List.argmin_mem hc))]

end Argmin

/-! ## What is to be chosen -/

structure Log (α : Type) where
  backends : List α
  dead : List α
  /-- How many connections are open to an address. -/
  held : α → ℕ

namespace Log

def init : Log α := ⟨[], [], fun _ ↦ 0⟩

/-- What a step changes. -/
def note (ℓ : Log α) : Event α → Log α
  | .attach _ _ a => { ℓ with held := update ℓ.held a (ℓ.held a + 1) }
  | .fail _ _ a => { ℓ with dead := a :: ℓ.dead }
  | .release _ _ a => { ℓ with held := update ℓ.held a (ℓ.held a - 1) }
  | .setBackends peers => { ℓ with backends := peers, dead := [] }
  | _ => ℓ

/-- The backends that have not been found dead. -/
def live (ℓ : Log α) : List α := ℓ.backends.filter (· ∉ ℓ.dead)

/-- The earliest of the live backends with the fewest connections. -/
def best (ℓ : Log α) : Option α := ℓ.live.argmin ℓ.held

theorem not_mem_dead_of_best {ℓ : Log α} {a : α} (h : ℓ.best = some a) : a ∉ ℓ.dead := by
  have hmem := List.argmin_mem h
  simpa using (List.mem_filter.1 hmem).2

end Log

/-- **What is to be chosen is chosen**, and nothing that has been found dead. -/
def Routed (ℓ : Log α) : Event α → Prop
  | .dial _ _ a => ℓ.best = some a ∧ a ∉ ℓ.dead
  | .attach _ _ a => ℓ.best = some a ∧ a ∉ ℓ.dead
  | _ => True

/-- A new list has no address twice, and none to which there is a connection. -/
def Fresh (ℓ : Log α) : Event α → Prop
  | .setBackends peers => peers.Nodup ∧ ∀ a ∈ peers, ℓ.held a = 0
  | _ => True

/-- The balancer together with what can be seen from outside. -/
def Logged (c : State α × Log α) (e : Event α) (c' : State α × Log α) : Prop :=
  Step c.1 e c'.1 ∧ c'.2 = c.2.note e

theorem Logged.of_step {c : State α × Log α} {e : Event α} {s' : State α} (h : Step c.1 e s') :
    Logged c e (s', c.2.note e) :=
  ⟨h, rfl⟩

instance (ℓ : Log α) : DecidablePred (Routed ℓ)
  | .dial _ _ a => inferInstanceAs (Decidable (ℓ.best = some a ∧ a ∉ ℓ.dead))
  | .attach _ _ a => inferInstanceAs (Decidable (ℓ.best = some a ∧ a ∉ ℓ.dead))
  | .accept | .fail _ _ _ | .refuse _ | .finish _ | .release _ _ _ | .setBackends _ =>
    .isTrue trivial

instance (ℓ : Log α) : DecidablePred (Fresh ℓ)
  | .setBackends peers =>
    inferInstanceAs (Decidable (peers.Nodup ∧ ∀ a ∈ peers, ℓ.held a = 0))
  | .accept | .dial _ _ _ | .attach _ _ _ | .fail _ _ _ | .refuse _ | .finish _
  | .release _ _ _ => .isTrue trivial

/-! ## Counters and connections -/

/-- The peer to which the balancer holds a connection. -/
def Fiber.peer : Fiber → Option ℕ
  | .serving p => some p
  | .closing p => some p
  | _ => none

/-- The balancer holds a connection to this address. -/
def State.holds (s : State α) (a : α) (f : Fiber) : Bool :=
  decide (f.peer.bind s.address = some a)

/-- The counters say how many connections there are. -/
structure Inv (s : State α) (ℓ : Log α) : Prop where
  nodup : ℓ.backends.Nodup
  addresses : s.peers_.map s.address = ℓ.backends.map some
  dead {p : ℕ} {a : α} (hp : p ∈ s.peers_) (ha : s.address p = some a) :
    s.isDead p = true ↔ a ∈ ℓ.dead
  load {p : ℕ} {a : α} (hp : p ∈ s.peers_) (ha : s.address p = some a) : s.load p = ℓ.held a
  counted (a : α) : ℓ.held a = s.fibers.countP (s.holds a)
  /-- There is a connection to an address of the list only for the peer that is in the list. -/
  current {f : Fiber} {p : ℕ} {a : α} (hf : f ∈ s.fibers) (hp : f.peer = some p)
    (ha : s.address p = some a) (hlist : a ∈ ℓ.backends) : p ∈ s.peers_
  allocated {f : Fiber} {p : ℕ} (hf : f ∈ s.fibers) (hp : f.peer = some p) :
    p < s.heap.length
  /-- Nothing changes while a peer is dialled. -/
  dialling {i p : ℕ} (hi : s.fibers[i]? = some (.dialling p)) :
    s.mutex_ = some i ∧ s.suitablePeer = some p

theorem inv_init : Inv (State.init : State α) Log.init where
  nodup := List.nodup_nil
  addresses := rfl
  dead hp := absurd hp List.not_mem_nil
  load hp := absurd hp List.not_mem_nil
  counted _ := rfl
  current hf := absurd hf List.not_mem_nil
  allocated hf := absurd hf List.not_mem_nil
  dialling hi := nomatch hi

section

variable {s s' : State α} {ℓ : Log α} {e : Event α} {p q : ℕ} {a : α}

theorem State.holds_of_peer {f : Fiber} (hf : f.peer = some p) (ha : s.address p = some a)
    (b : α) : s.holds b f = decide (a = b) := by
  rw [State.holds, hf, Option.bind_some, ha]
  exact decide_eq_decide.2 Option.some_inj

theorem Inv.exists_address (h : Inv s ℓ) (hp : p ∈ s.peers_) :
    ∃ a ∈ ℓ.backends, s.address p = some a := by
  have hmem : s.address p ∈ ℓ.backends.map some := h.addresses ▸ List.mem_map_of_mem hp
  obtain ⟨a, ha, heq⟩ := List.mem_map.1 hmem
  exact ⟨a, ha, heq.symm⟩

theorem Inv.lt_length (h : Inv s ℓ) (hp : p ∈ s.peers_) : p < s.heap.length := by
  obtain ⟨a, -, ha⟩ := h.exists_address hp
  exact State.lt_length_iff.2 ⟨a, ha⟩

/-- Different peers of the list have different addresses. -/
theorem Inv.eq_of_address (h : Inv s ℓ) (hp : p ∈ s.peers_) (hq : q ∈ s.peers_)
    (heq : s.address p = s.address q) : p = q := by
  have hnodup : (s.peers_.map s.address).Nodup := by
    rw [h.addresses]
    exact List.Nodup.map (Option.some_injective α) h.nodup
  exact List.inj_on_of_nodup_map hnodup hp hq heq

/-! ## The choice -/

/-- The live backends are the addresses of the peers that may be chosen. -/
theorem Inv.map_alive (h : Inv s ℓ) : s.alive.map s.address = ℓ.live.map some := by
  have halive : s.alive = s.peers_.filter ((fun o ↦ o.all (· ∉ ℓ.dead)) ∘ s.address) := by
    refine List.filter_congr fun p hp ↦ ?_
    obtain ⟨a, -, ha⟩ := h.exists_address hp
    have hdead := h.dead hp ha
    rw [Function.comp_apply, ha, Option.all_some, Bool.eq_iff_iff, Bool.not_eq_true',
      decide_eq_true_iff, ← hdead, Bool.not_eq_true]
  rw [halive, ← List.filter_map, h.addresses, List.filter_map]
  rfl

/-- **The peer that is chosen is the right one.** -/
theorem Inv.best_of_suitablePeer (h : Inv s ℓ) (hpeer : s.suitablePeer = some p)
    (ha : s.address p = some a) : ℓ.best = some a := by
  have hload : s.alive.argmin s.load = s.alive.argmin ((fun o ↦ o.elim 0 ℓ.held) ∘ s.address) := by
    refine argmin_congr fun q hq ↦ ?_
    have hq := (List.mem_filter.1 hq).1
    obtain ⟨b, -, hb⟩ := h.exists_address hq
    rw [Function.comp_apply, hb, h.load hq hb]
    rfl
  have hbest : (ℓ.best).map some = some (some a) := by
    calc (ℓ.best).map some = (ℓ.live.map some).argmin fun o ↦ o.elim 0 ℓ.held :=
          (argmin_map some (fun o ↦ o.elim 0 ℓ.held) ℓ.live).symm
      _ = (s.alive.argmin ((fun o ↦ o.elim 0 ℓ.held) ∘ s.address)).map s.address := by
          rw [← h.map_alive, argmin_map]
      _ = some (some a) := by
          rw [← hload, ← State.suitablePeer_eq_argmin, hpeer, Option.map_some, ha]
  obtain ⟨b, hb, heq⟩ := Option.map_eq_some_iff.1 hbest
  rw [hb, heq]

/-! ## The steps keep the counters right -/

/-- Where a fiber has moved, one connection more or less is counted. -/
theorem countP_set {fibers : List Fiber} {i : ℕ} {f : Fiber} (hf : fibers[i]? = some f)
    (f' : Fiber) (holds : Fiber → Bool) :
    (fibers.set i f').countP holds
      = fibers.countP holds - (if holds f then 1 else 0) + if holds f' then 1 else 0 := by
  obtain ⟨hi, rfl⟩ := List.getElem?_eq_some_iff.1 hf
  exact List.countP_set hi

theorem getElem?_set_dialling {fibers : List Fiber} {i j p : ℕ} {f : Fiber}
    (hf : f ≠ .dialling p) (hj : (fibers.set i f)[j]? = some (.dialling p)) :
    j ≠ i ∧ fibers[j]? = some (.dialling p) := by
  rw [List.getElem?_set] at hj
  split at hj
  · split at hj
    · exact absurd (Option.some.inj hj) hf
    · cases hj
  · rename_i hne
    exact ⟨Ne.symm hne, hj⟩

/-- Nobody dials while the mutex is free. -/
theorem Inv.not_dialling (h : Inv s ℓ) (hfree : s.mutex_ = none) (i p : ℕ) :
    s.fibers[i]? ≠ some (.dialling p) := by
  intro hi
  rw [(h.dialling hi).1] at hfree
  cases hfree

/-- Only one fiber dials. -/
theorem Inv.eq_of_dialling (h : Inv s ℓ) {i j : ℕ} (hi : s.fibers[i]? = some (.dialling p))
    (hj : s.fibers[j]? = some (.dialling q)) : i = j :=
  Option.some.inj ((h.dialling hi).1.symm.trans (h.dialling hj).1)

/-- A fiber moves that holds the same connection as before, or none. -/
theorem Inv.move (h : Inv s ℓ) {i : ℕ} {f : Fiber} (hf : s.fibers[i]? = some f) (f' : Fiber)
    (hpeer : f'.peer = f.peer) (mutex : Option ℕ)
    (hdialling : ∀ j q, (s.fibers.set i f')[j]? = some (.dialling q) →
      mutex = some j ∧ s.suitablePeer = some q) :
    Inv { s with mutex_ := mutex, fibers := s.fibers.set i f' } ℓ where
  nodup := h.nodup
  addresses := h.addresses
  dead := h.dead
  load := h.load
  counted a := by
    have hholds : s.holds a f' = s.holds a f := by rw [State.holds, hpeer, State.holds]
    have hpos : (if s.holds a f then 1 else 0) ≤ s.fibers.countP (s.holds a) := by
      split
      · exact List.countP_pos_iff.2 ⟨f, List.mem_of_getElem? hf, ‹_›⟩
      · exact Nat.zero_le _
    change ℓ.held a = (s.fibers.set i f').countP (s.holds a)
    rw [countP_set hf, hholds, Nat.sub_add_cancel hpos, h.counted]
  current := by
    intro g p a hg hp ha hlist
    obtain hg | rfl := List.mem_or_eq_of_mem_set hg
    · exact h.current hg hp ha hlist
    · exact h.current (List.mem_of_getElem? hf) (hpeer ▸ hp) ha hlist
  allocated := by
    intro g p hg hp
    obtain hg | rfl := List.mem_or_eq_of_mem_set hg
    · exact h.allocated hg hp
    · exact h.allocated (List.mem_of_getElem? hf) (hpeer ▸ hp)
  dialling := by
    intro j q hj
    exact hdialling j q hj

theorem Inv.accept (h : Inv s ℓ) : Inv s.accept ℓ where
  nodup := h.nodup
  addresses := h.addresses
  dead := h.dead
  load := h.load
  counted a := by
    rw [h.counted, State.accept, List.countP_append]
    rfl
  current := by
    intro g p a hg hp ha hlist
    obtain hg | hg := List.mem_append.1 hg
    · exact h.current hg hp ha hlist
    · cases List.mem_singleton.1 hg ▸ hp
  allocated := by
    intro g p hg hp
    obtain hg | hg := List.mem_append.1 hg
    · exact h.allocated hg hp
    · cases List.mem_singleton.1 hg ▸ hp
  dialling := by
    intro j q hj
    rw [State.accept, List.getElem?_append] at hj
    split at hj
    · exact h.dialling hj
    · rw [List.getElem?_singleton] at hj
      split at hj
      · cases hj
      · cases hj

theorem Inv.dial (h : Inv s ℓ) {i : ℕ} (hfiber : s.fibers[i]? = some .waiting)
    (hfree : s.mutex_ = none) (hpeer : s.suitablePeer = some p) : Inv (s.dial i p) ℓ := by
  refine h.move hfiber (.dialling p) rfl (some i) fun j q hj ↦ ?_
  rw [List.getElem?_set] at hj
  split at hj
  · split at hj
    · cases hj
      exact ⟨congrArg some ‹_›, hpeer⟩
    · cases hj
  · exact absurd hj (h.not_dialling hfree j q)

theorem Inv.refuse (h : Inv s ℓ) {i : ℕ} (hfiber : s.fibers[i]? = some .waiting) :
    Inv (s.refuse i) ℓ := by
  refine h.move hfiber .refused rfl s.mutex_ fun j q hj ↦ ?_
  have hne : Fiber.refused ≠ .dialling q := nofun
  exact h.dialling (getElem?_set_dialling hne hj).2

theorem Inv.finish (h : Inv s ℓ) {i : ℕ} (hfiber : s.fibers[i]? = some (.serving p)) :
    Inv (s.finish i p) ℓ := by
  refine h.move hfiber (.closing p) rfl s.mutex_ fun j q hj ↦ ?_
  have hne : Fiber.closing p ≠ .dialling q := nofun
  exact h.dialling (getElem?_set_dialling hne hj).2

/-- The peer that has been dialled is in the list. -/
theorem Inv.mem_of_dialling (h : Inv s ℓ) {i : ℕ} (hfiber : s.fibers[i]? = some (.dialling p)) :
    p ∈ s.peers_ :=
  (State.mem_of_suitablePeer (h.dialling hfiber).2).1

/-- When the one that dials is done, nobody dials. -/
theorem Inv.not_dialling_set (h : Inv s ℓ) {i j : ℕ} (hfiber : s.fibers[i]? = some (.dialling p))
    {f : Fiber} (hf : f ≠ .dialling q) : (s.fibers.set i f)[j]? ≠ some (.dialling q) := by
  intro hj
  obtain ⟨hne, hj⟩ := getElem?_set_dialling hf hj
  exact hne (h.eq_of_dialling hj hfiber)

theorem Inv.attach (h : Inv s ℓ) {i : ℕ} (hfiber : s.fibers[i]? = some (.dialling p))
    (ha : s.address p = some a) : Inv (s.attach i p) (ℓ.note (.attach i p a)) where
  nodup := h.nodup
  addresses := by
    rw [State.address_attach]
    exact h.addresses
  dead := by
    intro q b hq hb
    rw [State.address_attach] at hb
    rw [State.isDead_attach]
    exact h.dead hq hb
  load := by
    intro q b hq hb
    rw [State.address_attach] at hb
    change (s.attach i p).load q = update ℓ.held a (ℓ.held a + 1) b
    rw [State.load_attach ha]
    by_cases hqp : q = p
    · subst hqp
      obtain rfl := Option.some.inj (hb.symm.trans ha)
      rw [if_pos rfl, update_self, h.load hq hb]
    · have hba : b ≠ a := by
        rintro rfl
        exact hqp (h.eq_of_address hq (h.mem_of_dialling hfiber) (hb.trans ha.symm))
      rw [if_neg hqp, update_of_ne hba, h.load hq hb]
  counted b := by
    have hholds : (s.attach i p).holds b = s.holds b := by
      funext f
      rw [State.holds, State.address_attach, State.holds]
    change update ℓ.held a (ℓ.held a + 1) b = (s.fibers.set i (.serving p)).countP _
    rw [hholds, countP_set hfiber, ← h.counted]
    have hdialling : s.holds b (.dialling p) = false := rfl
    rw [State.holds_of_peer (f := .serving p) rfl ha, hdialling]
    by_cases hab : a = b
    · subst hab
      simp
    · rw [update_of_ne (Ne.symm hab)]
      simp [hab]
  current := by
    intro f q b hf hq hb hlist
    rw [State.address_attach] at hb
    obtain hf | rfl := List.mem_or_eq_of_mem_set hf
    · exact h.current hf hq hb hlist
    · cases hq
      exact h.mem_of_dialling hfiber
  allocated := by
    intro f q hf hq
    rw [State.attach, List.length_modify]
    obtain hf | rfl := List.mem_or_eq_of_mem_set hf
    · exact h.allocated hf hq
    · cases hq
      exact h.lt_length (h.mem_of_dialling hfiber)
  dialling := by
    intro j q hj
    have hne : Fiber.serving p ≠ .dialling q := by simp
    exact absurd hj (h.not_dialling_set hfiber hne)

theorem Inv.fail (h : Inv s ℓ) {i : ℕ} (hfiber : s.fibers[i]? = some (.dialling p))
    (ha : s.address p = some a) : Inv (s.fail i p) (ℓ.note (.fail i p a)) := by
  have hholds (b : α) : (s.fail i p).holds b = s.holds b := by
    funext f
    rw [State.holds, State.address_fail, State.holds]
  have hmoved := h.move hfiber .waiting rfl none fun j q hj ↦ by
    have hne : Fiber.waiting ≠ .dialling q := by simp
    exact absurd hj (h.not_dialling_set hfiber hne)
  refine ⟨h.nodup, ?_, ?_, ?_, ?_, ?_, ?_, ?_⟩
  · rw [State.address_fail]
    exact h.addresses
  · intro q b hq hb
    rw [State.address_fail] at hb
    change (s.fail i p).isDead q = true ↔ b ∈ a :: ℓ.dead
    rw [State.isDead_fail ha, List.mem_cons]
    by_cases hqp : q = p
    · subst hqp
      rw [if_pos rfl]
      exact iff_of_true rfl (Or.inl (Option.some.inj (hb.symm.trans ha)))
    · have hba : b ≠ a := by
        rintro rfl
        exact hqp (h.eq_of_address hq (h.mem_of_dialling hfiber) (hb.trans ha.symm))
      rw [if_neg hqp, h.dead hq hb]
      exact (or_iff_right hba).symm
  · intro q b hq hb
    rw [State.address_fail] at hb
    rw [State.load_fail]
    exact h.load hq hb
  · intro b
    rw [hholds]
    exact hmoved.counted b
  · intro f q b hf hq hb hlist
    rw [State.address_fail] at hb
    exact hmoved.current hf hq hb hlist
  · intro f q hf hq
    rw [State.fail, List.length_modify]
    exact hmoved.allocated hf hq
  · intro j q hj
    exact absurd (hmoved.dialling hj).1 (by simp)

theorem Inv.release (h : Inv s ℓ) {i : ℕ} (hfiber : s.fibers[i]? = some (.closing p))
    (hfree : s.mutex_ = none) (ha : s.address p = some a) :
    Inv (s.release i p) (ℓ.note (.release i p a)) where
  nodup := h.nodup
  addresses := by
    rw [State.address_release]
    exact h.addresses
  dead := by
    intro q b hq hb
    rw [State.address_release] at hb
    rw [State.isDead_release]
    exact h.dead hq hb
  load := by
    intro q b hq hb
    rw [State.address_release] at hb
    change (s.release i p).load q = update ℓ.held a (ℓ.held a - 1) b
    rw [State.load_release]
    by_cases hqp : q = p
    · subst hqp
      obtain rfl := Option.some.inj (hb.symm.trans ha)
      rw [if_pos rfl, update_self, h.load hq hb]
    · have hba : b ≠ a := by
        rintro rfl
        obtain ⟨c, hc, hqc⟩ := h.exists_address hq
        obtain rfl := Option.some.inj (hb.symm.trans hqc)
        have hp := h.current (List.mem_of_getElem? hfiber) rfl ha hc
        exact hqp (h.eq_of_address hq hp (hb.trans ha.symm))
      rw [if_neg hqp, update_of_ne hba, h.load hq hb]
  counted b := by
    have hholds : (s.release i p).holds b = s.holds b := by
      funext f
      rw [State.holds, State.address_release, State.holds]
    change update ℓ.held a (ℓ.held a - 1) b = (s.fibers.set i .closed).countP _
    rw [hholds, countP_set hfiber, ← h.counted]
    have hclosed : s.holds b .closed = false := rfl
    rw [State.holds_of_peer (f := .closing p) rfl ha, hclosed]
    by_cases hab : a = b
    · subst hab
      simp
    · rw [update_of_ne (Ne.symm hab)]
      simp [hab]
  current := by
    intro f q b hf hq hb hlist
    rw [State.address_release] at hb
    obtain hf | rfl := List.mem_or_eq_of_mem_set hf
    · exact h.current hf hq hb hlist
    · cases hq
  allocated := by
    intro f q hf hq
    rw [State.release, List.length_modify]
    obtain hf | rfl := List.mem_or_eq_of_mem_set hf
    · exact h.allocated hf hq
    · cases hq
  dialling := by
    intro j q hj
    have hne : Fiber.closed ≠ .dialling q := by simp
    exact absurd (getElem?_set_dialling hne hj).2 (h.not_dialling hfree j q)

theorem Inv.setBackends (h : Inv s ℓ) (hfree : s.mutex_ = none) {peers : List α}
    (hnodup : peers.Nodup) (hfresh : ∀ a ∈ peers, ℓ.held a = 0) :
    Inv (s.setBackends peers) (ℓ.note (.setBackends peers)) where
  nodup := hnodup
  addresses := State.map_address_setBackends peers
  dead := by
    intro q b hq _
    rw [State.isDead_setBackends_of_le peers ((State.mem_peers_setBackends peers).1 hq).1]
    exact iff_of_false Bool.false_ne_true List.not_mem_nil
  load := by
    intro q b hq hb
    have hmem : (s.setBackends peers).address q ∈ peers.map some :=
      State.map_address_setBackends peers ▸ List.mem_map_of_mem hq
    rw [hb, List.mem_map_of_injective (Option.some_injective α)] at hmem
    rw [State.load_setBackends_of_le peers ((State.mem_peers_setBackends peers).1 hq).1]
    exact (hfresh b hmem).symm
  counted b := by
    change ℓ.held b = s.fibers.countP _
    rw [h.counted]
    refine List.countP_congr fun f hf ↦ ?_
    rw [State.holds, State.holds]
    cases hpeer : f.peer with
    | none => rfl
    | some p =>
      rw [Option.bind_some, Option.bind_some,
        State.address_setBackends_of_lt peers (h.allocated hf hpeer)]
  current := by
    intro f q b hf hq hb hlist
    rw [State.address_setBackends_of_lt peers (h.allocated hf hq)] at hb
    have hpos : 0 < s.fibers.countP (s.holds b) := by
      refine List.countP_pos_iff.2 ⟨f, hf, ?_⟩
      rw [State.holds, hq, Option.bind_some, hb]
      exact decide_eq_true rfl
    rw [← h.counted, hfresh b hlist] at hpos
    exact absurd hpos (Nat.lt_irrefl 0)
  allocated := by
    intro f q hf hq
    rw [State.setBackends, List.length_append]
    exact Nat.lt_add_right _ (h.allocated hf hq)
  dialling := by
    intro j q hj
    exact absurd hj (h.not_dialling hfree j q)

/-- **The counters stay right.** -/
theorem Inv.step (h : Inv s ℓ) (hstep : Step s e s') (hfresh : Fresh ℓ e) :
    Inv s' (ℓ.note e) := by
  cases hstep with
  | accept => exact h.accept
  | dial hfiber hfree hpeer => exact h.dial hfiber hfree hpeer
  | attach hfiber ha => exact h.attach hfiber ha
  | fail hfiber ha => exact h.fail hfiber ha
  | refuse hfiber => exact h.refuse hfiber
  | finish hfiber => exact h.finish hfiber
  | release hfiber hfree ha => exact h.release hfiber hfree ha
  | setBackends peers hfree => exact h.setBackends hfree hfresh.1 hfresh.2

theorem Inv.routed (h : Inv s ℓ) (hstep : Step s e s') : Routed ℓ e := by
  cases hstep with
  | dial _ _ hpeer ha =>
    have hbest := h.best_of_suitablePeer hpeer ha
    exact ⟨hbest, Log.not_mem_dead_of_best hbest⟩
  | attach hfiber ha =>
    have hbest := h.best_of_suitablePeer (h.dialling hfiber).2 ha
    exact ⟨hbest, Log.not_mem_dead_of_best hbest⟩
  | _ => trivial

end

theorem inv_of_fresh {h : List ((State α × Log α) × Event α)} {c : State α × Log α}
    (hrun : Trace Logged (State.init, Log.init) h c) (hfresh : ∀ x ∈ h, Fresh x.1.2 x.2) :
    Inv c.1 c.2 := by
  refine hrun.invariant_of_forall (C := fun c e ↦ Fresh c.2 e) (I := fun c ↦ Inv c.1 c.2) hfresh
    inv_init ?_
  intro c e c' hc hstep hfresh
  rw [hstep.2]
  exact hc.step hstep.1 hfresh

/-- **Every client is given the right backend**, in every run in which no list has an address twice
and none is set to which there are still connections. -/
theorem routed_of_fresh {h : List ((State α × Log α) × Event α)} {c : State α × Log α}
    (hrun : Trace Logged (State.init, Log.init) h c) (hfresh : ∀ x ∈ h, Fresh x.1.2 x.2) :
    ∀ x ∈ h, Routed x.1.2 x.2 := by
  intro x hx
  obtain ⟨h₁, h₂, rfl⟩ := List.append_of_mem hx
  obtain ⟨hbefore, _, hstep, _⟩ := hrun.split
  have hinv := inv_of_fresh hbefore fun y hy ↦ hfresh y (List.mem_append_left _ hy)
  exact hinv.routed hstep.1

/-- The first client is given the first backend. -/
theorem routed_first : ∃ h c, Trace Logged ((State.init : State ℕ), Log.init) h c
    ∧ h.map Prod.snd = [.setBackends [10, 20], .accept, .dial 0 0 10, .attach 0 0 10]
    ∧ ∀ x ∈ h, Routed x.1.2 x.2 := by
  have hrun := (.nil : Trace Logged ((State.init : State ℕ), Log.init) [] _)
  have hrun := hrun.snoc (.of_step (.setBackends [10, 20] rfl))
  have hrun := hrun.snoc (.of_step .accept)
  have hrun := hrun.snoc (.of_step (.dial (i := 0) (p := 0) (a := 10) rfl rfl (by decide) rfl))
  have hrun := hrun.snoc (.of_step (.attach (i := 0) (p := 0) (a := 10) rfl rfl))
  exact ⟨_, _, hrun, rfl, routed_of_fresh hrun (by decide)⟩

/-- The same backends are set again while the first one has a connection, and it is given the next
client too. -/
theorem not_routed_again : ∃ h c, Trace Logged ((State.init : State ℕ), Log.init) h c
    ∧ ¬ ∀ x ∈ h, Routed x.1.2 x.2 := by
  have hrun := (.nil : Trace Logged ((State.init : State ℕ), Log.init) [] _)
  have hrun := hrun.snoc (.of_step (.setBackends [10, 20] rfl))
  have hrun := hrun.snoc (.of_step .accept)
  have hrun := hrun.snoc (.of_step (.dial (i := 0) (p := 0) (a := 10) rfl rfl (by decide) rfl))
  have hrun := hrun.snoc (.of_step (.attach (i := 0) (p := 0) (a := 10) rfl rfl))
  have hrun := hrun.snoc (.of_step (.setBackends [10, 20] rfl))
  have hrun := hrun.snoc (.of_step .accept)
  have hrun := hrun.snoc (.of_step (.dial (i := 1) (p := 2) (a := 10) rfl rfl (by decide) rfl))
  exact ⟨_, _, hrun, by decide⟩

end Balancer
end ManyTasks
