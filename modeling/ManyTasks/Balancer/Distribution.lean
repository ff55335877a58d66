import ManyTasks.Balancer.Routing
import Mathlib.Data.Finset.Card
import Mathlib.Data.Finset.Range
import Mathlib.Data.List.Range
import Mathlib.Tactic.Ring

/-!
# How clients are distributed

Backends are set once, some of which cannot be reached, and clients come whose connections stay
open.  However the fibers take turns, all clients are connected in the end, backend `i` of the `L`
that can be reached has `(n + L - 1 - i) / L` of `n` clients, and the others have been dialled at
most once (`distributed`).

The next client goes to the backend with the number `k % L` if `k` have been connected
(`eq_mod_of_first_least`).
-/

set_option autoImplicit false

namespace ManyTasks
namespace Balancer

open Lib (Inevitable)

variable {α : Type}

/-! ## Turns -/

section Turns

variable {k L i j : ℕ}

/-- What backend `i` of `L` has of `k` clients. -/
def share (L k i : ℕ) : ℕ := (k + L - 1 - i) / L

theorem share_eq (hi : i < L) : share L k i = k / L + if i < k % L then 1 else 0 := by
  have hL : 0 < L := Nat.zero_lt_of_lt hi
  have hmod := Nat.mod_lt k hL
  have hdiv := Nat.div_add_mod k L
  have hsum : k + L - 1 - i = k % L + L - 1 - i + L * (k / L) := by omega
  rw [share, hsum, Nat.add_mul_div_left _ _ hL]
  split
  · have hone : (k % L + L - 1 - i) / L = 1 := by
      rw [Nat.div_eq_iff hL]
      omega
    omega
  · have hzero : (k % L + L - 1 - i) / L = 0 := Nat.div_eq_of_lt (by omega)
    omega

/-- The next client makes one share larger. -/
theorem share_succ (hi : i < L) :
    share L (k + 1) i = share L k i + if i = k % L then 1 else 0 := by
  have hL : 0 < L := Nat.zero_lt_of_lt hi
  have hmod := Nat.mod_lt k hL
  have hparts := Nat.div_add_mod k L
  rw [share_eq hi, share_eq hi]
  obtain hlast | hlast := Nat.lt_or_eq_of_le (Nat.succ_le_of_lt hmod)
  · have hsum : k + 1 = k % L + 1 + L * (k / L) := by omega
    have hdiv : (k + 1) / L = k / L := by
      rw [hsum, Nat.add_mul_div_left _ _ hL, Nat.div_eq_of_lt hlast, Nat.zero_add]
    have hrest : (k + 1) % L = k % L + 1 := by
      rw [hsum, Nat.add_mul_mod_self_left, Nat.mod_eq_of_lt hlast]
    rw [hdiv, hrest]
    split_ifs <;> omega
  · have hsum : k + 1 = L * (k / L + 1) := by
      rw [Nat.mul_add, Nat.mul_one]
      omega
    have hdiv : (k + 1) / L = k / L + 1 := by
      rw [hsum, Nat.mul_div_cancel_left _ hL]
    have hrest : (k + 1) % L = 0 := by
      rw [hsum, Nat.mul_mod_right]
    rw [hdiv, hrest]
    split_ifs <;> omega

/-- The first of the smallest shares is the one with the number `k % L`. -/
theorem eq_mod_of_first_least (hj : j < L) (hleast : ∀ i < L, share L k j ≤ share L k i)
    (hfirst : ∀ i < L, share L k i ≤ share L k j → j ≤ i) : j = k % L := by
  have hmod := Nat.mod_lt k (Nat.zero_lt_of_lt hj)
  have hnext := share_eq (k := k) hmod
  have hthis := share_eq (k := k) hj
  have hle := hleast (k % L) hmod
  have hback := hfirst (k % L) hmod
  rw [if_neg (Nat.lt_irrefl _)] at hnext
  split at hthis
  · omega
  · rw [hnext, hthis] at hback
    have := hback (le_refl _)
    omega

end Turns

/-! ## The first least element of a list in order -/

/-- Where the list is in order, no element before the one that is chosen is as small. -/
theorem le_of_argmin {f : ℕ → ℕ} {l : List ℕ} (hsorted : l.Pairwise (· < ·)) {p q : ℕ}
    (hp : l.argmin f = some p) (hq : q ∈ l) (hle : f q ≤ f p) : p ≤ q := by
  have hmem := List.argmin_mem hp
  have hidx := List.index_of_argmin hp hq hle
  by_contra hlt
  have hqlt := List.idxOf_lt_length_iff.2 hq
  have hplt := List.idxOf_lt_length_iff.2 hmem
  obtain heq | hbefore := Nat.eq_or_lt_of_le hidx
  · have hpq : p = q := by
      rw [← List.getElem_idxOf hplt, ← List.getElem_idxOf hqlt]
      simp only [heq]
    omega
  · have hord := List.pairwise_iff_getElem.1 hsorted _ _ hplt hqlt hbefore
    rw [List.getElem_idxOf, List.getElem_idxOf] at hord
    omega

/-! ## Clients that come and stay -/

namespace Fiber

def isDialling : Fiber → Bool
  | .dialling _ => true
  | _ => false

def isServing : Fiber → Bool
  | .serving _ => true
  | _ => false

end Fiber

/-- A peer is dialled. -/
def Event.dials (p : ℕ) : Event α → Bool
  | .dial _ q _ => q == p
  | _ => false

section Runs

variable (peers : List α) (unreachable : ℕ → Bool) (n : ℕ)

/-- What happens where `n` clients come, none of them goes, and some peers cannot be reached. -/
def Staying (s : State α) : Event α → Prop
  | .accept => s.fibers.length < n
  | .dial _ _ _ => True
  | .attach _ p _ => unreachable p = false
  | .fail _ p _ => unreachable p = true
  | .refuse _ => True
  | _ => False

/-- A step of such a run, with everything that has happened so far. -/
def Connecting (c c' : State α × List (Event α)) : Prop :=
  ∃ e, Step c.1 e c'.1 ∧ Staying unreachable n c.1 e ∧ c'.2 = c.2 ++ [e]

/-- The peers that can be reached, in the order of the list. -/
def live : List ℕ := (List.range peers.length).filter fun p ↦ !unreachable p

/-- All clients are connected, and the live peers have the same number of them each, as far as that
goes. -/
structure Distributed (c : State α × List (Event α)) : Prop where
  clients : c.1.fibers.length = n
  connected : ∀ f ∈ c.1.fibers, ∃ p, f = .serving p
  even : ∀ i p, (live peers unreachable)[i]? = some p →
    c.1.fibers.count (.serving p)
      = (n + (live peers unreachable).length - 1 - i) / (live peers unreachable).length
  once : ∀ p < peers.length, unreachable p = true → c.2.countP (Event.dials p) ≤ 1

/-- What holds on the way. -/
structure Even (s : State α) (events : List (Event α)) : Prop where
  pointers : s.peers_ = List.range peers.length
  allocated : s.heap.length = peers.length
  dead {p : ℕ} (hp : s.isDead p = true) : unreachable p = true
  load {p : ℕ} (hp : p < peers.length) : s.load p = s.fibers.count (.serving p)
  even {i p : ℕ} (hi : (live peers unreachable)[i]? = some p) :
    s.load p = share (live peers unreachable).length (s.fibers.countP Fiber.isServing) i
  staying {f : Fiber} (hf : f ∈ s.fibers) :
    f = .waiting ∨ f.isDialling = true ∨ f.isServing = true
  dialling {i p : ℕ} (hi : s.fibers[i]? = some (.dialling p)) :
    s.mutex_ = some i ∧ s.suitablePeer = some p
  locked {i : ℕ} (hi : s.mutex_ = some i) : ∃ p, s.fibers[i]? = some (.dialling p)
  clients : s.fibers.length ≤ n
  /-- A peer that cannot be reached is dialled again only when it has not been found dead. -/
  dialled {p : ℕ} (hp : p < peers.length) (hdead : unreachable p = true) :
    events.countP (Event.dials p)
      = (if s.isDead p = true then 1 else 0) + s.fibers.count (.dialling p)

end Runs

section

variable {peers : List α} {unreachable : ℕ → Bool} {n : ℕ} {s s' : State α}
  {events : List (Event α)} {e : Event α} {i p : ℕ} {a : α}

theorem mem_live : p ∈ live peers unreachable ↔ p < peers.length ∧ unreachable p = false := by
  rw [live, List.mem_filter, List.mem_range, Bool.not_eq_true']

theorem pairwise_live : (live peers unreachable).Pairwise (· < ·) :=
  List.Pairwise.filter _ List.pairwise_lt_range

theorem nodup_live : (live peers unreachable).Nodup :=
  pairwise_live.imp fun hlt ↦ Nat.ne_of_lt hlt

theorem count_set_add {fibers : List Fiber} {f : Fiber} (hf : fibers[i]? = some f) (f' : Fiber)
    (holds : Fiber → Bool) :
    (fibers.set i f').countP holds + (if holds f then 1 else 0)
      = fibers.countP holds + if holds f' then 1 else 0 := by
  have hpos : (if holds f then 1 else 0) ≤ fibers.countP holds := by
    split
    · exact List.countP_pos_iff.2 ⟨f, List.mem_of_getElem? hf, ‹_›⟩
    · exact Nat.zero_le _
  rw [countP_set hf]
  omega

namespace Even

theorem start : Even peers unreachable n (State.init.setBackends peers) [] where
  pointers := (List.range_eq_range' (n := peers.length)).symm
  allocated := by simp [State.setBackends, State.init]
  dead {p} hp := by
    rw [State.isDead_setBackends_of_le peers (Nat.zero_le p)] at hp
    cases hp
  load {p} _ := State.load_setBackends_of_le peers (Nat.zero_le p)
  even {i p} hi := by
    have hlt := (List.getElem?_eq_some_iff.1 hi).1
    rw [State.load_setBackends_of_le peers (Nat.zero_le p)]
    change 0 = share _ 0 i
    rw [share_eq hlt, Nat.zero_div, Nat.zero_mod]
    rfl
  staying hf := absurd hf List.not_mem_nil
  dialling hi := nomatch hi
  locked hi := nomatch hi
  clients := Nat.zero_le n
  dialled {p} _ _ := by
    rw [State.isDead_setBackends_of_le peers (Nat.zero_le p)]
    rfl

/-- The peers that can be reached have not been found dead. -/
theorem mem_alive (h : Even peers unreachable n s events) (hp : p ∈ live peers unreachable) :
    p ∈ s.alive := by
  obtain ⟨hlt, hreach⟩ := mem_live.1 hp
  rw [State.alive, List.mem_filter, h.pointers, List.mem_range, Bool.not_eq_true']
  refine ⟨hlt, ?_⟩
  by_contra hdead
  rw [h.dead (Bool.not_eq_false _ ▸ hdead)] at hreach
  cases hreach

theorem exists_suitablePeer (h : Even peers unreachable n s events)
    (hlive : live peers unreachable ≠ []) :
    ∃ p a, s.suitablePeer = some p ∧ s.address p = some a := by
  obtain ⟨q, hq⟩ := List.exists_mem_of_ne_nil _ hlive
  have hsome : s.suitablePeer ≠ none := by
    intro hnone
    rw [State.suitablePeer_eq_argmin, List.argmin_eq_none] at hnone
    exact absurd (h.mem_alive hq) (hnone ▸ List.not_mem_nil)
  obtain ⟨p, hp⟩ := Option.ne_none_iff_exists'.1 hsome
  have hmem := (State.mem_of_suitablePeer hp).1
  rw [h.pointers, List.mem_range, ← h.allocated, State.lt_length_iff] at hmem
  obtain ⟨a, ha⟩ := hmem
  exact ⟨p, a, hp, ha⟩

/-- **It is the next one's turn.** -/
theorem turn (h : Even peers unreachable n s events) (hpeer : s.suitablePeer = some p)
    (hi : (live peers unreachable)[i]? = some p) :
    i = s.fibers.countP Fiber.isServing % (live peers unreachable).length := by
  rw [State.suitablePeer_eq_argmin] at hpeer
  obtain ⟨hlt, rfl⟩ := List.getElem?_eq_some_iff.1 hi
  have halive : s.alive.Pairwise (· < ·) := by
    rw [State.alive, h.pointers]
    exact List.Pairwise.filter _ List.pairwise_lt_range
  refine eq_mod_of_first_least hlt (fun j hj ↦ ?_) fun j hj hle ↦ ?_
  · rw [← h.even hi, ← h.even (List.getElem?_eq_getElem hj)]
    exact List.le_of_mem_argmin (h.mem_alive (List.getElem_mem hj)) hpeer
  · rw [← h.even hi, ← h.even (List.getElem?_eq_getElem hj)] at hle
    have hord := le_of_argmin halive hpeer (h.mem_alive (List.getElem_mem hj)) hle
    by_contra hlt'
    have hback : (live peers unreachable)[j] < (live peers unreachable)[i] :=
      List.pairwise_iff_getElem.1 pairwise_live j i hj hlt (Nat.lt_of_not_le hlt')
    omega

/-- No fiber dials while the mutex is free. -/
theorem not_dialling (h : Even peers unreachable n s events) (hfree : s.mutex_ = none)
    (hi : s.fibers[i]? = some (.dialling p)) : False := by
  have hlock := (h.dialling hi).1
  rw [hfree] at hlock
  cases hlock

/-- The fiber that dials is the only one. -/
theorem eq_of_dialling (h : Even peers unreachable n s events) {j q : ℕ}
    (hi : s.fibers[i]? = some (.dialling p)) (hj : s.fibers[j]? = some (.dialling q)) : j = i :=
  Option.some.inj ((h.dialling hj).1.symm.trans (h.dialling hi).1)

theorem lt_length (h : Even peers unreachable n s events)
    (hi : s.fibers[i]? = some (.dialling p)) : p < peers.length := by
  have hmem := (State.mem_of_suitablePeer (h.dialling hi).2).1
  rwa [h.pointers, List.mem_range] at hmem

theorem accept (h : Even peers unreachable n s events) (hlt : s.fibers.length < n) :
    Even peers unreachable n s.accept (events ++ [.accept]) where
  pointers := h.pointers
  allocated := h.allocated
  dead hp := h.dead hp
  load {p} hp := by
    rw [State.load_accept, h.load hp, State.accept, List.count_append]
    rfl
  even {i p} hi := by
    rw [State.load_accept, h.even hi, State.accept, List.countP_append]
    rfl
  staying {f} hf := by
    obtain hf | hf := List.mem_append.1 hf
    · exact h.staying hf
    · exact Or.inl (List.mem_singleton.1 hf)
  dialling {i p} hi := by
    rw [State.accept, List.getElem?_append] at hi
    split at hi
    · exact h.dialling hi
    · rw [List.getElem?_singleton] at hi
      split at hi
      · cases hi
      · cases hi
  locked {i} hi := by
    obtain ⟨p, hp⟩ := h.locked hi
    refine ⟨p, ?_⟩
    rw [State.accept, List.getElem?_append_left (List.getElem?_eq_some_iff.1 hp).1, hp]
  clients := by
    rw [State.accept, List.length_append]
    exact hlt
  dialled {p} hp hdead := by
    rw [List.countP_append, State.isDead_accept, h.dialled hp hdead, State.accept,
      List.count_append]
    rfl

theorem dial (h : Even peers unreachable n s events) (hfiber : s.fibers[i]? = some .waiting)
    (hfree : s.mutex_ = none) (hpeer : s.suitablePeer = some p) :
    Even peers unreachable n (s.dial i p) (events ++ [.dial i p a]) where
  pointers := h.pointers
  allocated := h.allocated
  dead hp := h.dead hp
  load {q} hq := by
    have hcount := count_set_add hfiber (.dialling p) (· == .serving q)
    rw [State.load_dial, h.load hq]
    exact hcount.symm
  even {j q} hj := by
    have hcount := count_set_add hfiber (.dialling p) Fiber.isServing
    rw [State.load_dial, h.even hj]
    exact congrArg (share _ · j) hcount.symm
  staying {f} hf := by
    obtain hf | rfl := List.mem_or_eq_of_mem_set hf
    · exact h.staying hf
    · exact Or.inr (Or.inl rfl)
  dialling {j q} hj := by
    change (s.fibers.set i _)[j]? = _ at hj
    rw [List.getElem?_set] at hj
    split at hj
    · split at hj
      · cases hj
        exact ⟨congrArg some ‹_›, hpeer⟩
      · cases hj
    · exact (h.not_dialling hfree hj).elim
  locked {j} hj := by
    obtain rfl := Option.some.inj hj
    refine ⟨p, ?_⟩
    rw [State.dial, List.getElem?_set_self (List.getElem?_eq_some_iff.1 hfiber).1]
  clients := by
    rw [State.dial, List.length_set]
    exact h.clients
  dialled {q} hq hdead := by
    have hcount := count_set_add hfiber (.dialling p) (· == .dialling q)
    rw [List.countP_append, State.isDead_dial, h.dialled hq hdead, State.dial, Nat.add_assoc]
    refine congrArg _ ?_
    have hdials : List.countP (Event.dials q) [Event.dial i p a] = if p = q then 1 else 0 := by
      by_cases hpq : p = q <;> simp [Event.dials, hpq]
    have hnew : (if (Fiber.dialling p == .dialling q) = true then 1 else 0)
        = if p = q then 1 else 0 := by
      by_cases hpq : p = q <;> simp [hpq]
    rw [hnew] at hcount
    rw [hdials]
    exact hcount.symm

theorem attach (h : Even peers unreachable n s events)
    (hfiber : s.fibers[i]? = some (.dialling p)) (ha : s.address p = some a)
    (hreach : unreachable p = false) :
    Even peers unreachable n (s.attach i p) (events ++ [.attach i p a]) where
  pointers := h.pointers
  allocated := by
    rw [State.attach, List.length_modify]
    exact h.allocated
  dead {q} hq := by
    rw [State.isDead_attach] at hq
    exact h.dead hq
  load {q} hq := by
    have hcount := count_set_add hfiber (.serving p) (· == .serving q)
    rw [State.load_attach ha, h.load hq]
    change _ = (s.fibers.set i _).countP (· == .serving q)
    by_cases hqp : q = p
    · subst q
      rw [if_pos rfl]
      rw [if_neg (by simp), if_pos (beq_self_eq_true _)] at hcount
      exact hcount.symm
    · rw [if_neg hqp]
      rw [if_neg (by simp), if_neg (by simpa using Ne.symm hqp)] at hcount
      exact hcount.symm
  even {j q} hj := by
    have hcount := count_set_add hfiber (.serving p) Fiber.isServing
    have hdialling : ¬(Fiber.dialling p).isServing = true := Bool.false_ne_true
    rw [if_neg hdialling, if_pos (show (Fiber.serving p).isServing = true from rfl)] at hcount
    obtain ⟨k, hk⟩ := List.getElem?_of_mem (mem_live.2 ⟨h.lt_length hfiber, hreach⟩)
    have hturn := h.turn (h.dialling hfiber).2 hk
    rw [State.load_attach ha, h.even hj]
    change _ = share _ ((s.fibers.set i _).countP _) j
    rw [← Nat.add_zero ((s.fibers.set i _).countP _), hcount,
      share_succ (List.getElem?_eq_some_iff.1 hj).1, ← hturn]
    by_cases hjk : j = k
    · subst hjk
      rw [if_pos rfl, if_pos (Option.some.inj (hj.symm.trans hk))]
    · have hqp : q ≠ p := by
        rintro rfl
        exact hjk ((List.getElem?_inj (List.getElem?_eq_some_iff.1 hj).1 nodup_live).1
          (hj.trans hk.symm))
      rw [if_neg hjk, if_neg hqp, Nat.add_zero]
  staying {f} hf := by
    obtain hf | rfl := List.mem_or_eq_of_mem_set hf
    · exact h.staying hf
    · exact Or.inr (Or.inr rfl)
  dialling {j q} hj := by
    have hne : Fiber.serving p ≠ .dialling q := by simp
    obtain ⟨hji, hj⟩ := getElem?_set_dialling hne hj
    exact absurd (h.eq_of_dialling hfiber hj) hji
  locked hj := absurd hj (by simp [State.attach])
  clients := by
    rw [State.attach, List.length_set]
    exact h.clients
  dialled {q} hq hdead := by
    have hcount := count_set_add hfiber (.serving p) (· == .dialling q)
    have hne : p ≠ q := by
      rintro rfl
      rw [hreach] at hdead
      cases hdead
    rw [if_neg (by simpa using hne), if_neg (by simp)] at hcount
    rw [List.countP_append, State.isDead_attach, h.dialled hq hdead]
    exact congrArg _ hcount.symm

theorem fail (h : Even peers unreachable n s events)
    (hfiber : s.fibers[i]? = some (.dialling p)) (ha : s.address p = some a)
    (hdead : unreachable p = true) :
    Even peers unreachable n (s.fail i p) (events ++ [.fail i p a]) where
  pointers := h.pointers
  allocated := by
    rw [State.fail, List.length_modify]
    exact h.allocated
  dead {q} hq := by
    rw [State.isDead_fail ha] at hq
    split at hq
    · subst q
      exact hdead
    · exact h.dead hq
  load {q} hq := by
    have hcount := count_set_add hfiber .waiting (· == .serving q)
    rw [State.load_fail, h.load hq]
    exact hcount.symm
  even {j q} hj := by
    have hcount := count_set_add hfiber .waiting Fiber.isServing
    rw [State.load_fail, h.even hj]
    exact congrArg (share _ · j) hcount.symm
  staying {f} hf := by
    obtain hf | rfl := List.mem_or_eq_of_mem_set hf
    · exact h.staying hf
    · exact Or.inl rfl
  dialling {j q} hj := by
    have hne : Fiber.waiting ≠ .dialling q := by simp
    obtain ⟨hji, hj⟩ := getElem?_set_dialling hne hj
    exact absurd (h.eq_of_dialling hfiber hj) hji
  locked hj := absurd hj (by simp [State.fail])
  clients := by
    rw [State.fail, List.length_set]
    exact h.clients
  dialled {q} hq hdead := by
    have hcount := count_set_add hfiber .waiting (· == .dialling q)
    rw [List.countP_append, State.isDead_fail ha, h.dialled hq hdead]
    change _ + 0 = _ + (s.fibers.set i _).countP (· == .dialling q)
    by_cases hqp : q = p
    · subst q
      have halive := (State.mem_of_suitablePeer (h.dialling hfiber).2).2
      rw [if_pos (beq_self_eq_true _), if_neg (by simp)] at hcount
      rw [if_pos rfl, if_pos rfl, if_neg (by rw [halive]; exact Bool.false_ne_true), Nat.zero_add,
        Nat.add_comm 1, hcount]
      rfl
    · rw [if_neg (by simpa using Ne.symm hqp), if_neg (by simp)] at hcount
      rw [if_neg hqp]
      exact congrArg _ hcount.symm

/-- **Every step keeps this.** -/
theorem step (h : Even peers unreachable n s events) (hlive : live peers unreachable ≠ [])
    (hstep : Step s e s') (hstay : Staying unreachable n s e) :
    Even peers unreachable n s' (events ++ [e]) := by
  cases hstep with
  | accept => exact h.accept hstay
  | dial hfiber hfree hpeer => exact h.dial hfiber hfree hpeer
  | attach hfiber ha => exact h.attach hfiber ha hstay
  | fail hfiber ha => exact h.fail hfiber ha hstay
  | refuse _ _ hnone =>
    obtain ⟨p, a, hp, -⟩ := h.exists_suitablePeer hlive
    rw [hnone] at hp
    cases hp
  | finish | release | setBackends => exact hstay.elim

end Even

/-! ## The end is reached -/

/-- The peers that are still to be found dead. -/
def undiscovered (peers : List α) (unreachable : ℕ → Bool) (s : State α) : Finset ℕ :=
  (Finset.range peers.length).filter fun p ↦ unreachable p = true ∧ s.isDead p = false

/-- How many steps a client is away from its connection. -/
def Fiber.due : Fiber → ℕ
  | .waiting => 2
  | .dialling _ => 1
  | _ => 0

/-- How much there is to be done: each client has three steps, and one that meets a peer that cannot
be reached has two more. -/
def remaining (peers : List α) (unreachable : ℕ → Bool) (n : ℕ) (s : State α) : ℕ :=
  3 * (n - s.fibers.length) + (s.fibers.map Fiber.due).sum
    + 2 * (undiscovered peers unreachable s).card

theorem sum_due_set {fibers : List Fiber} {f : Fiber} (hf : fibers[i]? = some f) (f' : Fiber) :
    ((fibers.set i f').map Fiber.due).sum + f.due = (fibers.map Fiber.due).sum + f'.due := by
  induction fibers generalizing i with
  | nil => cases hf
  | cons g fibers ih =>
    cases i with
    | zero =>
      cases hf
      rw [List.set_cons_zero, List.map_cons, List.map_cons, List.sum_cons, List.sum_cons]
      omega
    | succ i =>
      rw [List.getElem?_cons_succ] at hf
      have hrest := ih hf
      rw [List.set_cons_succ, List.map_cons, List.map_cons, List.sum_cons, List.sum_cons]
      omega

namespace Even

theorem card_undiscovered_fail (h : Even peers unreachable n s events)
    (hfiber : s.fibers[i]? = some (.dialling p)) (ha : s.address p = some a)
    (hdead : unreachable p = true) :
    (undiscovered peers unreachable (s.fail i p)).card
      < (undiscovered peers unreachable s).card := by
  refine Finset.card_lt_card (Finset.ssubset_iff_of_subset ?_ |>.2 ⟨p, ?_, ?_⟩)
  · intro q hq
    rw [undiscovered, Finset.mem_filter, State.isDead_fail ha] at hq
    rw [undiscovered, Finset.mem_filter]
    obtain ⟨hlt, hunreachable, halive⟩ := hq
    split at halive
    · cases halive
    · exact ⟨hlt, hunreachable, halive⟩
  · rw [undiscovered, Finset.mem_filter, Finset.mem_range]
    exact ⟨h.lt_length hfiber, hdead, (State.mem_of_suitablePeer (h.dialling hfiber).2).2⟩
  · rw [undiscovered, Finset.mem_filter, State.isDead_fail ha, if_pos rfl]
    rintro ⟨-, -, halive⟩
    cases halive

/-- **Every step brings the end nearer.** -/
theorem remaining_lt (h : Even peers unreachable n s events) (hlive : live peers unreachable ≠ [])
    (hstep : Step s e s') (hstay : Staying unreachable n s e) :
    remaining peers unreachable n s' < remaining peers unreachable n s := by
  cases hstep with
  | accept =>
    have hlt : s.fibers.length < n := hstay
    have hlength : s.accept.fibers.length = s.fibers.length + 1 := List.length_append
    have hdue : (s.accept.fibers.map Fiber.due).sum = (s.fibers.map Fiber.due).sum + 2 := by
      rw [State.accept, List.map_append, List.sum_append]
      rfl
    have hdead : undiscovered peers unreachable s.accept = undiscovered peers unreachable s := rfl
    rw [remaining, remaining, hlength, hdue, hdead]
    omega
  | @dial i p a hfiber =>
    have hlength : (s.dial i p).fibers.length = s.fibers.length := List.length_set
    have hdue : ((s.dial i p).fibers.map Fiber.due).sum + 2
        = (s.fibers.map Fiber.due).sum + 1 := sum_due_set hfiber (.dialling p)
    have hdead : undiscovered peers unreachable (s.dial i p) = undiscovered peers unreachable s :=
      rfl
    rw [remaining, remaining, hlength, hdead]
    omega
  | @attach i p a hfiber =>
    have hlength : (s.attach i p).fibers.length = s.fibers.length := List.length_set
    have hdue : ((s.attach i p).fibers.map Fiber.due).sum + 1
        = (s.fibers.map Fiber.due).sum + 0 := sum_due_set hfiber (.serving p)
    have hdead : undiscovered peers unreachable (s.attach i p)
        = undiscovered peers unreachable s := by
      rw [undiscovered, State.isDead_attach, undiscovered]
    rw [remaining, remaining, hlength, hdead]
    omega
  | @fail i p a hfiber ha =>
    have hlength : (s.fail i p).fibers.length = s.fibers.length := List.length_set
    have hdue : ((s.fail i p).fibers.map Fiber.due).sum + 1
        = (s.fibers.map Fiber.due).sum + 2 := sum_due_set hfiber .waiting
    have hdead := h.card_undiscovered_fail hfiber ha hstay
    rw [remaining, remaining, hlength]
    omega
  | refuse _ _ hnone =>
    obtain ⟨p, a, hp, -⟩ := h.exists_suitablePeer hlive
    rw [hnone] at hp
    cases hp
  | finish | release | setBackends => exact hstay.elim

/-- Who does not wait and does not dial has a connection. -/
theorem connected (h : Even peers unreachable n s events) (hfree : s.mutex_ = none)
    (hwaiting : .waiting ∉ s.fibers) : ∀ f ∈ s.fibers, ∃ p, f = .serving p := by
  intro f hf
  cases f with
  | serving p => exact ⟨p, rfl⟩
  | waiting => exact absurd hf hwaiting
  | dialling p =>
    obtain ⟨i, hi⟩ := List.getElem?_of_mem hf
    exact (h.not_dialling hfree hi).elim
  | closing | closed | refused => obtain heq | heq | heq := h.staying hf <;> cases heq

/-- **Where nothing more can be done, all is done.** -/
theorem distributed_or_step (h : Even peers unreachable n s events)
    (hlive : live peers unreachable ≠ []) :
    Distributed peers unreachable n (s, events)
      ∨ ∃ e s', Step s e s' ∧ Staying unreachable n s e := by
  obtain hlt | hlength := Nat.lt_or_eq_of_le h.clients
  · exact Or.inr ⟨_, _, .accept, hlt⟩
  cases hmutex : s.mutex_ with
  | some i =>
    obtain ⟨p, hp⟩ := h.locked hmutex
    have haddress := h.lt_length hp
    rw [← h.allocated, State.lt_length_iff] at haddress
    obtain ⟨a, ha⟩ := haddress
    cases hreach : unreachable p with
    | true => exact Or.inr ⟨_, _, .fail hp ha, hreach⟩
    | false => exact Or.inr ⟨_, _, .attach hp ha, hreach⟩
  | none =>
    by_cases hwaiting : .waiting ∈ s.fibers
    · obtain ⟨i, hi⟩ := List.getElem?_of_mem hwaiting
      obtain ⟨p, a, hp, ha⟩ := h.exists_suitablePeer hlive
      exact Or.inr ⟨_, _, .dial hi hmutex hp ha, trivial⟩
    · have hconnected := h.connected hmutex hwaiting
      have hserving : s.fibers.countP Fiber.isServing = n := by
        rw [← hlength, List.countP_eq_length]
        intro f hf
        obtain ⟨p, rfl⟩ := hconnected f hf
        rfl
      refine Or.inl ⟨hlength, hconnected, fun i p hi ↦ ?_, fun p hp hdead ↦ ?_⟩
      · have hlt := (mem_live.1 (List.mem_of_getElem? hi)).1
        rw [← h.load hlt, h.even hi, hserving, share]
      · have hcount : s.fibers.count (.dialling p) = 0 := by
          refine List.count_eq_zero.2 fun hmem ↦ ?_
          obtain ⟨q, heq⟩ := hconnected _ hmem
          cases heq
        rw [h.dialled hp hdead, hcount]
        split
        · exact le_rfl
        · exact Nat.zero_le 1

end Even

/-- **The connections are distributed evenly**, whatever the order of the steps: all clients are
connected in the end, and a peer that cannot be reached has been dialled at most once. -/
theorem distributed (peers : List α) (unreachable : ℕ → Bool) (n : ℕ)
    (hlive : live peers unreachable ≠ []) :
    Inevitable (Connecting unreachable n) (Distributed peers unreachable n)
      (State.init.setBackends peers, []) := by
  refine Inevitable.of_measure (I := fun c ↦ Even peers unreachable n c.1 c.2)
    (fun c ↦ remaining peers unreachable n c.1) ?_ ?_ Even.start
  · rintro c c' h ⟨e, hstep, hstay, hevents⟩
    rw [hevents]
    exact ⟨h.step hlive hstep hstay, h.remaining_lt hlive hstep hstay⟩
  · intro c h
    obtain hdone | ⟨e, s', hstep, hstay⟩ := h.distributed_or_step hlive
    · exact Or.inl hdone
    · exact Or.inr ⟨(s', c.2 ++ [e]), e, hstep, hstay, rfl⟩

end

/-- Three backends of which the second one cannot be reached have 2, 0 and 1 of three clients. -/
theorem distributed_three : Inevitable (Connecting (· == 1) 3)
    (Distributed [10, 20, 30] (· == 1) 3) (State.init.setBackends [10, 20, 30], []) :=
  distributed [10, 20, 30] (· == 1) 3 (by decide)

end Balancer
end ManyTasks
