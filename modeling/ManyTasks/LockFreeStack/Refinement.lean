import ManyTasks.LockFreeStack.Stack
import Mathlib.Data.Multiset.Count

/-!
# The stack is a stack

What the stack is for is said by `Abstract`: there is a list of values, and every call has some
values in its hands that it has taken and not yet returned or retired.  A successful exchange of
`head_` is a push, a pop or a take-all (`Abstract.Step`), a call that ends gives away what it has in
its hands, and no other step does anything.

That the code does this (`refines_step`) rests on who owns the nodes.  Each node that is in use is
on the list from `head_` or belongs to one call (`Inv.exclusive`).  What `Pop` puts into `head_` it
has read earlier, from a node that may have been taken away since.  But as long as the node is
protected it is not freed, and so nobody allocates it again and pushes it (`Inv.fresh`); hence if it
is at the head now it has been on the list all the time, and what has been read is still there
(`Place.Knows`).
-/

set_option autoImplicit false

namespace ManyTasks
namespace LockFreeStack

open Function (update update_self update_of_ne)
open Lib (Chain Exclusive Ownership Trace shareOut shareOut_none shareOut_self shareOut_of_ne)

variable {C A V : Type}

/-! ## The abstract stack -/

/-- The values on the stack, and those that the calls have taken. -/
structure Abstract (C V : Type) where
  stack : List V
  hands : C → List V

/-- Nobody has anything. -/
def Abstract.init : Abstract C V := ⟨[], fun _ ↦ []⟩

/-- What the steps of the code come to. -/
inductive Abstract.Step [DecidableEq C] : Abstract C V → Label C A V → Abstract C V → Prop where
  | push {o} (c value) : Step o (.push c value) { o with stack := value :: o.stack }
  | pop {o} (c value rest) (hstack : o.stack = value :: rest) (hc : o.hands c = []) :
      Step o (.pop c) ⟨rest, update o.hands c [value]⟩
  | clear {o} (c) (hc : o.hands c = []) : Step o (.clear c) ⟨[], update o.hands c o.stack⟩
  | empty {o} (c) (hstack : o.stack = []) : Step o (.empty c) o
  | popped {o} (c value) (hc : o.hands c = [value]) :
      Step o (.popped c value) { o with hands := update o.hands c [] }
  | cleared {o} (c value rest) (hc : o.hands c = value :: rest) :
      Step o (.cleared c value) { o with hands := update o.hands c rest }
  | tau {o} (c) : Step o (.tau c) o
  | free {o} (a) : Step o (.free a) o

/-! ## Who owns what -/

/-- The node that `Push` is about to put at the head. -/
def Place.building : Place A V → Option A
  | .pushExchange _ a _ | .linking _ a _ => some a
  | _ => none

/-- The nodes that belong to a call. -/
def Place.Owns (next : A → Option A) : Place A V → List A → Prop
  | .pushExchange _ a _, as | .linking _ a _, as | .moving a, as | .releasing a _, as
  | .retiring a _, as => as = [a]
  | .walking old_head, as => Chain next old_head as
  | .dropping a old_head, as => ∃ bs, as = a :: bs ∧ Chain next old_head bs
  | _, as => as = []

/-- What a call relies on; `as` are the nodes on the list. -/
def Place.Knows (nodes : A → Node A V) (as : List A) : Place A V → Prop
  | .pushExchange value a old_head => nodes a = ⟨value, old_head⟩
  | .linking value a _ => (nodes a).value = value
  | .popExchange a next => a ∈ as → (nodes a).next = next
  | _ => True

/-- The values that a call has in its hands, given the nodes that belong to it. -/
def Place.values (value : A → V) : Place A V → List A → List V
  | .moving _, as | .walking _, as | .dropping _ _, as => as.map value
  | .releasing _ value, _ | .retiring _ value, _ => [value]
  | _, _ => []

/-- The list belongs to nobody, and the nodes of a call to the call. -/
structure Inv (owned : Option C → List A) (s : State C A V) : Prop
    extends Ownership Place.Owns s.next s.head_ s.places owned where
  allocated : ∀ {k a}, a ∈ owned k → s.status a = .allocated
  inUse : ∀ {c a}, (s.places c).protects = some a → s.status a ≠ .free
  fresh : ∀ {c d a}, (s.places c).protects = some a → (s.places d).building ≠ some a
  knows : ∀ c, (s.places c).Knows s.nodes (owned none)

theorem inv_init (nodes : A → Node A V) : Inv (fun _ ↦ []) (init nodes : State C A V) where
  chain := Lib.chain_nil
  owns _ := rfl
  exclusive := Lib.exclusive_nil
  allocated := nofun
  inUse := nofun
  fresh := nofun
  knows _ := trivial

/-! ## Places -/

section Places

variable {next next' : A → Option A} {nodes nodes' : A → Node A V} {as : List A}
  {p : Place A V} {a : A}

theorem Place.Owns.congr (h : p.Owns next as) (hnext : ∀ a ∈ as, next' a = next a) :
    p.Owns next' as := by
  cases p with
  | walking old_head => exact h.congr hnext
  | dropping a old_head =>
    obtain ⟨bs, rfl, hchain⟩ := h
    exact ⟨bs, rfl, hchain.congr fun b hb ↦ hnext b (List.mem_cons_of_mem a hb)⟩
  | _ => exact h

/-- The node of a `Push` belongs to it. -/
theorem Place.Owns.mem_of_building (h : p.Owns next as) (ha : p.building = some a) : a ∈ as := by
  cases p with
  | pushExchange _ b _ | linking _ b _ =>
    cases ha
    rw [show as = [a] from h]
    exact List.mem_singleton_self a
  | _ => cases ha

theorem Place.building_of_protects (h : p.protects = some a) : p.building = none := by
  cases p with
  | pushExchange | linking => cases h
  | _ => rfl

/-- Nodes that do not belong to the call, and are not on the list, may change. -/
theorem Place.Knows.congr {bs : List A} (h : p.Knows nodes bs) (howns : p.Owns next as)
    (hnodes : ∀ a, a ∈ as ∨ a ∈ bs → nodes' a = nodes a) : p.Knows nodes' bs := by
  cases p with
  | pushExchange value a old_head =>
    exact (hnodes a (.inl (howns.mem_of_building rfl))).trans h
  | linking value a old_head =>
    exact (congrArg Node.value (hnodes a (.inl (howns.mem_of_building rfl)))).trans h
  | popExchange a next => exact fun ha ↦ (congrArg Node.next (hnodes a (.inr ha))).trans (h ha)
  | _ => exact h

/-- A node that is new on the list is not one that is protected. -/
theorem Place.Knows.mono {bs bs' : List A} (h : p.Knows nodes bs)
    (hsub : ∀ a, p.protects = some a → a ∈ bs' → a ∈ bs) : p.Knows nodes bs' := by
  cases p with
  | popExchange a next => exact fun ha ↦ h (hsub a rfl ha)
  | _ => exact h

end Places

/-! ## What a step does to the invariant -/

section Steps

variable [DecidableEq C] [DecidableEq A] {owned : Option C → List A} {s s' : State C A V} {c : C}
  {a : A} {p : Place A V}

omit [DecidableEq C] in
theorem Inv.mark (hinv : Inv owned s) {status : Status} (ha : ∀ k, a ∉ owned k)
    (hfree : status = .free → ∀ c, (s.places c).protects ≠ some a) :
    Inv owned (s.mark a status) where
  toOwnership := hinv.toOwnership
  allocated {k b} hb := (update_of_ne (ne_of_mem_of_not_mem hb (ha k)) _ _).trans
    (hinv.allocated hb)
  inUse {c b} hb := by
    by_cases hba : b = a
    · subst hba
      change update s.status b status b ≠ .free
      rw [update_self]
      exact fun hst ↦ hfree hst c hb
    · exact (update_of_ne hba _ _).trans_ne (hinv.inUse hb)
  fresh := hinv.fresh
  knows := hinv.knows

omit [DecidableEq C] in
/-- A node that is not on the list is written. -/
theorem Inv.write (hinv : Inv owned s) {n : Node A V} (hlist : a ∉ owned none)
    (hown : ∀ c, a ∈ owned (some c) →
      (s.places c).Owns (s.write a n).next (owned (some c)) ∧
        (s.places c).Knows (s.write a n).nodes (owned none)) : Inv owned (s.write a n) := by
  have hnodes : ∀ b, b ≠ a → (s.write a n).nodes b = s.nodes b := fun b hb ↦ update_of_ne hb _ _
  have hnext : ∀ b, b ≠ a → (s.write a n).next b = s.next b :=
    fun b hb ↦ congrArg Node.next (hnodes b hb)
  refine ⟨hinv.toOwnership.write Place.Owns.congr hnext hlist fun c hc ↦ (hown c hc).1,
    hinv.allocated, hinv.inUse, hinv.fresh, fun c ↦ ?_⟩
  by_cases ha : a ∈ owned (some c)
  · exact (hown c ha).2
  · refine (hinv.knows c).congr (hinv.owns c) fun b hb ↦ hnodes b ?_
    rcases hb with hb | hb
    · exact ne_of_mem_of_not_mem hb ha
    · exact ne_of_mem_of_not_mem hb hlist

omit [DecidableEq C] in
/-- A node that nobody owns is written. -/
theorem Inv.write_unowned (hinv : Inv owned s) {n : Node A V} (ha : ∀ k, a ∉ owned k) :
    Inv owned (s.write a n) :=
  hinv.write (ha none) fun c hc ↦ absurd hc (ha (some c))

omit [DecidableEq A] in
/-- A call and the list share out their nodes. -/
theorem Inv.exchange (hinv : Inv owned s) {head' : Option A} {l l' : List A}
    (hchain : Chain s.next head' l) (hex : Exclusive (shareOut owned l c l'))
    (hl : ∀ a ∈ l, a ∈ owned none ∨ (s.places c).building = some a)
    (hl' : ∀ a ∈ l', s.status a = .allocated) (howns : p.Owns s.next l')
    (hprotects : ∀ a, p.protects = some a → (s.places c).protects = some a ∨ a ∈ owned none)
    (hbuilding : ∀ a, p.building = some a →
      (s.places c).building = some a ∨ ∀ d, (s.places d).protects ≠ some a)
    (hknows : p.Knows s.nodes l) : Inv (shareOut owned l c l')
    ({ s with head_ := head' }.go c p) := by
  have hplaces : ∀ {d}, d ≠ c → ({ s with head_ := head' }.go c p).places d = s.places d :=
    fun hd ↦ update_of_ne hd _ _
  have hself : ({ s with head_ := head' }.go c p).places c = p := update_self _ _ _
  have hmem : ∀ {d a}, (s.places d).building = some a → a ∈ owned (some d) :=
    fun ha ↦ (hinv.owns _).mem_of_building ha
  -- protection is only added for nodes on the list, which are in use, and which nobody builds
  have hprot : ∀ {d a}, (({ s with head_ := head' }.go c p).places d).protects = some a →
      (s.places d).protects = some a ∨ a ∈ owned none := by
    intro d a ha
    by_cases hd : d = c
    · subst hd
      exact hprotects a (hself ▸ ha)
    · exact .inl (hplaces hd ▸ ha)
  refine ⟨hinv.share hchain howns hex, fun {k b} hb ↦ ?_, fun {d b} hb ↦ ?_,
    fun {d d' b} hb hb' ↦ ?_, fun d ↦ ?_⟩
  · rcases Lib.mem_shareOut hb with ⟨-, hb⟩ | ⟨-, hb⟩ | ⟨-, hb⟩
    · exact (hl b hb).elim hinv.allocated fun hb ↦ hinv.allocated (hmem hb)
    · exact hl' b hb
    · exact hinv.allocated hb
  · rcases hprot hb with hold | hlist
    · exact hinv.inUse hold
    · change s.status b ≠ .free
      simp [hinv.allocated hlist]
  · have hold : ∀ {e}, (s.places e).building = some b → False := fun he ↦
      (hprot hb).elim (fun h ↦ hinv.fresh h he) (hinv.notMem_list (hmem he))
    by_cases hd' : d' = c
    · subst hd'
      rw [hself] at hb'
      rcases hbuilding b hb' with hc | hfree
      · exact hold hc
      · by_cases hd : d = d'
        · subst hd
          rw [hself] at hb
          cases (Place.building_of_protects hb).symm.trans hb'
        · exact hfree d (hplaces hd ▸ hb)
    · exact hold (hplaces hd' ▸ hb')
  · rw [shareOut_none]
    by_cases hd : d = c
    · subst hd
      rw [hself]
      exact hknows
    · rw [hplaces hd]
      exact (hinv.knows d).mono fun a ha hal ↦
        (hl a hal).resolve_right fun hb ↦ hinv.fresh ha hb

omit [DecidableEq A] in
/-- A call goes on, and has other nodes. -/
theorem Inv.go (hinv : Inv owned s) {l' : List A}
    (hex : Exclusive (shareOut owned (owned none) c l')) (hl' : ∀ a ∈ l', s.status a = .allocated)
    (howns : p.Owns s.next l')
    (hprotects : ∀ a, p.protects = some a → (s.places c).protects = some a ∨ a ∈ owned none)
    (hbuilding : ∀ a, p.building = some a →
      (s.places c).building = some a ∨ ∀ d, (s.places d).protects ≠ some a)
    (hknows : p.Knows s.nodes (owned none)) :
    Inv (shareOut owned (owned none) c l') (s.go c p) :=
  hinv.exchange hinv.chain hex (fun _ ha ↦ .inl ha) hl' howns hprotects hbuilding hknows

omit [DecidableEq A] in
/-- A call goes on with the nodes that it has. -/
theorem Inv.keep (hinv : Inv owned s) (howns : p.Owns s.next (owned (some c)))
    (hprotects : ∀ a, p.protects = some a → (s.places c).protects = some a ∨ a ∈ owned none)
    (hbuilding : ∀ a, p.building = some a → (s.places c).building = some a)
    (hknows : p.Knows s.nodes (owned none)) : Inv owned (s.go c p) := by
  have hex : Exclusive (shareOut owned (owned none) c (owned (some c))) := by
    rw [Lib.shareOut_eq_self]
    exact hinv.exclusive
  have h := hinv.go (p := p) hex (fun a ha ↦ hinv.allocated ha) howns hprotects
    (fun a ha ↦ .inl (hbuilding a ha)) hknows
  rwa [Lib.shareOut_eq_self] at h

/-! ## What a step does to the abstract stack -/

/-- What the state stands for. -/
def abs (owned : Option C → List A) (s : State C A V) : Abstract C V where
  stack := (owned none).map s.value
  hands c := (s.places c).values s.value (owned (some c))

omit [DecidableEq C] in
theorem abs_mark (status : Status) : abs owned (s.mark a status) = abs owned s := rfl

omit [DecidableEq A] in
theorem abs_exchange {head' : Option A} {l l' : List A} :
    abs (shareOut owned l c l') ({ s with head_ := head' }.go c p) =
      ⟨l.map s.value, update (abs owned s).hands c (p.values s.value l')⟩ := by
  rw [abs, shareOut_none]
  refine congrArg _ (funext fun d ↦ ?_)
  change (update s.places c p d).values s.value _ = _
  by_cases hd : d = c
  · subst hd
    rw [shareOut_self, update_self, update_self]
  · rw [shareOut_of_ne hd, update_of_ne hd, update_of_ne hd]
    rfl

omit [DecidableEq A] in
theorem abs_go {l' : List A} : abs (shareOut owned (owned none) c l') (s.go c p) =
    { abs owned s with hands := update (abs owned s).hands c (p.values s.value l') } :=
  abs_exchange

omit [DecidableEq A] in
/-- Nothing changes if the values that the call has in its hands are the same. -/
theorem abs_keep (hvalues : p.values s.value (owned (some c)) =
    (s.places c).values s.value (owned (some c))) : abs owned (s.go c p) = abs owned s := by
  refine congrArg (Abstract.mk _) (funext fun d ↦ ?_)
  change (update s.places c p d).values s.value _ = _
  by_cases hd : d = c
  · subst hd
    rw [update_self, hvalues]
  · rw [update_of_ne hd]

omit [DecidableEq C] [DecidableEq A] in
theorem values_congr {value value' : A → V} {as : List A} (h : ∀ a ∈ as, value' a = value a) :
    p.values value' as = p.values value as := by
  cases p with
  | moving | walking | dropping => exact List.map_congr_left h
  | _ => rfl

omit [DecidableEq C] in
theorem abs_write {n : Node A V} (hlist : a ∉ owned none)
    (hown : ∀ c, a ∈ owned (some c) →
      (s.places c).values (s.write a n).value (owned (some c)) =
        (s.places c).values s.value (owned (some c))) : abs owned (s.write a n) = abs owned s := by
  have hvalue : ∀ {b}, b ≠ a → (s.write a n).value b = s.value b :=
    fun hb ↦ congrArg Node.value (update_of_ne hb _ _)
  have hstack : (owned none).map (s.write a n).value = (owned none).map s.value :=
    List.map_congr_left fun b hb ↦ hvalue (ne_of_mem_of_not_mem hb hlist)
  rw [abs, hstack]
  refine congrArg _ (funext fun c ↦ ?_)
  by_cases ha : a ∈ owned (some c)
  · exact hown c ha
  · exact values_congr fun b hb ↦ hvalue (ne_of_mem_of_not_mem hb ha)

/-! ## The steps -/

/-- The invariant and the abstract stack after a step. -/
def Answers (owned : Option C → List A) (s : State C A V) (l : Label C A V)
    (s' : State C A V) : Prop :=
  ∃ owned', Inv owned' s' ∧ Abstract.Step (abs owned s) l (abs owned' s')

omit [DecidableEq A] in
theorem Inv.answers_tau (hinv : Inv owned s') (habs : abs owned s' = abs owned s) :
    Answers owned s (.tau c) s' :=
  ⟨owned, hinv, habs ▸ .tau c⟩

omit [DecidableEq A] in
/-- A call that has no nodes goes on, and gets none. -/
theorem Inv.idle (hinv : Inv owned s) (hc : owned (some c) = []) (howns : p.Owns s.next [])
    (hvalues : ∀ q : Place A V, q = p ∨ q = s.places c → q.values s.value [] = [])
    (hprotects : ∀ a, p.protects = some a → (s.places c).protects = some a ∨ a ∈ owned none)
    (hbuilding : p.building = none) (hknows : p.Knows s.nodes (owned none)) :
    Answers owned s (.tau c) (s.go c p) := by
  refine (hinv.keep (hc ▸ howns) hprotects (fun a ha ↦ ?_) hknows).answers_tau (abs_keep ?_)
  · cases hbuilding.symm.trans ha
  · rw [hc, hvalues p (.inl rfl), hvalues _ (.inr rfl)]

omit [DecidableEq C] [DecidableEq A] in
/-- What is not in use, or retired, belongs to nobody. -/
theorem Inv.unowned (hinv : Inv owned s) (ha : s.status a ≠ .allocated) (k : Option C) :
    a ∉ owned k :=
  fun hk ↦ ha (hinv.allocated hk)

theorem Inv.allocate (hinv : Inv owned s) {value : V} {old_head : Option A}
    (h : s.places c = .allocating value old_head) (ha : s.status a = .free) :
    Answers owned s (.tau c)
      (((s.mark a .allocated).write a ⟨value, old_head⟩).go c
        (.pushExchange value a old_head)) := by
  have hunowned : ∀ k, a ∉ owned k := hinv.unowned (by simp [ha])
  have hc : owned (some c) = [] := by simpa [h, Place.Owns] using hinv.owns c
  have hmarked : Inv owned (s.mark a .allocated) := hinv.mark hunowned nofun
  have hwritten : Inv owned ((s.mark a .allocated).write a ⟨value, old_head⟩) :=
    hmarked.write_unowned hunowned
  have hunprotected : ∀ d, (s.places d).protects ≠ some a := fun d hd ↦ hinv.inUse hd ha
  refine ⟨_, hwritten.go (hinv.exclusive.add hunowned) ?_ rfl nofun ?_ (update_self _ _ _), ?_⟩
  · intro b hb
    rw [List.mem_singleton.mp hb]
    exact update_self _ _ _
  · intro b hb
    cases hb
    exact .inr hunprotected
  · rw [abs_go, abs_write (hunowned none) fun d hd ↦ absurd hd (hunowned _), abs_mark]
    have hhands : (abs owned s).hands c = [] := by simp [abs, h, Place.values]
    have hsame : update (abs owned s).hands c [] = (abs owned s).hands := by
      rw [← hhands, Function.update_eq_self]
    change Abstract.Step _ _ { abs owned s with hands := update (abs owned s).hands c [] }
    rw [hsame]
    exact .tau c

omit [DecidableEq A] in
theorem Inv.push (hinv : Inv owned s) {value : V} {old_head : Option A}
    (h : s.places c = .pushExchange value a old_head) (hhead : s.head_ = old_head) :
    Answers owned s (.push c value) ({ s with head_ := some a }.go c .pushed) := by
  have hc : owned (some c) = [a] := by simpa [h, Place.Owns] using hinv.owns c
  have hmem : a ∈ owned (some c) := hc ▸ List.mem_singleton_self a
  have hnode : s.nodes a = ⟨value, old_head⟩ := by simpa [h, Place.Knows] using hinv.knows c
  have hchain : Chain s.next (s.next a) (owned none) := by
    rw [State.next, hnode, ← hhead]
    exact hinv.chain
  have hex : Exclusive (shareOut owned (a :: owned none) c []) := by
    refine hinv.exclusive.shareOut ?_ ?_
    · rw [List.append_nil, List.nodup_cons]
      exact ⟨hinv.notMem_list hmem, hinv.exclusive.nodup none⟩
    · intro b hb
      rw [List.append_nil, List.mem_cons] at hb
      rcases hb with rfl | hb
      · exact .inr hmem
      · exact .inl hb
  refine ⟨_, hinv.exchange (p := .pushed) (Lib.chain_cons hchain) hex ?_ nofun rfl nofun nofun
    trivial, ?_⟩
  · intro b hb
    rw [h]
    rcases List.mem_cons.mp hb with rfl | hb
    · exact .inr rfl
    · exact .inl hb
  · have hhands : (abs owned s).hands c = [] := by simp [abs, h, Place.values]
    have hsame : update (abs owned s).hands c [] = (abs owned s).hands := by
      rw [← hhands, Function.update_eq_self]
    have hvalue : s.value a = value := congrArg Node.value hnode
    rw [abs_exchange, List.map_cons, hvalue]
    change Abstract.Step _ _ ⟨_, update (abs owned s).hands c []⟩
    rw [hsame]
    exact .push c value

omit [DecidableEq A] in
/-- What has been read from the node is still there if the node is at the head. -/
theorem Inv.pop (hinv : Inv owned s) {next : Option A} (h : s.places c = .popExchange a next)
    (hhead : s.head_ = some a) :
    Answers owned s (.pop c) ({ s with head_ := next }.go c (.moving a)) := by
  have hc : owned (some c) = [] := by simpa [h, Place.Owns] using hinv.owns c
  have hknows : a ∈ owned none → s.next a = next := by
    have hknows := hinv.knows c
    rwa [h] at hknows
  obtain ⟨rest, hlist, hrest⟩ := (hhead ▸ hinv.chain).exists_cons
  have hmem : a ∈ owned none := hlist ▸ List.mem_cons_self
  rw [hknows hmem] at hrest
  have hnodup : (a :: rest).Nodup := hlist ▸ hinv.exclusive.nodup none
  have hex : Exclusive (shareOut owned rest c [a]) := by
    refine hinv.exclusive.shareOut (List.nodup_append_comm.mp hnodup) fun b hb ↦ .inl ?_
    rw [hlist]
    exact (List.mem_append.mp hb).elim (List.mem_cons_of_mem a) fun hb ↦
      List.mem_singleton.mp hb ▸ List.mem_cons_self
  refine ⟨_, hinv.exchange (p := .moving a) hrest hex ?_ ?_ rfl
    (fun b hb ↦ .inl (by rw [h]; exact hb)) nofun trivial, ?_⟩
  · exact fun b hb ↦ .inl (hlist ▸ List.mem_cons_of_mem a hb)
  · exact fun b hb ↦ hinv.allocated (List.mem_singleton.mp hb ▸ hmem)
  · rw [abs_exchange]
    refine .pop c (s.value a) _ ?_ ?_
    · rw [abs, hlist, List.map_cons]
    · simp [abs, h, Place.values]

omit [DecidableEq A] in
theorem Inv.clear (hinv : Inv owned s) {old_head : Option A}
    (h : s.places c = .clearExchange old_head) (hhead : s.head_ = old_head) :
    Answers owned s (.clear c) ({ s with head_ := none }.go c (.walking old_head)) := by
  have hc : owned (some c) = [] := by simpa [h, Place.Owns] using hinv.owns c
  have hex : Exclusive (shareOut owned [] c (owned none)) :=
    hinv.exclusive.shareOut (hinv.exclusive.nodup none) fun b hb ↦ .inl hb
  refine ⟨_, hinv.exchange (p := .walking old_head) Lib.chain_nil hex nofun
    (fun b hb ↦ hinv.allocated hb) (hhead ▸ hinv.chain) nofun nofun trivial, ?_⟩
  rw [abs_exchange]
  refine .clear c ?_
  simp [abs, h, Place.values]

/-- A call gives its first node away. -/
theorem Inv.retire (hinv : Inv owned s) {rest : List A} (hc : owned (some c) = a :: rest)
    (howns : p.Owns s.next rest) (hprotects : p.protects = none) (hbuilding : p.building = none)
    (hknows : p.Knows s.nodes (owned none)) :
    Inv (shareOut owned (owned none) c rest) ((s.mark a .retired).go c p) := by
  have hmem : a ∈ owned (some c) := hc ▸ List.mem_cons_self
  have hsub : rest.Sublist (owned (some c)) := hc ▸ List.sublist_cons_self a rest
  have hgone := hinv.go (hinv.exclusive.drop hsub)
    (fun b hb ↦ hinv.allocated (hsub.subset hb)) howns (fun b hb ↦ nomatch hprotects.symm.trans hb)
    (fun b hb ↦ nomatch hbuilding.symm.trans hb) hknows
  have hnodup := hinv.exclusive.nodup (some c)
  rw [hc, List.nodup_cons] at hnodup
  refine hgone.mark (fun k hk ↦ ?_) nofun
  rcases k with - | d
  · rw [shareOut_none] at hk
    exact hinv.notMem_list hmem hk
  · by_cases hd : d = c
    · subst hd
      rw [shareOut_self] at hk
      exact hnodup.1 hk
    · rw [shareOut_of_ne hd] at hk
      exact hd (hinv.eq_of_mem hmem hk)

/-- **Every step does to the stack what it should, or nothing.** -/
theorem Inv.step {l : Label C A V} (hinv : Inv owned s) (hstep : Step s l s') :
    Answers owned s l s' := by
  cases hstep with
  | callPush c value h | callPop c h | callClear c h | pushLoad c value h | acquireLoad c h
  | acquireAgain c value h hhead | popFail c a next h | clearLoad c h | clearFail c old_head h =>
    have hc : owned (some c) = [] := by simpa [h, Place.Owns] using hinv.owns c
    exact hinv.idle hc rfl (by rintro q (rfl | rfl) <;> simp [h, Place.values]) nofun rfl trivial
  | clearEnd c h =>
    have hc : owned (some c) = [] := by
      have howns := hinv.owns c
      rw [h] at howns
      exact howns.eq_nil
    exact hinv.idle hc rfl (by rintro q (rfl | rfl) <;> simp [h, Place.values]) nofun rfl trivial
  | acquired c a h hhead =>
    have hc : owned (some c) = [] := by simpa [h, Place.Owns] using hinv.owns c
    obtain ⟨rest, hlist, -⟩ := (hhead ▸ hinv.chain).exists_cons
    refine hinv.idle hc rfl (by rintro q (rfl | rfl) <;> simp [h, Place.values])
      (fun b hb ↦ .inr ?_) rfl trivial
    cases hb
    exact hlist ▸ List.mem_cons_self
  | empty c h hhead =>
    have hc : owned (some c) = [] := by simpa [h, Place.Owns] using hinv.owns c
    have hlist : owned none = [] := (hhead ▸ hinv.chain).eq_nil
    refine ⟨owned, hinv.keep (by rw [hc]; rfl) nofun nofun trivial, ?_⟩
    rw [abs_keep (by rw [hc, h]; rfl)]
    exact .empty c (by rw [abs, hlist, List.map_nil])
  | read c a h =>
    have hc : owned (some c) = [] := by simpa [h, Place.Owns] using hinv.owns c
    exact hinv.idle hc rfl (by rintro q (rfl | rfl) <;> simp [h, Place.values])
      (fun b hb ↦ .inl (by rw [h]; exact hb)) rfl fun _ ↦ rfl
  | allocate c value old_head a h ha => exact hinv.allocate h ha
  | push c value a old_head h hhead => exact hinv.push h hhead
  | pushFail c value a old_head h =>
    have howns := hinv.owns c
    have hknows : s.nodes a = ⟨value, old_head⟩ := by simpa [h, Place.Knows] using hinv.knows c
    rw [h] at howns
    exact (hinv.keep (p := .linking value a s.head_) howns nofun (fun b hb ↦ by rw [h]; exact hb)
      (congrArg Node.value hknows)).answers_tau (abs_keep (by rw [h]; rfl))
  | link c value a old_head h =>
    have howns := hinv.owns c
    have hknows : s.value a = value := by
      have hknows := hinv.knows c
      rwa [h] at hknows
    rw [h] at howns
    have hmem : a ∈ owned (some c) := howns.mem_of_building rfl
    have hnode : (s.write a ⟨s.value a, old_head⟩).nodes a = ⟨s.value a, old_head⟩ :=
      update_self _ _ _
    have hvalue : (s.write a ⟨s.value a, old_head⟩).value a = value :=
      (congrArg Node.value hnode).trans hknows
    have hwritten : Inv owned (s.write a ⟨s.value a, old_head⟩) :=
      hinv.write (hinv.notMem_list hmem) fun d hd ↦ by
        obtain rfl := hinv.eq_of_mem hmem hd
        rw [h]
        exact ⟨howns, hvalue⟩
    refine (hwritten.keep (p := .pushExchange value a old_head) howns nofun
      (fun b hb ↦ ?_) ?_).answers_tau
      ((abs_keep ?_).trans (abs_write (hinv.notMem_list hmem) fun d hd ↦ ?_))
    · change (s.places c).building = some b
      rw [h]
      exact hb
    · exact hnode.trans (by rw [hknows])
    · change _ = (s.places c).values _ _
      rw [h]
      rfl
    · obtain rfl := hinv.eq_of_mem hmem hd
      rw [h]
      rfl
  | pop c a next h hhead => exact hinv.pop h hhead
  | move c a left h =>
    have howns := hinv.owns c
    rw [h] at howns
    have hc : owned (some c) = [a] := howns
    have hmem : a ∈ owned (some c) := hc ▸ List.mem_singleton_self a
    have hgone : Inv owned (s.go c (.releasing a (s.value a))) :=
      hinv.keep howns (fun b hb ↦ .inl (by rw [h]; exact hb)) nofun trivial
    have hplace : (s.go c (.releasing a (s.value a))).places c = .releasing a (s.value a) :=
      update_self _ _ _
    have hself : ∀ d, a ∈ owned (some d) → d = c := fun d hd ↦ hinv.eq_of_mem hmem hd
    refine (hgone.write (n := ⟨left, s.next a⟩) (hinv.notMem_list hmem)
      fun d hd ↦ ?_).answers_tau ?_
    · obtain rfl := hself d hd
      rw [hplace]
      exact ⟨hc, trivial⟩
    · refine (abs_write (hinv.notMem_list hmem) fun d hd ↦ ?_).trans (abs_keep ?_)
      · obtain rfl := hself d hd
        rw [hplace]
        rfl
      · rw [hc, h]
        rfl
  | release c a value h =>
    have howns := hinv.owns c
    rw [h] at howns
    exact (hinv.keep (p := .retiring a value) howns nofun nofun trivial).answers_tau
      (abs_keep (by rw [h]; rfl))
  | retire c a value h =>
    have hc : owned (some c) = [a] := by simpa [h, Place.Owns] using hinv.owns c
    refine ⟨_, hinv.retire hc rfl rfl rfl trivial, ?_⟩
    rw [abs_go, abs_mark]
    refine .popped c value ?_
    simp [abs, h, Place.values]
  | clear c old_head h hhead => exact hinv.clear h hhead
  | walk c a h =>
    have howns := hinv.owns c
    rw [h] at howns
    exact (hinv.keep (p := .dropping a (s.next a)) (Chain.exists_cons howns) nofun nofun
      trivial).answers_tau (abs_keep (by rw [h]; rfl))
  | drop c a old_head h =>
    have howns := hinv.owns c
    rw [h] at howns
    obtain ⟨rest, hc, hrest⟩ := howns
    refine ⟨_, hinv.retire hc hrest rfl rfl trivial, ?_⟩
    rw [abs_go, abs_mark]
    have hhands : (abs owned s).hands c = s.value a :: rest.map s.value := by
      simp [abs, h, Place.values, hc]
    exact .cleared c (s.value a) (rest.map s.value) hhands
  | free a n ha hprotected =>
    have hunowned : ∀ k, a ∉ owned k := hinv.unowned (by simp [ha])
    refine ⟨owned, (hinv.mark hunowned fun _ ↦ hprotected).write_unowned hunowned, ?_⟩
    rw [abs_write (hunowned none) fun d hd ↦ absurd hd (hunowned _), abs_mark]
    exact .free a

end Steps

end LockFreeStack
end ManyTasks
