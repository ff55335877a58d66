import ManyTasks.MpscQueue.Queue
import Mathlib.Data.Multiset.Count

/-!
# The queue is a stack

What the queue is for is said by `Abstract`: there is a stack of values, and the consumer has some
values in its hand that it has taken and not yet delivered.  A successful exchange of `head_` is a
push, a pop or a take-all (`Abstract.Step`), and no other step does anything to the stack.

That the code does this rests on who owns the nodes, and on the consumer being the only one that
takes any away.  A node that the consumer has seen on the list stays there until the consumer takes
it, so it is not deleted in the meantime, its address is not given to anybody else, and what has
been read from it is still there when the exchange succeeds (`Place.Knows`).  A producer never
follows the pointer that it compares with `head_`, and may find there whatever node the address has
been given to: it links its own node to that one.
-/

set_option autoImplicit false

namespace ManyTasks
namespace MpscQueue

open Function (update update_self update_of_ne)
open Lib (Chain Exclusive Ownership Trace shareOut shareOut_none shareOut_self shareOut_of_ne)

variable {Θ A V : Type}

/-! ## The abstract stack -/

/-- The values on the stack, and those that the consumer has taken and not delivered. -/
structure Abstract (V : Type) where
  stack : List V
  hand : List V

/-- What the steps of the code come to. -/
inductive Abstract.Step : Abstract V → Label Θ V → Abstract V → Prop where
  | push {o} (θ value) : Step o (.push θ value) { o with stack := value :: o.stack }
  | pop {o} (value rest) (hstack : o.stack = value :: rest) (hhand : o.hand = []) :
      Step o .pop ⟨rest, [value]⟩
  | takeAll {o} (hhand : o.hand = []) : Step o .takeAll ⟨[], o.stack⟩
  | empty {o} (hstack : o.stack = []) : Step o .empty o
  | deliver {o} (value rest) (hhand : o.hand = value :: rest) :
      Step o (.deliver value) { o with hand := rest }
  | tau {o} : Step o .tau o

theorem Abstract.Step.tau_of_eq {o o' : Abstract V} (h : o' = o) :
    Abstract.Step o (.tau : Label Θ V) o' := h ▸ .tau

/-! ## Who owns what -/

/-- The places that only the consumer comes to. -/
def Place.isConsumer : Place A V → Bool
  | .idle | .pushing _ | .allocating _ _ | .pushExchange _ _ _ | .reloading _ _ | .linking _ _ _ =>
    false
  | _ => true

/-- The nodes that belong to a thread. -/
def Place.Owns (next : A → Option A) : Place A V → List A → Prop
  | .pushExchange _ a _, as | .reloading _ a, as | .linking _ a _, as | .moving a, as
  | .deleting a _, as => as = [a]
  | .walking old_head, as => Chain next old_head as
  | .calling a old_head, as | .dropping a old_head, as =>
    ∃ bs, as = a :: bs ∧ Chain next old_head bs
  | _, as => as = []

/-- What a thread relies on; `as` are the nodes on the list. -/
def Place.Knows (nodes : A → Node A V) (as : List A) : Place A V → Prop
  | .pushExchange value a old_head => nodes a = ⟨value, old_head⟩
  | .reloading value a | .linking value a _ => (nodes a).value = value
  | .poppingAgain => as ≠ []
  | .reading old_head => ∃ a ∈ as, old_head = some a
  | .popExchange a next => a ∈ as ∧ (nodes a).next = next
  | _ => True

/-- The values that a thread has taken and not delivered, given the nodes that belong to it. -/
def Place.values (value : A → V) : Place A V → List A → List V
  | .moving _, as | .walking _, as | .calling _ _, as => as.map value
  | .deleting _ value, _ => [value]
  | .dropping _ _, as => as.tail.map value
  | _, _ => []

/-- The list belongs to nobody, and the nodes of a thread to the thread. -/
structure Inv (consumer : Θ) (owned : Option Θ → List A) (s : State Θ A V) : Prop
    extends Ownership Place.Owns s.next s.head_ s.places owned where
  allocated : ∀ {k a}, a ∈ owned k → s.allocated a = true
  knows : ∀ θ, (s.places θ).Knows s.nodes (owned none)
  consumer : ∀ θ, (s.places θ).isConsumer = true → θ = consumer

/-- What the state stands for. -/
def abs (consumer : Θ) (owned : Option Θ → List A) (s : State Θ A V) : Abstract V where
  stack := (owned none).map s.value
  hand := (s.places consumer).values s.value (owned (some consumer))

/-! ## Places -/

section Places

variable {next next' : A → Option A} {nodes nodes' : A → Node A V} {as bs : List A} {p : Place A V}

theorem Place.Owns.congr (h : p.Owns next as) (hnext : ∀ a ∈ as, next' a = next a) :
    p.Owns next' as := by
  cases p with
  | walking old_head => exact h.congr hnext
  | calling a old_head | dropping a old_head =>
    obtain ⟨bs, rfl, hchain⟩ := h
    exact ⟨bs, rfl, hchain.congr fun b hb ↦ hnext b (List.mem_cons_of_mem a hb)⟩
  | _ => exact h

/-- Nodes that do not belong to the thread, and are not on the list, may change. -/
theorem Place.Knows.congr (h : p.Knows nodes bs) (howns : p.Owns next as)
    (hnodes : ∀ a, a ∈ as ∨ a ∈ bs → nodes' a = nodes a) : p.Knows nodes' bs := by
  cases p with
  | pushExchange value a old_head | reloading value a | linking value a old_head =>
    have hmem : a ∈ as := by
      rw [show as = [a] from howns]
      exact List.mem_singleton_self a
    simpa only [Place.Knows, hnodes a (.inl hmem)] using h
  | popExchange a next => exact ⟨h.1, (congrArg Node.next (hnodes a (.inr h.1))).trans h.2⟩
  | _ => exact h

/-- More nodes may come to the list. -/
theorem Place.Knows.mono (h : p.Knows nodes as) (hsub : as ⊆ bs) : p.Knows nodes bs := by
  cases p with
  | poppingAgain =>
    intro hbs
    exact h (List.subset_nil.mp (hbs ▸ hsub))
  | reading old_head =>
    obtain ⟨a, ha, heq⟩ := h
    exact ⟨a, hsub ha, heq⟩
  | popExchange a next => exact ⟨hsub h.1, h.2⟩
  | _ => exact h

/-- A producer relies on nothing about the list. -/
theorem Place.Knows.of_producer (h : p.Knows nodes as) (hp : p.isConsumer = false) :
    p.Knows nodes bs := by
  cases p with
  | poppingAgain | reading | popExchange => cases hp
  | _ => exact h

theorem values_congr {value value' : A → V} (h : ∀ a ∈ as, value' a = value a) :
    p.values value' as = p.values value as := by
  cases p with
  | moving | walking | calling => exact List.map_congr_left h
  | dropping => exact List.map_congr_left fun a ha ↦ h a (List.mem_of_mem_tail ha)
  | _ => rfl

theorem values_of_producer {value : A → V} (hp : p.isConsumer = false) :
    p.values value as = [] := by
  cases p with
  | idle | pushing | allocating | pushExchange | reloading | linking => rfl
  | _ => cases hp

end Places

/-! ## What a step does to the invariant -/

section Steps

variable [DecidableEq Θ] {consumer : Θ} {owned : Option Θ → List A} {s s' : State Θ A V}
  {θ : Θ} {a : A} {p : Place A V} {l r : List A} {lab : Label Θ V}

/-- A thread goes on, and shares out with the list what they have.  It may write to its own nodes
only, and nodes are taken off the list by the consumer only. -/
theorem Inv.act (hinv : Inv consumer owned s) (hplaces : s'.places = update s.places θ p)
    (hchain : Chain s'.next s'.head_ l) (hex : Exclusive (shareOut owned l θ r))
    (halloc : ∀ k, ∀ b ∈ shareOut owned l θ r k, s'.allocated b = true) (howns : p.Owns s'.next r)
    (hknows : p.Knows s'.nodes l) (hcons : p.isConsumer = true → θ = consumer)
    (hnodes : ∀ k ≠ some θ, ∀ b ∈ owned k, s'.nodes b = s.nodes b)
    (hlist : θ = consumer ∨ owned none ⊆ l) : Inv consumer (shareOut owned l θ r) s' where
  chain := by
    rw [shareOut_none]
    exact hchain
  owns θ' := by
    rw [hplaces]
    by_cases hθ : θ' = θ
    · subst hθ
      rw [shareOut_self, update_self]
      exact howns
    · rw [shareOut_of_ne hθ, update_of_ne hθ]
      exact (hinv.owns θ').congr fun b hb ↦
        congrArg Node.next (hnodes _ ((Option.some_injective Θ).ne hθ) b hb)
  exclusive := hex
  allocated {k b} hb := halloc k b hb
  knows θ' := by
    rw [hplaces, shareOut_none]
    by_cases hθ : θ' = θ
    · subst hθ
      rw [update_self]
      exact hknows
    · rw [update_of_ne hθ]
      have hold : (s.places θ').Knows s'.nodes (owned none) := by
        refine (hinv.knows θ').congr (hinv.owns θ') fun b hb ↦ ?_
        rcases hb with hb | hb
        · exact hnodes _ ((Option.some_injective Θ).ne hθ) b hb
        · exact hnodes _ (Option.some_ne_none θ).symm b hb
      rcases hlist with rfl | hsub
      · refine hold.of_producer ?_
        rw [← Bool.not_eq_true]
        exact fun hp ↦ hθ (hinv.consumer θ' hp)
      · exact hold.mono hsub
  consumer θ' hp := by
    rw [hplaces] at hp
    by_cases hθ : θ' = θ
    · subst hθ
      rw [update_self] at hp
      exact hcons hp
    · rw [update_of_ne hθ] at hp
      exact hinv.consumer θ' hp

/-- The invariant and the abstract stack after a step. -/
def Answers (consumer : Θ) (owned : Option Θ → List A) (s : State Θ A V) (lab : Label Θ V)
    (s' : State Θ A V) : Prop :=
  ∃ owned', Inv consumer owned' s' ∧
    Abstract.Step (abs consumer owned s) lab (abs consumer owned' s')

/-- A step of the consumer. -/
theorem Inv.consume (hinv : Inv consumer owned s) (hplaces : s'.places = update s.places consumer p)
    (hchain : Chain s'.next s'.head_ l) (hex : Exclusive (shareOut owned l consumer r))
    (halloc : ∀ k, ∀ b ∈ shareOut owned l consumer r k, s'.allocated b = true)
    (howns : p.Owns s'.next r) (hknows : p.Knows s'.nodes l)
    (hnodes : ∀ k ≠ some consumer, ∀ b ∈ owned k, s'.nodes b = s.nodes b) (hsub : l ⊆ owned none)
    (habs : Abstract.Step (abs consumer owned s) lab ⟨l.map s.value, p.values s'.value r⟩) :
    Answers consumer owned s lab s' := by
  refine ⟨_, hinv.act hplaces hchain hex halloc howns hknows (fun _ ↦ rfl) hnodes (.inl rfl), ?_⟩
  have hstack : l.map s'.value = l.map s.value := List.map_congr_left fun b hb ↦
    congrArg Node.value (hnodes none (Option.some_ne_none consumer).symm b (hsub hb))
  have heq : abs consumer (shareOut owned l consumer r) s' =
      ⟨l.map s.value, p.values s'.value r⟩ := by
    rw [abs, shareOut_none, shareOut_self, hplaces, update_self, hstack]
  rw [heq]
  exact habs

/-- A step of a thread within `Push`. -/
theorem Inv.produce (hinv : Inv consumer owned s) (hplaces : s'.places = update s.places θ p)
    (hold : (s.places θ).isConsumer = false) (hp : p.isConsumer = false)
    (hchain : Chain s'.next s'.head_ l) (hex : Exclusive (shareOut owned l θ r))
    (halloc : ∀ k, ∀ b ∈ shareOut owned l θ r k, s'.allocated b = true) (howns : p.Owns s'.next r)
    (hknows : p.Knows s'.nodes l) (hnodes : ∀ k ≠ some θ, ∀ b ∈ owned k, s'.nodes b = s.nodes b)
    (hsub : owned none ⊆ l)
    (habs : Abstract.Step (abs consumer owned s) lab
      { abs consumer owned s with stack := l.map s'.value }) : Answers consumer owned s lab s' := by
  refine ⟨_, hinv.act hplaces hchain hex halloc howns hknows (by simp [hp]) hnodes (.inr hsub), ?_⟩
  have hhand : (s'.places consumer).values s'.value (shareOut owned l θ r (some consumer)) =
      (s.places consumer).values s.value (owned (some consumer)) := by
    rw [hplaces]
    by_cases hθ : consumer = θ
    · subst hθ
      rw [update_self, values_of_producer hp, values_of_producer hold]
    · rw [update_of_ne hθ, shareOut_of_ne hθ]
      exact values_congr fun b hb ↦
        congrArg Node.value (hnodes _ ((Option.some_injective Θ).ne hθ) b hb)
  have heq : abs consumer (shareOut owned l θ r) s' =
      { abs consumer owned s with stack := l.map s'.value } := by
    rw [abs, shareOut_none, hhand]
    rfl
  rw [heq]
  exact habs

/-- What a thread and the list have after it is allocated if it was before. -/
theorem Inv.allocated_shareOut (hinv : Inv consumer owned s)
    (hmem : ∀ b ∈ l ++ r, s.allocated b = true) :
    ∀ k, ∀ b ∈ shareOut owned l θ r k, s.allocated b = true := by
  intro k b hb
  rcases Lib.mem_shareOut hb with ⟨-, hb⟩ | ⟨-, hb⟩ | ⟨-, hb⟩
  · exact hmem b (List.mem_append_left _ hb)
  · exact hmem b (List.mem_append_right _ hb)
  · exact hinv.allocated hb

theorem Inv.exclusive_keep (hinv : Inv consumer owned s) :
    Exclusive (shareOut owned (owned none) θ (owned (some θ))) := by
  rw [Lib.shareOut_eq_self]
  exact hinv.exclusive

theorem Inv.allocated_keep (hinv : Inv consumer owned s) :
    ∀ k, ∀ b ∈ shareOut owned (owned none) θ (owned (some θ)) k, s.allocated b = true := by
  rw [Lib.shareOut_eq_self]
  exact fun k b hb ↦ hinv.allocated hb

/-- The consumer goes on with the nodes that it has. -/
theorem Inv.consume_keep (hinv : Inv consumer owned s)
    (howns : p.Owns s.next (owned (some consumer))) (hknows : p.Knows s.nodes (owned none))
    (habs : Abstract.Step (abs consumer owned s) lab
      ⟨(owned none).map s.value, p.values s.value (owned (some consumer))⟩) :
    Answers consumer owned s lab (s.go consumer p) := by
  exact hinv.consume rfl hinv.chain hinv.exclusive_keep hinv.allocated_keep howns hknows
    (fun _ _ _ _ ↦ rfl) (List.Subset.refl _) habs

/-- The consumer goes on, and has no nodes. -/
theorem Inv.consume_idle (hinv : Inv consumer owned s) (hc : owned (some consumer) = [])
    (howns : p.Owns s.next []) (hknows : p.Knows s.nodes (owned none))
    (hold : (s.places consumer).values s.value [] = []) (hnew : p.values s.value [] = []) :
    Answers consumer owned s .tau (s.go consumer p) := by
  exact hinv.consume_keep (hc ▸ howns) hknows (.tau_of_eq (by rw [abs, hc, hold, hnew]))

/-- A thread goes on within `Push`, with the nodes that it has. -/
theorem Inv.produce_keep (hinv : Inv consumer owned s) (hold : (s.places θ).isConsumer = false)
    (hp : p.isConsumer = false) (howns : p.Owns s.next (owned (some θ)))
    (hknows : p.Knows s.nodes (owned none)) : Answers consumer owned s .tau (s.go θ p) := by
  exact hinv.produce rfl hold hp hinv.chain hinv.exclusive_keep hinv.allocated_keep howns hknows
    (fun _ _ _ _ ↦ rfl) (List.Subset.refl _) .tau

end Steps

/-! ## The steps -/

section Steps

variable [DecidableEq Θ] [DecidableEq A] {consumer : Θ} {owned : Option Θ → List A}
  {s s' : State Θ A V} {θ : Θ} {a : A} {n : Node A V} {l' : List A}

omit [DecidableEq Θ] [DecidableEq A] in
/-- What is not allocated belongs to nobody. -/
theorem Inv.unowned (hinv : Inv consumer owned s) (ha : s.allocated a = false) (k : Option Θ) :
    a ∉ owned k := by
  intro hk
  simp [hinv.allocated hk] at ha

omit [DecidableEq Θ] in
theorem nodes_write_of_ne {b : A} (h : b ≠ a) : (s.write a n).nodes b = s.nodes b :=
  update_of_ne h _ _

omit [DecidableEq Θ] in
theorem nodes_write_self : (s.write a n).nodes a = n := update_self _ _ _

omit [DecidableEq Θ] in
theorem map_value_write {as : List A} (h : a ∉ as) : as.map (s.write a n).value = as.map s.value :=
  List.map_congr_left fun _ hb ↦ congrArg Node.value (nodes_write_of_ne (ne_of_mem_of_not_mem hb h))

omit [DecidableEq Θ] in
/-- Of what belongs to others nothing changes if a thread writes to its own. -/
theorem Inv.nodes_write (hinv : Inv consumer owned s) (ha : a ∈ owned (some θ)) :
    ∀ k ≠ some θ, ∀ b ∈ owned k, (s.write a n).nodes b = s.nodes b :=
  fun _ hk _ hb ↦ nodes_write_of_ne (ne_of_mem_of_not_mem hb (hinv.exclusive.notMem ha hk))

omit [DecidableEq Θ] in
theorem Inv.chain_write (hinv : Inv consumer owned s) (ha : a ∉ owned none) :
    Chain (s.write a n).next s.head_ (owned none) :=
  hinv.chain.congr fun _ hb ↦ congrArg Node.next (nodes_write_of_ne (ne_of_mem_of_not_mem hb ha))

/-- A thread gives its first node back. -/
theorem Inv.allocated_mark (hinv : Inv consumer owned s) (hc : owned (some θ) = a :: l') :
    ∀ k, ∀ b ∈ shareOut owned (owned none) θ l' k, (s.mark a false).allocated b = true := by
  have hmem : a ∈ owned (some θ) := hc ▸ List.mem_cons_self
  have hnodup : (a :: l').Nodup := hc ▸ hinv.exclusive.nodup (some θ)
  intro k b hb
  have hne : b ≠ a ∧ s.allocated b = true := by
    rcases Lib.mem_shareOut hb with ⟨-, hb⟩ | ⟨-, hb⟩ | ⟨hk, hb⟩
    · exact ⟨ne_of_mem_of_not_mem hb (hinv.notMem_list hmem), hinv.allocated hb⟩
    · refine ⟨ne_of_mem_of_not_mem hb (List.nodup_cons.mp hnodup).1,
        hinv.allocated (k := some θ) ?_⟩
      rw [hc]
      exact List.mem_cons_of_mem a hb
    · exact ⟨ne_of_mem_of_not_mem hb (hinv.exclusive.notMem hmem hk), hinv.allocated hb⟩
  exact (update_of_ne hne.1 _ _).trans hne.2

theorem Inv.allocate (hinv : Inv consumer owned s) {value : V} {old_head : Option A}
    (h : s.places θ = .allocating value old_head) (ha : s.allocated a = false) :
    Answers consumer owned s .tau
      (((s.mark a true).write a ⟨value, old_head⟩).go θ (.pushExchange value a old_head)) := by
  have hunowned := hinv.unowned ha
  have hnodes : ∀ k ≠ some θ, ∀ b ∈ owned k,
      (s.write a ⟨value, old_head⟩).nodes b = s.nodes b :=
    fun k _ b hb ↦ nodes_write_of_ne (ne_of_mem_of_not_mem hb (hunowned k))
  refine hinv.produce (p := .pushExchange value a old_head) (l := owned none) (r := [a]) rfl
    (by rw [h]; rfl) rfl (hinv.chain_write (hunowned none)) (hinv.exclusive.add hunowned) ?_ rfl
    nodes_write_self hnodes (List.Subset.refl _) ?_
  · intro k b hb
    change update s.allocated a true b = true
    by_cases hba : b = a
    · rw [hba, update_self]
    · rw [update_of_ne hba]
      rcases Lib.mem_shareOut hb with ⟨-, hb⟩ | ⟨-, hb⟩ | ⟨-, hb⟩
      · exact hinv.allocated hb
      · exact absurd (List.mem_singleton.mp hb) hba
      · exact hinv.allocated hb
  · have hstack := map_value_write (n := ⟨value, old_head⟩) (s := s) (hunowned none)
    change Abstract.Step _ _
      { abs consumer owned s with stack := (owned none).map (s.write a _).value }
    rw [hstack]
    exact .tau

omit [DecidableEq A] in
/-- A producer links its node to whatever is at the head. -/
theorem Inv.push (hinv : Inv consumer owned s) {value : V} {old_head : Option A}
    (h : s.places θ = .pushExchange value a old_head) (hhead : s.head_ = old_head) :
    Answers consumer owned s (.push θ value) ({ s with head_ := some a }.go θ .idle) := by
  have hc : owned (some θ) = [a] := by simpa [h, Place.Owns] using hinv.owns θ
  have hmem : a ∈ owned (some θ) := by simp [hc]
  have hnode : s.nodes a = ⟨value, old_head⟩ := by simpa [h, Place.Knows] using hinv.knows θ
  have hchain : Chain s.next (s.next a) (owned none) := by
    rw [State.next, hnode, ← hhead]
    exact hinv.chain
  have hnodup : (a :: owned none ++ []).Nodup := by
    rw [List.append_nil, List.nodup_cons]
    exact ⟨hinv.notMem_list hmem, hinv.exclusive.nodup none⟩
  have hfrom : ∀ b ∈ a :: owned none ++ [], b ∈ owned none ∨ b ∈ owned (some θ) := by
    intro b hb
    rw [List.append_nil, List.mem_cons] at hb
    rcases hb with rfl | hb
    · exact .inr hmem
    · exact .inl hb
  refine hinv.produce (p := .idle) rfl (by rw [h]; rfl) rfl (Lib.chain_cons hchain)
    (hinv.exclusive.shareOut hnodup hfrom) (hinv.allocated_shareOut fun b hb ↦ ?_) rfl trivial
    (fun _ _ _ _ ↦ rfl) (List.subset_cons_self _ _) ?_
  · exact (hfrom b hb).elim hinv.allocated hinv.allocated
  · have hvalue : s.value a = value := congrArg Node.value hnode
    change Abstract.Step _ _
      { abs consumer owned s with stack := s.value a :: (owned none).map s.value }
    rw [hvalue]
    exact .push θ value

theorem Inv.link (hinv : Inv consumer owned s) {value : V} {old_head : Option A}
    (h : s.places θ = .linking value a old_head) :
    Answers consumer owned s .tau
      ((s.write a ⟨s.value a, old_head⟩).go θ (.pushExchange value a old_head)) := by
  have hc : owned (some θ) = [a] := by simpa [h, Place.Owns] using hinv.owns θ
  have hmem : a ∈ owned (some θ) := by simp [hc]
  have hvalue : s.value a = value := by
    have hknows := hinv.knows θ
    rwa [h] at hknows
  refine hinv.produce (p := .pushExchange value a old_head) rfl (by rw [h]; rfl) rfl
    (hinv.chain_write (hinv.notMem_list hmem)) hinv.exclusive_keep hinv.allocated_keep hc ?_
    (hinv.nodes_write hmem) (List.Subset.refl _) ?_
  · rw [hvalue]
    exact nodes_write_self
  · have hstack := map_value_write (n := ⟨s.value a, old_head⟩) (s := s) (hinv.notMem_list hmem)
    change Abstract.Step _ _
      { abs consumer owned s with stack := (owned none).map (s.write a _).value }
    rw [hstack]
    exact .tau

omit [DecidableEq A] in
/-- What has been read from the node is still there. -/
theorem Inv.pop (hinv : Inv consumer owned s) {next : Option A}
    (h : s.places consumer = .popExchange a next) (hhead : s.head_ = some a) :
    Answers consumer owned s .pop ({ s with head_ := next }.go consumer (.moving a)) := by
  have hc : owned (some consumer) = [] := by simpa [h, Place.Owns] using hinv.owns consumer
  obtain ⟨hmem, hnext⟩ : a ∈ owned none ∧ s.next a = next := by
    have hknows := hinv.knows consumer
    rwa [h] at hknows
  obtain ⟨rest, hlist, hrest⟩ := (hhead ▸ hinv.chain).exists_cons
  rw [hnext] at hrest
  have hnodup : (rest ++ [a]).Nodup := by
    rw [List.nodup_append_comm, List.singleton_append, ← hlist]
    exact hinv.exclusive.nodup none
  have hfrom : ∀ b ∈ rest ++ [a], b ∈ owned none := by
    intro b hb
    rw [hlist, List.mem_cons]
    simpa [or_comm] using hb
  refine hinv.consume (p := .moving a) rfl hrest
    (hinv.exclusive.shareOut hnodup fun b hb ↦ .inl (hfrom b hb))
    (hinv.allocated_shareOut fun b hb ↦ hinv.allocated (hfrom b hb)) rfl trivial (fun _ _ _ _ ↦ rfl)
    (fun b hb ↦ hfrom b (List.mem_append_left _ hb)) ?_
  refine .pop (s.value a) _ ?_ ?_
  · rw [abs, hlist, List.map_cons]
  · simp [abs, h, Place.values]

omit [DecidableEq A] in
theorem Inv.takeAll (hinv : Inv consumer owned s) {old_head : Option A}
    (h : s.places consumer = .takeExchange old_head) (hhead : s.head_ = old_head) :
    Answers consumer owned s .takeAll
      ({ s with head_ := none }.go consumer (.walking old_head)) := by
  refine hinv.consume (p := .walking old_head) (l := []) (r := owned none) rfl Lib.chain_nil
    (hinv.exclusive.shareOut (hinv.exclusive.nodup none) fun b hb ↦ .inl hb)
    (hinv.allocated_shareOut fun b hb ↦ hinv.allocated hb) (hhead ▸ hinv.chain) trivial
    (fun _ _ _ _ ↦ rfl) (List.nil_subset _) (.takeAll ?_)
  simp [abs, h, Place.values]

/-- The consumer moves the value out of a node of its own. -/
theorem Inv.moveOut (hinv : Inv consumer owned s) {p : Place A V} {lab : Label Θ V}
    (hmem : a ∈ owned (some consumer)) (howns : p.Owns (s.write a n).next (owned (some consumer)))
    (hknows : ∀ nodes : A → Node A V, p.Knows nodes (owned none))
    (habs : Abstract.Step (abs consumer owned s) lab
      ⟨(owned none).map s.value, p.values (s.write a n).value (owned (some consumer))⟩) :
    Answers consumer owned s lab ((s.write a n).go consumer p) := by
  exact hinv.consume rfl (hinv.chain_write (hinv.notMem_list hmem)) hinv.exclusive_keep
    hinv.allocated_keep howns (hknows _) (hinv.nodes_write hmem) (List.Subset.refl _) habs

/-- A node of the consumer is deleted. -/
theorem Inv.giveBack (hinv : Inv consumer owned s) {p : Place A V} {lab : Label Θ V}
    (hc : owned (some consumer) = a :: l') (howns : p.Owns s.next l')
    (hknows : p.Knows s.nodes (owned none))
    (habs : Abstract.Step (abs consumer owned s) lab
      ⟨(owned none).map s.value, p.values s.value l'⟩) :
    Answers consumer owned s lab ((s.mark a false).go consumer p) := by
  have hsub : l'.Sublist (owned (some consumer)) := hc ▸ List.sublist_cons_self a l'
  exact hinv.consume rfl hinv.chain (hinv.exclusive.drop hsub) (hinv.allocated_mark hc) howns hknows
    (fun _ _ _ _ ↦ rfl) (List.Subset.refl _) habs

/-- Memory that nobody has may change. -/
theorem Inv.reuse (hinv : Inv consumer owned s) (ha : s.allocated a = false) :
    Answers consumer owned s .tau (s.write a n) := by
  have hunowned := hinv.unowned ha
  have hnodes : ∀ k, ∀ b ∈ owned k, (s.write a n).nodes b = s.nodes b :=
    fun k b hb ↦ nodes_write_of_ne (ne_of_mem_of_not_mem hb (hunowned k))
  have hown := (hinv.owns consumer).congr fun b hb ↦ congrArg Node.next (hnodes _ b hb)
  refine hinv.consume (p := s.places consumer) (Function.update_eq_self _ _).symm
    (hinv.chain_write (hunowned none)) hinv.exclusive_keep hinv.allocated_keep hown ?_
    (fun k _ ↦ hnodes k) (List.Subset.refl _) ?_
  · refine (hinv.knows consumer).congr (hinv.owns consumer) fun b hb ↦ ?_
    exact hb.elim (hnodes _ b) (hnodes _ b)
  · have hhand : (s.places consumer).values (s.write a n).value (owned (some consumer)) =
        (s.places consumer).values s.value (owned (some consumer)) :=
      values_congr fun b hb ↦ congrArg Node.value (hnodes _ b hb)
    rw [hhand]
    exact .tau

/-- **Every step does to the stack what it should, or nothing.** -/
theorem Inv.step {lab : Label Θ V} (hinv : Inv consumer owned s) (hstep : Step consumer s lab s') :
    Answers consumer owned s lab s' := by
  have hc := hinv.owns consumer
  have hknows := hinv.knows consumer
  cases hstep with
  | callPush θ value h | pushLoad θ value h =>
    have hθ : owned (some θ) = [] := by simpa [h, Place.Owns] using hinv.owns θ
    exact hinv.produce_keep (by rw [h]; rfl) rfl hθ trivial
  | allocate θ value old_head a h ha => exact hinv.allocate h ha
  | push θ value a old_head h hhead => exact hinv.push h hhead
  | pushFail θ value a old_head h =>
    have hθ : owned (some θ) = [a] := by simpa [h, Place.Owns] using hinv.owns θ
    have hnode : s.nodes a = ⟨value, old_head⟩ := by simpa [h, Place.Knows] using hinv.knows θ
    exact hinv.produce_keep (by rw [h]; rfl) rfl hθ (congrArg Node.value hnode)
  | reload θ value a h =>
    have hθ : owned (some θ) = [a] := by simpa [h, Place.Owns] using hinv.owns θ
    have hvalue : (s.nodes a).value = value := by simpa [h, Place.Knows] using hinv.knows θ
    exact hinv.produce_keep (by rw [h]; rfl) rfl hθ hvalue
  | link θ value a old_head h => exact hinv.link h
  | callPop h | callDequeueAll h | takeLoad h | takeFail old_head h =>
    rw [h] at hc
    exact hinv.consume_idle hc rfl trivial (by rw [h]; rfl) rfl
  | popLoad a h hhead =>
    rw [h] at hc
    obtain ⟨rest, hlist, -⟩ := (hhead ▸ hinv.chain).exists_cons
    exact hinv.consume_idle hc rfl ⟨a, by simp [hlist], rfl⟩ (by rw [h]; rfl) rfl
  | empty h hhead =>
    rw [h] at hc
    have hlist : owned none = [] := (hhead ▸ hinv.chain).eq_nil
    have heq : (⟨(owned none).map s.value, []⟩ : Abstract V) = abs consumer owned s := by
      rw [abs, h]
      rfl
    exact hinv.consume_keep (p := .idle) hc trivial (heq ▸ .empty (by rw [hlist, List.map_nil]))
  | popReload h =>
    -- the list is not empty, as only the consumer takes nodes off it
    rw [h] at hc hknows
    obtain ⟨a, rest, hlist⟩ := List.exists_cons_of_ne_nil hknows
    have hhead : s.head_ = some a := by
      have hchain := hinv.chain
      rw [hlist] at hchain
      exact hchain.1
    exact hinv.consume_idle hc rfl ⟨a, by simp [hlist], hhead⟩ (by rw [h]; rfl) rfl
  | read a h =>
    rw [h] at hc hknows
    obtain ⟨b, hb, heq⟩ := hknows
    obtain rfl : a = b := by simpa using heq
    exact hinv.consume_idle hc rfl ⟨hb, rfl⟩ (by rw [h]; rfl) rfl
  | pop a next h hhead => exact hinv.pop h hhead
  | popFail a next h =>
    rw [h] at hc hknows
    exact hinv.consume_idle hc rfl (List.ne_nil_of_mem hknows.1) (by rw [h]; rfl) rfl
  | move a left h =>
    rw [h] at hc
    have hnodes : owned (some consumer) = [a] := hc
    exact hinv.moveOut (p := .deleting a (s.value a)) (by simp [hnodes]) hc (fun _ ↦ trivial)
      (.tau_of_eq (by rw [abs, h, hnodes]; rfl))
  | delete a value h =>
    rw [h] at hc
    exact hinv.giveBack (p := .idle) hc rfl trivial (.deliver value [] (by rw [abs, h]; rfl))
  | takeAll old_head h hhead => exact hinv.takeAll h hhead
  | walk a h =>
    rw [h] at hc
    exact hinv.consume_keep (p := .calling a (s.next a)) (Chain.exists_cons hc) trivial
      (.tau_of_eq (by rw [abs, h]; rfl))
  | callback a left old_head h =>
    rw [h] at hc
    obtain ⟨rest, hnodes, hrest⟩ := hc
    have hmem : a ∈ owned (some consumer) := by simp [hnodes]
    have hnotMem : a ∉ rest := by
      have hnodup := hinv.exclusive.nodup (some consumer)
      rw [hnodes, List.nodup_cons] at hnodup
      exact hnodup.1
    have hkept : Chain (s.write a ⟨left, s.next a⟩).next old_head rest :=
      hrest.congr fun _ hb ↦ congrArg Node.next
        (nodes_write_of_ne (ne_of_mem_of_not_mem hb hnotMem))
    have htail : (owned (some consumer)).tail.map (s.write a ⟨left, s.next a⟩).value =
        rest.map s.value := by
      rw [hnodes, List.tail_cons, map_value_write hnotMem]
    refine hinv.moveOut (p := .dropping a old_head) hmem ⟨rest, hnodes, hkept⟩ (fun _ ↦ trivial) ?_
    change Abstract.Step _ _ ⟨_, (owned (some consumer)).tail.map _⟩
    rw [htail]
    exact .deliver (s.value a) (rest.map s.value) (by rw [abs, h, hnodes]; rfl)
  | drop a old_head h =>
    rw [h] at hc
    obtain ⟨rest, hnodes, hrest⟩ := hc
    exact hinv.giveBack (p := .walking old_head) hnodes hrest trivial
      (.tau_of_eq (by rw [abs, h, hnodes]; rfl))
  | walkEnd h =>
    rw [h] at hc
    exact hinv.consume_idle hc.eq_nil rfl trivial (by rw [h]; rfl) rfl
  | reuse a n ha => exact hinv.reuse ha

end Steps

end MpscQueue
end ManyTasks
