import ManyTasks.HazardPtr.Pointers

/-!
# Who owns the retired objects

Every node is in `free_list` or belongs to one thread: the one that is about to push it, or the one
that scans (`Inv`).  Their objects are retired, and no location points to one of them.

Whoever holds an object has published it (`Inv.held`), and since he got it from a location after
that, he did so before it was retired.  When a thread scans, its objects have been retired before it
looks at the first hazard pointer; so what is held is found, or its holder is still to be looked at
(`Place.Covers`).
-/

set_option autoImplicit false

namespace ManyTasks
namespace HazardPtr

open Function (update update_self update_of_ne)
open Lib (Balance Chain Exclusive Ownership shareOut shareOut_none shareOut_self shareOut_of_ne)

variable {Θ L A N : Type}

/-- The nodes that belong to a thread. -/
def Place.Owns (next : N → Option N) : Place Θ L A N → List N → Prop
  | .pushing n, ns => ns = [n]
  | .locking retired, ns | .scanning retired _ _, ns | .walking retired _, ns =>
    Chain next retired ns
  | .returning n retired _, ns => ∃ ms, ns = n :: ms ∧ Chain next retired ms
  | _, ns => ns = []

/-- What is true of a thread in `Acquire`. -/
def Place.Fits (hazard_ptr : Option A) (registered holding : Prop) : Place Θ L A N → Prop
  | .storing _ _ => registered ∧ ¬holding
  | .validating _ value => registered ∧ ¬holding ∧ hazard_ptr = value
  | _ => True

/-- What a scan has found out about the objects of its nodes. -/
def Place.Covers (holds : Θ → A → Prop) (objects : List A) : Place Θ L A N → Prop
  | .scanning _ hazard todo => ∀ a ∈ objects, ∀ θ, holds θ a → θ ∈ todo ∨ a ∈ hazard
  | .walking _ hazard | .returning _ _ hazard => ∀ a ∈ objects, ∀ θ, holds θ a → a ∈ hazard
  | _ => True

/-- The list belongs to nobody, and the nodes of a thread to the thread. -/
structure Inv (owned : Option Θ → List N) (holds : Θ → A → Prop) (s : State Θ L A N) : Prop
    extends Ownership Place.Owns s.next s.free_list s.places owned where
  exists_node : ∀ {k n}, n ∈ owned k → s.allocated n = true
  retired : ∀ {k n}, n ∈ owned k → s.status (s.value n) = .retired
  distinct : ∀ {k k' n n'}, n ∈ owned k → n' ∈ owned k' → s.value n = s.value n' → n = n'
  linked : ∀ {ptr a}, s.locations ptr = some a → s.status a = .allocated
  held : ∀ {θ a}, holds θ a → s.hazard_ptr θ = some a ∧ θ ∈ s.threads ∧ s.status a ≠ .free
  fits : ∀ θ, (s.places θ).Fits (s.hazard_ptr θ) (θ ∈ s.threads) (∃ a, holds θ a)
  covers : ∀ θ, (s.places θ).Covers holds ((owned (some θ)).map s.value)

theorem inv_init (nodes : N → RetiredPtr A N) :
    Inv (fun _ ↦ []) (fun _ _ ↦ False) (init nodes : State Θ L A N) where
  chain := Lib.chain_nil
  owns _ := rfl
  exclusive := Lib.exclusive_nil
  exists_node := nofun
  retired := nofun
  distinct := nofun
  linked := nofun
  held := nofun
  fits _ := trivial
  covers _ := trivial

/-! ## Places -/

section Places

variable {next next' : N → Option N} {ns : List N} {p : Place Θ L A N} {n : N}
  {objects objects' : List A} {holds holds' : Θ → A → Prop}

theorem Place.Owns.congr (h : p.Owns next ns) (hnext : ∀ n ∈ ns, next' n = next n) :
    p.Owns next' ns := by
  cases p with
  | locking | scanning | walking => exact Chain.congr h hnext
  | returning n retired hazard =>
    obtain ⟨ms, rfl, hchain⟩ := h
    exact ⟨ms, rfl, hchain.congr fun m hm ↦ hnext m (List.mem_cons_of_mem n hm)⟩
  | _ => exact h

/-- Only those who hold one of the objects matter. -/
theorem Place.Covers.mono (h : p.Covers holds objects) (hsub : ∀ a ∈ objects', a ∈ objects)
    (hholds : ∀ a ∈ objects', ∀ θ, holds' θ a → holds θ a) : p.Covers holds' objects' := by
  cases p with
  | scanning | walking | returning =>
    exact fun a ha θ hθ ↦ h a (hsub a ha) θ (hholds a ha θ hθ)
  | _ => trivial

theorem Place.Fits.congr {hazard_ptr hazard_ptr' : Option A}
    {registered registered' holding holding' : Prop} (h : p.Fits hazard_ptr registered holding)
    (hhazard : hazard_ptr' = hazard_ptr)
    (hregistered : registered → registered') (hholding : holding' → holding) :
    p.Fits hazard_ptr' registered' holding' := by
  cases p with
  | storing => exact ⟨hregistered h.1, fun h' ↦ h.2 (hholding h')⟩
  | validating => exact ⟨hregistered h.1, fun h' ↦ h.2.1 (hholding h'), hhazard.trans h.2.2⟩
  | _ => trivial

end Places

/-! ## What a step does to the invariant -/

section Steps

variable [DecidableEq Θ] [DecidableEq L] [DecidableEq A] [DecidableEq N] {owned : Option Θ → List N}
  {holds holds' : Θ → A → Prop} {s s' : State Θ L A N} {θ : Θ} {n : N} {a : A} {p : Place Θ L A N}

omit [DecidableEq Θ] [DecidableEq L] [DecidableEq A] [DecidableEq N] in
/-- The object of a node is retired. -/
theorem Inv.mem_retired (hinv : Inv owned holds s) {k : Option Θ} (ha : a ∈ (owned k).map s.value) :
    s.status a = .retired := by
  obtain ⟨n, hn, rfl⟩ := List.mem_map.mp ha
  exact hinv.retired hn

omit [DecidableEq Θ] [DecidableEq L] [DecidableEq A] [DecidableEq N] in
/-- Other threads hold other objects: of the old ones, and of those that are in use. -/
theorem Inv.rehold (hinv : Inv owned holds s)
    (hholds : ∀ θ a, holds' θ a → holds θ a ∨
      (s.hazard_ptr θ = some a ∧ θ ∈ s.threads ∧ s.status a = .allocated ∧ s.places θ = .idle)) :
    Inv owned holds' s where
  toOwnership := hinv.toOwnership
  exists_node := hinv.exists_node
  retired := hinv.retired
  distinct := hinv.distinct
  linked := hinv.linked
  held {θ a} ha := by
    rcases hholds θ a ha with hold | ⟨hhazard, hθ, hstatus, -⟩
    · exact hinv.held hold
    · exact ⟨hhazard, hθ, by simp [hstatus]⟩
  fits θ := by
    by_cases hidle : s.places θ = .idle
    · rw [hidle]
      trivial
    · refine (hinv.fits θ).congr rfl id fun ⟨a, ha⟩ ↦ ⟨a, ?_⟩
      exact (hholds θ a ha).resolve_right fun h ↦ hidle h.2.2.2
  covers θ := (hinv.covers θ).mono (fun _ ha ↦ ha) fun a ha θ' hθ' ↦
    (hholds θ' a hθ').resolve_right fun ⟨_, _, hstatus, _⟩ ↦ by
      cases (hinv.mem_retired ha).symm.trans hstatus

omit [DecidableEq L] [DecidableEq A] [DecidableEq N] in
/-- A thread and `free_list` share out their nodes. -/
theorem Inv.share (hinv : Inv owned holds s) {free_list' : Option N} {l l' : List N}
    (hchain : Chain s.next free_list' l) (howns : p.Owns s.next l')
    (hnodup : (l ++ l').Nodup) (hsub : ∀ n ∈ l ++ l', n ∈ owned none ∨ n ∈ owned (some θ))
    (hfits : p.Fits (s.hazard_ptr θ) (θ ∈ s.threads) (∃ a, holds θ a))
    (hcovers : p.Covers holds (l'.map s.value)) :
    Inv (shareOut owned l θ l') holds ({ s with free_list := free_list' }.go θ p) := by
  have hmem : ∀ {k n}, n ∈ shareOut owned l θ l' k → ∃ k', n ∈ owned k' := by
    intro k n hn
    have hboth : n ∈ l ++ l' → ∃ k', n ∈ owned k' := fun h ↦ (hsub n h).elim (⟨_, ·⟩) (⟨_, ·⟩)
    rcases Lib.mem_shareOut hn with ⟨-, hl⟩ | ⟨-, hl'⟩ | ⟨-, hold⟩
    · exact hboth (List.mem_append_left _ hl)
    · exact hboth (List.mem_append_right _ hl')
    · exact ⟨k, hold⟩
  have hself : ({ s with free_list := free_list' }.go θ p).places θ = p := update_self _ _ _
  have hother : ∀ θ', θ' ≠ θ → ({ s with free_list := free_list' }.go θ p).places θ' =
      s.places θ' :=
    fun θ' hθ' ↦ update_of_ne hθ' _ _
  refine ⟨hinv.toOwnership.share hchain howns (hinv.exclusive.shareOut hnodup hsub), fun hn ↦ ?_,
    fun hn ↦ ?_, fun hn hn' ↦ ?_, hinv.linked, hinv.held, fun θ' ↦ ?_, fun θ' ↦ ?_⟩
  · obtain ⟨k', hk'⟩ := hmem hn
    exact hinv.exists_node hk'
  · obtain ⟨k', hk'⟩ := hmem hn
    exact hinv.retired hk'
  · obtain ⟨_, hk⟩ := hmem hn
    obtain ⟨_, hk'⟩ := hmem hn'
    exact hinv.distinct hk hk'
  · by_cases hθ : θ' = θ
    · subst hθ
      rw [hself]
      exact hfits
    · rw [hother θ' hθ]
      exact hinv.fits θ'
  · by_cases hθ : θ' = θ
    · subst hθ
      rw [hself, shareOut_self]
      exact hcovers
    · rw [hother θ' hθ, shareOut_of_ne hθ]
      exact hinv.covers θ'

omit [DecidableEq L] [DecidableEq A] [DecidableEq N] in
/-- A thread goes on with the nodes that it has. -/
theorem Inv.go (hinv : Inv owned holds s) (howns : p.Owns s.next (owned (some θ)))
    (hfits : p.Fits (s.hazard_ptr θ) (θ ∈ s.threads) (∃ a, holds θ a))
    (hcovers : p.Covers holds ((owned (some θ)).map s.value)) : Inv owned holds (s.go θ p) := by
  have hnodup : (owned none ++ owned (some θ)).Nodup :=
    (hinv.exclusive.nodup none).append (hinv.exclusive.nodup _) fun _ hl hl' ↦
      hinv.notMem_list hl' hl
  have h := hinv.share hinv.chain howns hnodup (fun n hn ↦ List.mem_append.mp hn) hfits hcovers
  rwa [Lib.shareOut_eq_self] at h

omit [DecidableEq Θ] [DecidableEq L] [DecidableEq A] in
/-- A thread sets `next` of its first node. -/
theorem Inv.link (hinv : Inv owned holds s) {next : Option N} (hn : n ∈ owned (some θ))
    (howns : (s.places θ).Owns (s.link n next).next (owned (some θ))) :
    Inv owned holds (s.link n next) := by
  have hnext : ∀ m, m ≠ n → (s.link n next).next m = s.next m :=
    fun m hm ↦ congrArg RetiredPtr.next (update_of_ne hm _ _)
  refine ⟨hinv.toOwnership.write Place.Owns.congr hnext (hinv.notMem_list hn) fun θ' hθ' ↦ ?_,
    hinv.exists_node, ?_, ?_, hinv.linked, hinv.held, hinv.fits, ?_⟩
  · obtain rfl := hinv.eq_of_mem hn hθ'
    exact howns
  · rw [State.value_link]
    exact hinv.retired
  · rw [State.value_link]
    exact hinv.distinct
  · rw [State.value_link]
    exact hinv.covers

omit [DecidableEq Θ] [DecidableEq L] [DecidableEq A] [DecidableEq N] in
/-- The locks and the size are of no matter here. -/
theorem Inv.locks (hinv : Inv owned holds s) (size : ℕ) (lock lock' : Option Θ) :
    Inv owned holds
      { s with approximate_free_list_size := size, threads_lock := lock, scan_lock := lock' } :=
  ⟨hinv.toOwnership, hinv.exists_node, hinv.retired, hinv.distinct, hinv.linked, hinv.held,
    hinv.fits, hinv.covers⟩

omit [DecidableEq L] [DecidableEq A] [DecidableEq N] in
/-- A thread that holds nothing, and is not validating, changes its hazard pointer. -/
theorem Inv.publish (hinv : Inv owned holds s) {value : Option A} (hholds : ∀ a, ¬holds θ a)
    (hθ : ∀ ptr value, s.places θ ≠ .validating ptr value) :
    Inv owned holds { s with hazard_ptr := update s.hazard_ptr θ value } := by
  have hother : ∀ {θ'}, θ' ≠ θ → update s.hazard_ptr θ value θ' = s.hazard_ptr θ' :=
    fun h ↦ update_of_ne h _ _
  refine ⟨hinv.toOwnership, hinv.exists_node, hinv.retired, hinv.distinct, hinv.linked,
    fun {θ' a} ha ↦ ?_, fun θ' ↦ ?_, hinv.covers⟩
  · have hne : θ' ≠ θ := fun h ↦ hholds a (h ▸ ha)
    exact ⟨(hother hne).trans (hinv.held ha).1, (hinv.held ha).2⟩
  · by_cases hne : θ' = θ
    · subst hne
      have hfits := hinv.fits θ'
      revert hfits
      change (s.places θ').Fits _ _ _ → (s.places θ').Fits _ _ _
      cases hp : s.places θ' with
      | validating ptr value => exact absurd hp (hθ ptr value)
      | storing => exact id
      | _ => exact fun _ ↦ trivial
    · exact (hinv.fits θ').congr (hother hne) id id

omit [DecidableEq L] [DecidableEq A] [DecidableEq N] in
/-- The first node of a thread is pushed. -/
theorem Inv.push (hinv : Inv owned holds s) {ms : List N} (hlist : s.free_list = s.next n)
    (hθ : owned (some θ) = n :: ms) (howns : p.Owns s.next ms)
    (hfits : p.Fits (s.hazard_ptr θ) (θ ∈ s.threads) (∃ a, holds θ a))
    (hcovers : p.Covers holds (ms.map s.value)) :
    Inv (shareOut owned (n :: owned none) θ ms) holds ({ s with free_list := some n }.go θ p) := by
  have hmem : n ∈ owned (some θ) := hθ ▸ List.mem_cons_self
  have hnodup : (n :: ms).Nodup := hθ ▸ hinv.exclusive.nodup (some θ)
  have hsub : ∀ m ∈ ms, m ∈ owned (some θ) := fun m hm ↦ hθ ▸ List.mem_cons_of_mem n hm
  refine hinv.share (Lib.chain_cons (hlist ▸ hinv.chain)) howns ?_ ?_ hfits hcovers
  · rw [List.cons_append, List.nodup_cons, List.mem_append, not_or]
    rw [List.nodup_cons] at hnodup
    refine ⟨⟨hinv.notMem_list hmem, hnodup.1⟩, ?_⟩
    exact (hinv.exclusive.nodup none).append hnodup.2 fun m hm hm' ↦
      hinv.notMem_list (hsub m hm') hm
  · intro m hm
    rcases List.mem_cons.mp hm with rfl | hm
    · exact .inr hmem
    · exact (List.mem_append.mp hm).imp_right (hsub m)

omit [DecidableEq L] in
/-- A node is made for an object that nobody can reach any more. -/
theorem Inv.retire (hinv : Inv owned holds s) (h : s.places θ = .idle)
    (ha : s.status a = .allocated) (hunlinked : ∀ ptr, s.locations ptr ≠ some a)
    (hn : s.allocated n = false) :
    Inv (shareOut owned (owned none) θ [n]) holds
      ({ s with status := update s.status a .retired,
                nodes := update s.nodes n ⟨a, s.free_list⟩,
                allocated := update s.allocated n true }.go θ (.pushing n)) := by
  set s' : State Θ L A N := { s with
    status := update s.status a .retired,
    nodes := update s.nodes n ⟨a, s.free_list⟩,
    allocated := update s.allocated n true } with hs'
  have hunowned : ∀ k, n ∉ owned k := fun k hk ↦ by simp [hinv.exists_node hk] at hn
  have hnode : s'.nodes n = ⟨a, s.free_list⟩ := update_self _ _ _
  have hvalue_self : s'.value n = a := congrArg RetiredPtr.value hnode
  have hvalue : ∀ {k m}, m ∈ owned k → s'.value m = s.value m := fun hm ↦
    congrArg RetiredPtr.value (update_of_ne (ne_of_mem_of_not_mem hm (hunowned _)) _ _)
  have hnext : ∀ m, m ≠ n → s'.next m = s.next m := fun m hm ↦
    congrArg RetiredPtr.next (update_of_ne hm _ _)
  have hstatus_self : s'.status a = .retired := update_self _ _ _
  have hstatus : ∀ {b}, b ≠ a → s'.status b = s.status b := fun hb ↦ update_of_ne hb _ _
  -- the objects of the other nodes are retired already
  have hne : ∀ {k m}, m ∈ owned k → s.value m ≠ a := fun hm heq ↦ by
    cases (heq ▸ hinv.retired hm).symm.trans ha
  have hmem : ∀ {k m}, m ∈ shareOut owned (owned none) θ [n] k → m = n ∨ m ∈ owned k := by
    intro k m hm
    rcases Lib.mem_shareOut hm with ⟨rfl, hm⟩ | ⟨-, hm⟩ | ⟨-, hm⟩
    · exact .inr hm
    · exact .inl (List.mem_singleton.mp hm)
    · exact .inr hm
  have hwritten : Ownership Place.Owns s'.next s.free_list s.places owned :=
    hinv.toOwnership.write Place.Owns.congr hnext (hunowned none) fun θ' hθ' ↦
      absurd hθ' (hunowned _)
  have hother : ∀ {θ'}, θ' ≠ θ → (s'.go θ (.pushing n)).places θ' = s.places θ' :=
    fun h ↦ update_of_ne h _ _
  have hself : (s'.go θ (.pushing n)).places θ = .pushing n := update_self _ _ _
  refine ⟨hwritten.share hwritten.chain rfl (hinv.exclusive.add hunowned), fun {k m} hm ↦ ?_,
    fun {k m} hm ↦ ?_, fun {k k' m m'} hm hm' heq ↦ ?_, fun {ptr b} hb ↦ ?_, fun {θ' b} hb ↦ ?_,
    fun θ' ↦ ?_, fun θ' ↦ ?_⟩
  · change update s.allocated n true m = true
    rcases hmem hm with rfl | hm
    · exact update_self _ _ _
    · rw [update_of_ne (ne_of_mem_of_not_mem hm (hunowned k))]
      exact hinv.exists_node hm
  · change s'.status (s'.value m) = .retired
    rcases hmem hm with rfl | hm
    · rw [hvalue_self, hstatus_self]
    · rw [hvalue hm, hstatus (hne hm)]
      exact hinv.retired hm
  · change s'.value m = s'.value m' at heq
    rcases hmem hm with hm | hm <;> rcases hmem hm' with hm' | hm'
    · rw [hm, hm']
    · rw [hm, hvalue_self, hvalue hm'] at heq
      exact absurd heq.symm (hne hm')
    · rw [hm', hvalue_self, hvalue hm] at heq
      exact absurd heq (hne hm)
    · rw [hvalue hm, hvalue hm'] at heq
      exact hinv.distinct hm hm' heq
  · exact (hstatus fun h ↦ hunlinked ptr (h ▸ hb)).trans (hinv.linked hb)
  · refine ⟨(hinv.held hb).1, (hinv.held hb).2.1, ?_⟩
    change s'.status b ≠ .free
    by_cases hba : b = a
    · rw [hba, hstatus_self]
      nofun
    · rw [hstatus hba]
      exact (hinv.held hb).2.2
  · by_cases hθ : θ' = θ
    · subst hθ
      rw [hself]
      trivial
    · rw [hother hθ]
      exact hinv.fits θ'
  · by_cases hθ : θ' = θ
    · subst hθ
      rw [hself]
      trivial
    · rw [hother hθ, shareOut_of_ne hθ]
      have hsame : (owned (some θ')).map s'.value = (owned (some θ')).map s.value :=
        List.map_congr_left fun m hm ↦ hvalue hm
      change (s.places θ').Covers holds ((owned (some θ')).map s'.value)
      rw [hsame]
      exact hinv.covers θ'

omit [DecidableEq L] in
/-- The deleter is run on the object of the first node. -/
theorem Inv.delete (hinv : Inv owned holds s) {hazard : List A} {ms : List N}
    (h : s.places θ = .walking (some n) hazard) (hn : s.value n ∉ hazard)
    (hθ : owned (some θ) = n :: ms)
    (hms : Chain s.next (s.next n) ms) :
    Inv (shareOut owned (owned none) θ ms) holds
      ({ s with status := update s.status (s.value n) .free,
                allocated := update s.allocated n false }.go θ (.walking (s.next n) hazard)) := by
  have hmem : n ∈ owned (some θ) := hθ ▸ List.mem_cons_self
  have hnodup : (n :: ms).Nodup := hθ ▸ hinv.exclusive.nodup (some θ)
  have hsub : ∀ m ∈ ms, m ∈ owned (some θ) := fun m hm ↦ hθ ▸ List.mem_cons_of_mem n hm
  have hcovers := hinv.covers θ
  rw [h, hθ] at hcovers
  -- whoever holds it has been found
  have hnobody : ∀ θ', ¬holds θ' (s.value n) := fun θ' hθ' ↦
    hn (hcovers _ (List.mem_map_of_mem List.mem_cons_self) θ' hθ')
  have hwalk : Inv (shareOut owned (owned none) θ ms) holds
      (s.go θ (.walking (s.next n) hazard)) := by
    refine hinv.share hinv.chain hms ?_ (fun m hm ↦ (List.mem_append.mp hm).imp_right (hsub m))
      trivial ?_
    · exact (hinv.exclusive.nodup none).append (List.nodup_cons.mp hnodup).2
        fun m hm hm' ↦ hinv.notMem_list (hsub m hm') hm
    · exact fun a ha ↦ hcovers a (List.map_subset _ (List.subset_cons_self n ms) ha)
  have hunowned : ∀ k, n ∉ shareOut owned (owned none) θ ms k := by
    intro k hk
    rcases Lib.mem_shareOut hk with ⟨-, hk⟩ | ⟨-, hk⟩ | ⟨hne, hk⟩
    · exact hinv.notMem_list hmem hk
    · exact (List.nodup_cons.mp hnodup).1 hk
    · exact hne (hinv.exclusive.unique hk hmem)
  have hold : ∀ {k m}, m ∈ shareOut owned (owned none) θ ms k → ∃ k', m ∈ owned k' := by
    intro k m hm
    rcases Lib.mem_shareOut hm with ⟨-, hm⟩ | ⟨-, hm⟩ | ⟨-, hm⟩
    · exact ⟨_, hm⟩
    · exact ⟨_, hsub m hm⟩
    · exact ⟨_, hm⟩
  have hvalue : ∀ {k m}, m ∈ shareOut owned (owned none) θ ms k → s.value m ≠ s.value n := by
    intro k m hm heq
    obtain ⟨k', hk'⟩ := hold hm
    exact hunowned k (hinv.distinct hk' hmem heq ▸ hm)
  refine ⟨hwalk.toOwnership, fun {k m} hm ↦ ?_, fun {k m} hm ↦ ?_, hwalk.distinct,
    fun {ptr b} hb ↦ ?_, fun {θ' b} hb ↦ ?_, hwalk.fits, hwalk.covers⟩
  · exact (update_of_ne (ne_of_mem_of_not_mem hm (hunowned k)) _ _).trans (hwalk.exists_node hm)
  · exact (update_of_ne (hvalue hm) _ _).trans (hwalk.retired hm)
  · have hne : b ≠ s.value n := fun h ↦ by
      cases (hinv.linked (h ▸ hb)).symm.trans (hinv.retired hmem)
    exact (update_of_ne hne _ _).trans (hinv.linked hb)
  · have hne : b ≠ s.value n := fun h ↦ hnobody θ' (h ▸ hb)
    exact ⟨(hinv.held hb).1, (hinv.held hb).2.1, (update_of_ne hne _ _).trans_ne (hinv.held hb).2.2⟩

end Steps

end HazardPtr
end ManyTasks
