import ManyTasks.Cactus.Poller

/-!
# Every descriptor is in one place

What a `Poller` is for needs its descriptors to be accounted for (`Accounted`): each is on the free
list, once and cleared, or held by one watcher.  They are as long as no `Init` fails.  A failing
`Init` frees the descriptor it has taken and leaves its watcher with it, so that the next `Init` of
another watcher takes it a second time; the destructor of `FDWatcher` checks that `desc_` is null.

A fiber that wakes up in `Wait` has a reference to a slot of a descriptor that may belong to another
watcher by then.  It only ever clears the slot, so that no fiber is stored that is not parked, and
where its watcher has none it was `Reset` that cleared the slot.
-/

set_option autoImplicit false

namespace ManyTasks
namespace Cactus
namespace Poller

open Function (update update_self update_of_ne)
open Lib (Chain Exclusive Ownership Trace shareOut shareOut_none shareOut_self shareOut_of_ne)

variable {W D F : Type} {s s' : State W D F} {w : W} {d : D} {f : F} {read : Bool}

/-- What is on the free list. -/
def FDDesc.Idle (desc : FDDesc D F) : Prop := desc.fd = -1 ∧ desc.reader = none ∧ desc.writer = none

theorem FDDesc.slot_of_idle {desc : FDDesc D F} (h : desc.Idle) : desc.slot read = none := by
  cases read
  · exact h.2.2
  · exact h.2.1

@[simp]
theorem FDDesc.slot_setSlot {desc : FDDesc D F} {r : Bool} {o : Option F} :
    (desc.setSlot read o).slot r = if r = read then o else desc.slot r := by
  cases read <;> cases r <;> rfl

@[simp]
theorem FDDesc.next_setSlot {desc : FDDesc D F} {o : Option F} :
    (desc.setSlot read o).next = desc.next := by
  cases read <;> rfl

theorem FDDesc.setSlot_setSlot {desc : FDDesc D F} {o o' : Option F} :
    (desc.setSlot read o).setSlot read o' = desc.setSlot read o' := by
  cases read <;> rfl

@[simp]
theorem FDDesc.fd_setSlot {desc : FDDesc D F} {o : Option F} :
    (desc.setSlot read o).fd = desc.fd := by
  cases read <;> rfl

/-- What is claimed of every state: a descriptor is on the free list once, and cleared, or held by
one watcher; a watcher whose `Init` threw has none; and a fiber that is stored is parked on that
descriptor. -/
structure Accounted (s : State W D F) : Prop where
  free_or_held : ∃ free : List D, Chain s.next s.free_list_ free ∧ free.Nodup ∧
    (∀ d ∈ free, s.allocated d = true) ∧ ∀ d, s.allocated d = true →
      (d ∈ free ∧ (s.descs d).Idle ∧ ∀ w, s.desc_ w ≠ some d) ∨
        (d ∉ free ∧ ∃! w, s.desc_ w = some d)
  threw : ∀ w, s.threw w = true → s.desc_ w = none
  parked : ∀ d read f, s.allocated d = true → (s.descs d).slot read = some f →
    ∃ w, (s.fibers f).waiting = some ⟨w, d, read⟩

/-! ## The invariant -/

/-- What belongs to a watcher. -/
def Holds (_ : D → Option D) (p : Option D) (as : List D) : Prop := as = p.toList

/-- The invariant, with the free list and what the watchers have.  A fiber is stored only where its
watcher still has the descriptor. -/
structure Inv (s : State W D F) (owned : Option W → List D) : Prop where
  ownership : Ownership Holds s.next s.free_list_ s.desc_ owned
  allocated : ∀ d, s.allocated d = true ↔ ∃ k, d ∈ owned k
  idle : ∀ d ∈ owned none, (s.descs d).Idle
  threw : ∀ w, s.threw w = true → s.desc_ w = none
  parked : ∀ d read f, s.allocated d = true → (s.descs d).slot read = some f →
    ∃ w, (s.fibers f).waiting = some ⟨w, d, read⟩ ∧ s.desc_ w = some d

variable {owned : Option W → List D}

theorem mem_owned_iff (h : Ownership Holds s.next s.free_list_ s.desc_ owned) :
    d ∈ owned (some w) ↔ s.desc_ w = some d := by
  rw [h.owns w, Option.mem_toList]

theorem inv_start (descs : D → FDDesc D F) :
    Inv (start (W := W) descs) fun _ ↦ [] where
  ownership := ⟨Lib.chain_nil, fun _ ↦ rfl, Lib.exclusive_nil⟩
  allocated d := by simp [start]
  idle _ hd := absurd hd List.not_mem_nil
  threw _ _ := rfl
  parked _ _ _ hd _ := by simp [start] at hd

theorem Inv.accounted (h : Inv s owned) : Accounted s where
  free_or_held := by
    refine ⟨owned none, h.ownership.chain, h.ownership.exclusive.nodup none,
      fun d hd ↦ (h.allocated d).mpr ⟨none, hd⟩, fun d hd ↦ ?_⟩
    obtain ⟨k, hk⟩ := (h.allocated d).mp hd
    rcases k with - | w
    · refine .inl ⟨hk, h.idle d hk, fun w hw ↦ ?_⟩
      exact h.ownership.notMem_list ((mem_owned_iff h.ownership).mpr hw) hk
    · refine .inr ⟨h.ownership.notMem_list hk, w, (mem_owned_iff h.ownership).mp hk,
        fun w' hw' ↦ ?_⟩
      exact h.ownership.eq_of_mem hk ((mem_owned_iff h.ownership).mpr hw')
  threw := h.threw
  parked d read f hd hslot := by
    obtain ⟨w, hw, -⟩ := h.parked d read f hd hslot
    exact ⟨w, hw⟩

/-- A descriptor that a watcher has is allocated and not on the free list. -/
theorem Inv.held (h : Inv s owned) (hw : s.desc_ w = some d) :
    s.allocated d = true ∧ d ∉ owned none := by
  have hmem := (mem_owned_iff h.ownership).mpr hw
  exact ⟨(h.allocated d).mpr ⟨some w, hmem⟩, h.ownership.notMem_list hmem⟩

variable [DecidableEq W] [DecidableEq D] [DecidableEq F]

omit [DecidableEq W] [DecidableEq F] in
/-- A descriptor is written, but not the pointer to the next one. -/
theorem Inv.setDesc (h : Inv s owned) {desc : FDDesc D F} (hnext : desc.next = s.next d)
    (hidle : d ∈ owned none → desc.Idle)
    (hparked : ∀ read f, s.allocated d = true → desc.slot read = some f →
      ∃ w, (s.fibers f).waiting = some ⟨w, d, read⟩ ∧ s.desc_ w = some d) :
    Inv (s.setDesc d desc) owned where
  ownership := by
    have heq : (s.setDesc d desc).next = s.next := by
      funext e
      by_cases he : e = d
      · subst he
        rw [State.next, State.setDesc_self, hnext]
      · rw [State.next, State.setDesc_of_ne he, State.next]
    rw [heq]
    exact h.ownership
  allocated := h.allocated
  idle e he := by
    by_cases hed : e = d
    · subst hed
      rw [State.setDesc_self]
      exact hidle he
    · rw [State.setDesc_of_ne hed]
      exact h.idle e he
  threw := h.threw
  parked e read f he hslot := by
    by_cases hed : e = d
    · subst hed
      rw [State.setDesc_self] at hslot
      exact hparked read f he hslot
    · rw [State.setDesc_of_ne hed] at hslot
      exact h.parked e read f he hslot

omit [DecidableEq W] [DecidableEq F] in
/-- A slot is cleared. -/
theorem Inv.clear (h : Inv s owned) (d : D) (read : Bool) : Inv (s.setSlot d read none) owned := by
  refine h.setDesc (by simp [State.next]) (fun hd ↦ ?_) fun r f hd hslot ↦ ?_
  · obtain ⟨hfd, hreader, hwriter⟩ := h.idle d hd
    cases read
    · exact ⟨hfd, hreader, rfl⟩
    · exact ⟨hfd, rfl, hwriter⟩
  · rw [FDDesc.slot_setSlot] at hslot
    split at hslot
    · cases hslot
    · exact h.parked d r f hd hslot

omit [DecidableEq W] [DecidableEq F] in
theorem Inv.setFd (h : Inv s owned) (fd : ℤ) (hd : d ∉ owned none) : Inv (s.setFd d fd) owned :=
  h.setDesc rfl (fun hd' ↦ absurd hd' hd) fun read f hd' hslot ↦ h.parked d read f hd' hslot

omit [DecidableEq W] [DecidableEq D] in
/-- A fiber changes, and if it is stored it is still parked there. -/
theorem Inv.setFiber (h : Inv s owned) {fiber : FiberImpl W D}
    (hwaiting : ∀ d read, s.allocated d = true → (s.descs d).slot read = some f →
      fiber.waiting = (s.fibers f).waiting) : Inv (s.setFiber f fiber) owned where
  ownership := h.ownership
  allocated := h.allocated
  idle := h.idle
  threw := h.threw
  parked d read g hd hslot := by
    by_cases hg : g = f
    · subst hg
      rw [State.setFiber_self, hwaiting d read hd hslot]
      exact h.parked d read g hd hslot
    · rw [State.setFiber_of_ne hg]
      exact h.parked d read g hd hslot

omit [DecidableEq W] in
theorem Inv.wake (h : Inv s owned) (d : D) (read : Bool) : Inv (s.wake d read) owned := by
  unfold State.wake
  split
  · rename_i f _
    have hfiber : Inv (s.unpark f) owned := h.setFiber fun _ _ _ _ ↦ rfl
    exact hfiber.clear d read
  · exact h

omit [DecidableEq W] in
theorem Inv.handle (h : Inv s owned) (e : Event D) : Inv (s.handle e) owned := by
  unfold State.handle
  dsimp only
  split <;> split
  · exact (h.wake _ _).wake _ _
  · exact h.wake _ _
  · exact h.wake _ _
  · exact h

omit [DecidableEq W] in
theorem Inv.poll (h : Inv s owned) (events : List (Event D)) : Inv (s.poll events) owned := by
  induction events generalizing s with
  | nil => exact h
  | cons e events ih => exact ih (h.handle e)

/-! ## What `Wait` does -/

omit [DecidableEq W] [DecidableEq F] in
/-- The reference that the cleanup has may be to a slot of a descriptor that its watcher has no
more. -/
theorem Inv.cleanup (h : Inv s owned) (p : Waiting W D) : Inv (s.cleanup p) owned := by
  unfold State.cleanup
  split
  · exact h.clear p.desc p.read
  · exact h

omit [DecidableEq W] [DecidableEq D] in
theorem FiberImpl.waiting_afterCheck (fiber : FiberImpl W D) :
    fiber.afterCheck.waiting = fiber.waiting := by
  unfold FiberImpl.afterCheck
  split <;> rfl

omit [DecidableEq W] [DecidableEq D] in
/-- A fiber that is stored nowhere does something to itself. -/
theorem Inv.elsewhere (h : Inv s owned) (hf : (s.fibers f).waiting = none) (fiber : FiberImpl W D) :
    Inv (s.setFiber f fiber) owned := by
  refine h.setFiber fun d read hd hslot ↦ ?_
  obtain ⟨w, hw, -⟩ := h.parked d read f hd hslot
  rw [hf] at hw
  cases hw

omit [DecidableEq W] in
/-- A fiber parks in a slot of a descriptor that its watcher has. -/
theorem Inv.park (h : Inv s owned) (hf : (s.fibers f).waiting = none) (hw : s.desc_ w = some d) :
    Inv (s.park f ⟨w, d, read⟩) owned := by
  -- the fiber is parked before it is stored, so that the slot is right from the start
  have hfiber : Inv (s.setFiber f { s.fibers f with waiting := some ⟨w, d, read⟩ }) owned :=
    h.elsewhere hf _
  refine hfiber.setDesc (by simp [State.next, State.setFiber]) (fun hd ↦ absurd hd (h.held hw).2)
    fun r g hd hslot ↦ ?_
  rw [FDDesc.slot_setSlot] at hslot
  split at hslot
  · rename_i hr
    obtain rfl := Option.some.inj hslot
    exact ⟨w, by rw [State.setFiber_self, hr], hw⟩
  · exact hfiber.parked d r g hd hslot

omit [DecidableEq W] in
theorem State.setSlot_again {fiber : FiberImpl W D} {o o' : Option F} :
    ((s.setSlot d read o).setFiber f fiber).setSlot d read o' =
    (s.setFiber f fiber).setSlot d read o' := by
  simp [State.setSlot, State.setDesc, State.setFiber, FDDesc.setSlot_setSlot]

omit [DecidableEq W] in
/-- Where `check` throws at once, nothing is left in the slot. -/
theorem Inv.parkThrows (h : Inv s owned) (hw : s.desc_ w = some d) :
    Inv (s.parkThrows f ⟨w, d, read⟩) owned := by
  have hsome :
      (((s.setSlot d read (some f)).setFiber f (s.fibers f).afterCheck).desc_ w).isSome := by
    have heq : ((s.setSlot d read (some f)).setFiber f (s.fibers f).afterCheck).desc_ w = some d :=
      hw
    rw [heq, Option.isSome_some]
  have hfiber : Inv (s.setFiber f (s.fibers f).afterCheck) owned :=
    h.setFiber fun _ _ _ _ ↦ FiberImpl.waiting_afterCheck _
  rw [State.parkThrows, State.cleanup, if_pos hsome, State.setSlot_again]
  exact hfiber.clear d read

omit [DecidableEq W] [DecidableEq F] in
/-- After the cleanup the fiber is not stored: `Reset` has cleared the slot, or the cleanup does. -/
theorem Inv.not_stored (h : Inv s owned) {p : Waiting W D} (hf : (s.fibers f).waiting = some p)
    (hd : s.allocated d = true) : ((s.cleanup p).descs d).slot read ≠ some f := by
  intro hslot
  have hclean := (h.cleanup p).parked d read f (by unfold State.cleanup; split <;> exact hd) hslot
  obtain ⟨w, hwaiting, hw⟩ := hclean
  unfold State.cleanup at hslot hwaiting hw
  split at hslot
  · rename_i hsome
    rw [if_pos hsome] at hwaiting
    obtain rfl : p = ⟨w, d, read⟩ := Option.some.inj (hf.symm.trans hwaiting)
    rw [State.setSlot, State.setDesc_self, FDDesc.slot_setSlot, if_pos rfl] at hslot
    cases hslot
  · rename_i hnone
    rw [if_neg hnone] at hwaiting hw
    obtain rfl : p = ⟨w, d, read⟩ := Option.some.inj (hf.symm.trans hwaiting)
    exact hnone (by rw [hw, Option.isSome_some])

omit [DecidableEq W] in
theorem Inv.resume (h : Inv s owned) {p : Waiting W D} (hf : (s.fibers f).waiting = some p) :
    Inv (s.resume f p) owned := by
  have heq : s.resume f p = (s.cleanup p).setFiber f (FiberImpl.afterCheck
      { s.fibers f with isLinked := false, waiting := none }) := by
    unfold State.resume State.cleanup
    split <;> split <;> first | rfl | contradiction
  rw [heq]
  refine (h.cleanup p).setFiber fun d read hd hslot ↦ absurd hslot (h.not_stored hf ?_)
  rw [← hd]
  unfold State.cleanup
  split <;> rfl

/-! ## What watchers do -/

omit [DecidableEq F] in
/-- A descriptor is given back by its watcher, which has none then. -/
theorem Inv.free (h : Inv s owned) (hw : s.desc_ w = some d) (hidle : (s.descs d).Idle) :
    Inv ((s.freeDesc d).setWatcher w none) (shareOut owned (d :: owned none) w []) where
  ownership := by
    have hmem := (mem_owned_iff h.ownership).mpr hw
    have hnext : ∀ e, e ≠ d → (s.freeDesc d).next e = s.next e := fun e he ↦
      congrArg FDDesc.next (State.setDesc_of_ne he)
    have hd : (s.freeDesc d).next d = s.free_list_ := congrArg FDDesc.next State.setDesc_self
    have hwrite : Ownership Holds (s.freeDesc d).next s.free_list_ s.desc_ owned :=
      h.ownership.write (fun hp _ ↦ hp) hnext (h.held hw).2 fun w' _ ↦ h.ownership.owns w'
    refine hwrite.share (Lib.chain_cons (hd ▸ hwrite.chain)) rfl ?_
    refine h.ownership.exclusive.shareOut ?_ fun e he ↦ ?_
    · rw [List.append_nil, List.nodup_cons]
      exact ⟨(h.held hw).2, h.ownership.exclusive.nodup none⟩
    · rw [List.append_nil, List.mem_cons] at he
      rcases he with rfl | he
      · exact .inr hmem
      · exact .inl he
  allocated e := by
    refine (h.allocated e).trans (Lib.exists_mem_shareOut ?_).symm
    rw [h.ownership.owns w, hw, List.mem_cons]
    simp only [Option.toList_some, List.mem_singleton, List.not_mem_nil, or_false]
    exact or_comm
  idle e he := by
    rw [shareOut_none, List.mem_cons] at he
    by_cases hed : e = d
    · subst hed
      have heq : (((s.freeDesc e).setWatcher w none).descs e).Idle = (s.descs e).Idle := by
        simp [State.setWatcher, State.freeDesc, State.setDesc, FDDesc.Idle]
      rw [heq]
      exact hidle
    · have heq : ((s.freeDesc d).setWatcher w none).descs e = s.descs e := State.setDesc_of_ne hed
      rw [heq]
      exact h.idle e (he.resolve_left hed)
  threw w' hw' := by
    by_cases hww : w' = w
    · rw [hww]
      exact update_self _ _ _
    · exact (update_of_ne hww _ _).trans (h.threw w' hw')
  parked e read f he hslot := by
    by_cases hed : e = d
    · subst hed
      have heq : (((s.freeDesc e).setWatcher w none).descs e).slot read =
          (s.descs e).slot read := by
        simp [State.setWatcher, State.freeDesc, State.setDesc, FDDesc.slot]
      rw [heq, FDDesc.slot_of_idle hidle] at hslot
      cases hslot
    · have heq : ((s.freeDesc d).setWatcher w none).descs e = s.descs e := State.setDesc_of_ne hed
      rw [heq] at hslot
      obtain ⟨w', hwaiting, hw'⟩ := h.parked e read f he hslot
      have hww : w' ≠ w := by
        rintro rfl
        exact hed (Option.some.inj (hw'.symm.trans hw))
      exact ⟨w', hwaiting, (update_of_ne hww _ _).trans hw'⟩

omit [DecidableEq W] in
theorem State.desc_wake : (s.wake d read).desc_ = s.desc_ := by
  unfold State.wake
  split <;> rfl

omit [DecidableEq W] in
theorem State.fd_wake : ((s.wake d read).descs d).fd = (s.descs d).fd := by
  unfold State.wake
  split
  · rw [State.setSlot, State.setDesc_self, FDDesc.fd_setSlot]
    rfl
  · rfl

omit [DecidableEq W] in
/-- The slot is empty then, and the other one is as before. -/
theorem State.slot_wake (s : State W D F) (d : D) (read r : Bool) :
    ((s.wake d read).descs d).slot r = if r = read then none else (s.descs d).slot r := by
  unfold State.wake
  split
  · rw [State.setSlot, State.setDesc_self, FDDesc.slot_setSlot]
    rfl
  · rename_i hnone
    split
    · rename_i hr
      rw [hr, hnone]
    · rfl

theorem Inv.reset (h : Inv s owned) (hw : s.desc_ w = some d) :
    Inv (s.reset w d) (shareOut owned (d :: owned none) w []) := by
  have hwake := ((h.setFd (-1) (h.held hw).2).wake d false).wake d true
  have hidle : ((((s.setFd d (-1)).wake d false).wake d true).descs d).Idle := by
    refine ⟨?_, ?_, ?_⟩
    · rw [State.fd_wake, State.fd_wake, State.setFd, State.setDesc_self]
    · have hreader := (s.setFd d (-1)).wake d false |>.slot_wake d true true
      rwa [if_pos rfl] at hreader
    · have hreader := (s.setFd d (-1)).wake d false |>.slot_wake d true false
      have hwriter := (s.setFd d (-1)).slot_wake d false false
      rw [if_pos rfl] at hwriter
      rwa [if_neg Bool.false_ne_true, hwriter] at hreader
  refine hwake.free ?_ hidle
  rw [State.desc_wake, State.desc_wake]
  exact hw

omit [DecidableEq D] [DecidableEq F] in
/-- A watcher that has none gets the first descriptor of the free list. -/
theorem Inv.take (h : Inv s owned) (hw : s.desc_ w = none) (hthrew : s.threw w = false)
    (hfree : s.free_list_ = some d) :
    ∃ rest, owned none = d :: rest ∧
      Inv ({ s with free_list_ := s.next d }.setWatcher w (some d))
        (shareOut owned rest w [d]) := by
  have hchain := h.ownership.chain
  rw [hfree] at hchain
  obtain ⟨rest, hnone, hrest⟩ := hchain.exists_cons
  have hempty : owned (some w) = [] := by
    rw [h.ownership.owns w, hw, Option.toList_none]
  have hnodup := h.ownership.exclusive.nodup none
  rw [hnone] at hnodup
  refine ⟨rest, hnone, ?_, fun e ↦ ?_, fun e he ↦ ?_, fun w' hw' ↦ ?_, fun e read f he hslot ↦ ?_⟩
  · refine h.ownership.share hrest rfl (h.ownership.exclusive.shareOut ?_ fun e he ↦ ?_)
    · exact List.perm_append_singleton d rest |>.nodup_iff.mpr hnodup
    · rw [hnone]
      exact .inl ((List.perm_append_singleton d rest).mem_iff.mp he)
  · refine (h.allocated e).trans (Lib.exists_mem_shareOut ?_).symm
    simp only [hnone, hempty, List.mem_cons, List.not_mem_nil, or_false]
    exact or_comm
  · rw [shareOut_none] at he
    exact h.idle e (hnone ▸ List.mem_cons_of_mem d he)
  · have hww : w' ≠ w := by
      rintro rfl
      exact Bool.false_ne_true (hthrew.symm.trans hw')
    exact (update_of_ne hww _ _).trans (h.threw w' hw')
  · obtain ⟨w', hwaiting, hw'⟩ := h.parked e read f he hslot
    have hww : w' ≠ w := by
      rintro rfl
      exact Option.some_ne_none e (hw'.symm.trans hw)
    exact ⟨w', hwaiting, (update_of_ne hww _ _).trans hw'⟩

omit [DecidableEq F] in
/-- A watcher that has none gets a new descriptor. -/
theorem Inv.create (h : Inv s owned) (hw : s.desc_ w = none) (hthrew : s.threw w = false)
    (hd : s.allocated d = false) :
    Inv ({ s.setDesc d {} with allocated := update s.allocated d true }.setWatcher w (some d))
      (shareOut owned (owned none) w [d]) where
  ownership := by
    have hnobody : ∀ k, d ∉ owned k := fun k hk ↦
      Bool.false_ne_true (hd.symm.trans ((h.allocated d).mpr ⟨k, hk⟩))
    have hnext : ∀ e, e ≠ d → (s.setDesc d {}).next e = s.next e := fun e he ↦
      congrArg FDDesc.next (State.setDesc_of_ne he)
    have hwrite : Ownership Holds (s.setDesc d {}).next s.free_list_ s.desc_ owned :=
      h.ownership.write (fun hp _ ↦ hp) hnext (hnobody none) fun w' _ ↦ h.ownership.owns w'
    exact hwrite.share hwrite.chain rfl (h.ownership.exclusive.add hnobody)
  allocated e := by
    by_cases hed : e = d
    · subst hed
      refine iff_of_true (update_self _ _ _) ⟨some w, ?_⟩
      rw [shareOut_self]
      exact List.mem_singleton_self e
    · have heq : update s.allocated d true e = s.allocated e := update_of_ne hed _ _
      refine (iff_of_eq (congrArg (· = true) heq)).trans ((h.allocated e).trans ?_)
      refine (Lib.exists_mem_shareOut ?_).symm
      rw [h.ownership.owns w, hw, List.mem_singleton, Option.toList_none]
      simp [hed]
  idle e he := by
    rw [shareOut_none] at he
    have hed : e ≠ d := by
      rintro rfl
      exact Bool.false_ne_true (hd.symm.trans ((h.allocated e).mpr ⟨none, he⟩))
    have heq : (s.setDesc d {}).descs e = s.descs e := State.setDesc_of_ne hed
    exact heq.symm ▸ h.idle e he
  threw w' hw' := by
    have hww : w' ≠ w := by
      rintro rfl
      exact Bool.false_ne_true (hthrew.symm.trans hw')
    exact (update_of_ne hww _ _).trans (h.threw w' hw')
  parked e read f he hslot := by
    by_cases hed : e = d
    · subst hed
      have heq : ((s.setDesc e {}).descs e).slot read = some f := hslot
      rw [State.setDesc_self] at heq
      cases read <;> cases heq
    · have heq : update s.allocated d true e = s.allocated e := update_of_ne hed _ _
      have hdesc : (s.setDesc d {}).descs e = s.descs e := State.setDesc_of_ne hed
      obtain ⟨w', hwaiting, hw'⟩ := h.parked e read f (heq.symm.trans he) (hdesc ▸ hslot)
      have hww : w' ≠ w := by
        rintro rfl
        exact Option.some_ne_none e (hw'.symm.trans hw)
      exact ⟨w', hwaiting, (update_of_ne hww _ _).trans hw'⟩

omit [DecidableEq D] [DecidableEq F] in
theorem Inv.setThrew (h : Inv s owned) : Inv (s.setThrew w false) owned where
  ownership := h.ownership
  allocated := h.allocated
  idle := h.idle
  threw w' hw' := by
    by_cases hww : w' = w
    · subst hww
      exact absurd ((update_self _ _ _).symm.trans hw') Bool.false_ne_true
    · exact h.threw w' ((update_of_ne hww _ _).symm.trans hw')
  parked := h.parked

omit [DecidableEq F] in
theorem Inv.init (h : Inv s owned) {fd : ℤ} {fresh : D} (hw : s.desc_ w = none)
    (hfresh : s.free_list_ = none → s.allocated fresh = false) :
    ∃ owned', Inv (s.init w fd fresh) owned' := by
  have hset : Inv (s.setThrew w false) owned := h.setThrew
  have hthrew : (s.setThrew w false).threw w = false := update_self _ _ _
  cases hfree : s.free_list_ with
  | none =>
    have hcreate := hset.create hw hthrew (hfresh hfree)
    have hinit := hcreate.setFd fd (hcreate.held (update_self _ _ _)).2
    refine ⟨_, Eq.mp (congrArg (Inv · _) ?_) hinit⟩
    simp only [State.init, State.addDesc, State.afterNewDesc, State.newDesc, hfree]
    rfl
  | some d =>
    obtain ⟨rest, -, htake⟩ := hset.take hw hthrew hfree
    have hinit := htake.setFd fd (htake.held (update_self _ _ _)).2
    refine ⟨_, Eq.mp (congrArg (Inv · _) ?_) hinit⟩
    simp only [State.init, State.addDesc, State.afterNewDesc, State.newDesc, hfree]
    rfl

/-! ## Runs -/

/-- Every step but a failing `Init` keeps the descriptors accounted for. -/
theorem Inv.step (h : Inv s owned) {l : Label W D F} (hstep : Step s l s') (hl : l.Succeeds) :
    ∃ owned', Inv s' owned' := by
  cases hstep with
  | init w fd fresh hw hfresh => exact h.init hw hfresh
  | initFails => exact absurd hl id
  | wait f w d read hf hw hslot hcheck => exact ⟨owned, h.park hf hw⟩
  | waitThrows f w d read hf hw hslot hcheck => exact ⟨owned, h.parkThrows hw⟩
  | resume f p hf hlinked => exact ⟨owned, h.resume hf⟩
  | poll events hlen => exact ⟨owned, h.poll events⟩
  | reset w d hw => exact ⟨_, h.reset hw⟩
  | cancel f => exact ⟨owned, h.setFiber fun _ _ _ _ ↦ rfl⟩
  | notifyTimeout f => exact ⟨owned, h.setFiber fun _ _ _ _ ↦ rfl⟩
  | elsewhere f fiber hf hfiber => exact ⟨owned, h.elsewhere hf fiber⟩

/-- After a failing `Init` the watcher still has the descriptor. -/
theorem not_accounted_of_initFails {l : Label W D F} (hstep : Step s l s') (hl : ¬ l.Succeeds) :
    ¬ Accounted s' := by
  intro hacc
  cases hstep with
  | initFails w fd fresh hw hfresh =>
    have hnone := hacc.threw w (update_self _ _ _)
    have hsome : (s.initFails w fd fresh).desc_ w = some (s.newDesc fresh) := update_self _ _ _
    rw [hsome] at hnone
    cases hnone
  | _ => exact hl trivial

/-- **The descriptors of a `Poller` are accounted for in every state of a run exactly if no `Init`
in it fails.** -/
theorem accounted_iff {descs : D → FDDesc D F} {h : List (State W D F × Label W D F)}
    (hrun : Trace Step (start descs) h s) :
    (Accounted s ∧ ∀ x ∈ h, Accounted x.1) ↔ ∀ x ∈ h, x.2.Succeeds := by
  constructor
  · -- the state after a failing `Init` is the next one of the run, or the last
    induction hrun with
    | nil => intro _ x hx; exact absurd hx List.not_mem_nil
    | snoc hrun hstep ih =>
      rintro ⟨hacc, hall⟩ x hx
      rcases List.mem_append.mp hx with hx | hx
      · exact ih ⟨hall _ (List.mem_append_right _ List.mem_cons_self),
          fun y hy ↦ hall y (List.mem_append_left _ hy)⟩ x hx
      · rw [List.mem_singleton.mp hx]
        by_contra hl
        exact not_accounted_of_initFails hstep hl hacc
  · intro hl
    obtain ⟨⟨owned, hs⟩, hall⟩ := hrun.forall_of_step (I := fun s ↦ ∃ owned, Inv s owned)
      (P := fun s _ ↦ Accounted s) hl ⟨_, inv_start descs⟩ fun s l s' hs hstep hl ↦ by
        obtain ⟨owned, hs⟩ := hs
        exact ⟨hs.step hstep hl, hs.accounted⟩
    exact ⟨hs.accounted, hall⟩

/-- `Reset` ends a `Wait`, and another watcher waits on the same descriptor before the first fiber
runs. -/
theorem accounted_iff_reuse : ∃ (h : List (State Bool Bool Bool × Label Bool Bool Bool))
    (s : State Bool Bool Bool), Trace Step (start fun _ ↦ {}) h s ∧
      h.map Prod.snd = [.init false 3, .wait false false true, .reset false, .init true 4,
        .wait true true true, .resume false] ∧
      s.desc_ true = some false ∧ (s.descs false).reader = some true ∧
      (Accounted s ∧ ∀ x ∈ h, Accounted x.1) := by
  have hrun : Trace Step (start fun _ : Bool ↦ ({} : FDDesc Bool Bool)) _ _ := Trace.nil
    |>.snoc (.init false 3 false rfl fun _ ↦ rfl)
    |>.snoc (.wait false false false true rfl rfl rfl rfl)
    |>.snoc (.reset false false rfl)
    |>.snoc (.init true 4 true rfl fun _ ↦ rfl)
    |>.snoc (.wait true true false true rfl rfl rfl rfl)
    |>.snoc (.resume false ⟨false, false, true⟩ rfl rfl)
  refine ⟨_, _, hrun, rfl, rfl, rfl, (accounted_iff hrun).mpr ?_⟩
  simp [Label.Succeeds]

/-- After an `Init` that failed the next watcher gets the same descriptor. -/
theorem not_accounted_failed_init : ∃ (h : List (State Bool Bool Bool × Label Bool Bool Bool))
    (s : State Bool Bool Bool), Trace Step (start fun _ ↦ {}) h s ∧
      h.map Prod.snd = [.initFails false 3, .init true 4] ∧
      s.desc_ false = some false ∧ s.desc_ true = some false ∧ ¬ Accounted s := by
  have hrun : Trace Step (start fun _ : Bool ↦ ({} : FDDesc Bool Bool)) _ _ := Trace.nil
    |>.snoc (.initFails false 3 false rfl fun _ ↦ rfl)
    |>.snoc (.init true 4 true rfl fun h ↦ absurd h (by decide))
  refine ⟨_, _, hrun, rfl, rfl, rfl, fun hacc ↦ ?_⟩
  have hnone := hacc.threw false rfl
  cases hnone

end Poller
end Cactus
end ManyTasks
