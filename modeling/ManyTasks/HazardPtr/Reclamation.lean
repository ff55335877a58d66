import ManyTasks.HazardPtr.Safety

/-!
# Retired objects are deleted, once, and not while they are held

Every step keeps the invariant, and the objects that have been retired have been deleted, are in
`free_list`, or belong to a thread that retires them or scans (`Inv.step`).  The deleter is only run
for an object that the scan has not found, and so nobody holds it.
-/

set_option autoImplicit false

namespace ManyTasks
namespace HazardPtr

open Function (update update_self update_of_ne)
open Lib (Balance Chain Trace shareOut shareOut_none shareOut_self shareOut_of_ne)

variable {Θ L A N : Type}

/-- The objects of the nodes that belong to somebody. -/
def objects (owned : Option Θ → List N) (s : State Θ L A N) (k : Option Θ) : List A :=
  (owned k).map s.value

/-- What has been retired has been deleted, is in `free_list` or belongs to a thread. -/
def Balanced (owned : Option Θ → List N) (s : State Θ L A N)
    (retired deleted : Multiset A) : Prop :=
  Balance (fun θ ↦ objects owned s (some θ)) (objects owned s none) retired deleted

def Label.retired : Label Θ A → Option A
  | .retire _ a => some a
  | _ => none

def Label.deleted : Label Θ A → Option A
  | .delete _ a => some a
  | _ => none

/-- The invariant and the balance after a step. -/
def Answers (owned : Option Θ → List N) (holds : Θ → A → Prop) (s : State Θ L A N) (l : Label Θ A)
    (s' : State Θ L A N) : Prop :=
  ∃ owned', Inv owned' (l.after holds) s' ∧ ∀ come gone : Multiset A, Balanced owned s come gone →
    Balanced owned' s' (come + l.retired.toList) (gone + l.deleted.toList)

section Steps

variable [DecidableEq Θ] [DecidableEq L] [DecidableEq A] [DecidableEq N] {owned : Option Θ → List N}
  {holds : Θ → A → Prop} {s s' : State Θ L A N} {θ : Θ} {n : N} {p : Place Θ L A N} {l : Label Θ A}

omit [DecidableEq Θ] [DecidableEq L] [DecidableEq A] [DecidableEq N] in
/-- Nothing is retired, deleted or handed on. -/
theorem Inv.answers (hinv : Inv owned (l.after holds) s') (hvalue : s'.value = s.value)
    (hretired : l.retired = none) (hdeleted : l.deleted = none) : Answers owned holds s l s' := by
  refine ⟨owned, hinv, fun come gone hbalance ↦ ?_⟩
  rw [Balanced, hretired, hdeleted, Option.toList, Multiset.coe_nil, add_zero, add_zero]
  simpa [Balanced, objects, hvalue] using hbalance

omit [DecidableEq Θ] [DecidableEq L] [DecidableEq A] [DecidableEq N] in
theorem after_tau (holds : Θ → A → Prop) : (Label.tau : Label Θ A).after holds = holds :=
  Label.after_of_quiet nofun fun θ hθ ↦ by simp [Label.GivesUp] at hθ

omit [DecidableEq Θ] [DecidableEq L] [DecidableEq A] [DecidableEq N] in
theorem Inv.answers_tau (hinv : Inv owned holds s') (hvalue : s'.value = s.value) :
    Answers owned holds s .tau s' :=
  Inv.answers (by rwa [after_tau]) hvalue rfl rfl

omit [DecidableEq L] [DecidableEq A] [DecidableEq N] in
/-- The nodes have the same values, and a thread and `free_list` share them out. -/
theorem Balanced.share {come gone come' gone' : Multiset A} (h : Balanced owned s come gone)
    {l l' : List N} (hvalue : ∀ k, ∀ m ∈ owned k, s'.value m = s.value m)
    (heq : come' + (gone + objects owned s (some θ) + objects owned s none) =
      come + (gone' + l'.map s'.value + l.map s'.value)) :
    Balanced (shareOut owned l θ l') s' come' gone' := by
  have hhands : (fun θ' ↦ objects (shareOut owned l θ l') s' (some θ')) =
      update (fun θ' ↦ objects owned s (some θ')) θ (l'.map s'.value) := by
    funext θ'
    by_cases hθ : θ' = θ
    · subst hθ
      rw [update_self, objects, shareOut_self]
    · rw [update_of_ne hθ, objects, shareOut_of_ne hθ]
      exact List.map_congr_left fun m hm ↦ hvalue _ m hm
  rw [Balanced, hhands, objects, shareOut_none]
  exact h.move heq

omit [DecidableEq L] [DecidableEq A] [DecidableEq N] in
/-- The nodes are not written, and what is not retired or deleted is only handed on. -/
theorem Balanced.handOn {come gone come' gone' : Multiset A} (h : Balanced owned s come gone)
    {l l' : List N} (hvalue : s'.value = s.value)
    (heq : come' + (gone + ((owned (some θ)).map s.value : List A) +
      ((owned none).map s.value : List A)) =
      come + (gone' + (l'.map s.value : List A) + (l.map s.value : List A))) :
    Balanced (shareOut owned l θ l') s' come' gone' :=
  h.share (fun _ _ _ ↦ by rw [hvalue]) (by rw [hvalue]; exact heq)

omit [DecidableEq Θ] [DecidableEq L] [DecidableEq A] [DecidableEq N] in
theorem Inv.not_owned (hinv : Inv owned holds s) (hn : s.allocated n = false) (k : Option Θ) :
    n ∉ owned k := fun hk ↦ by simp [hinv.exists_node hk] at hn

omit [DecidableEq L] [DecidableEq A] in
/-- A thread retires an object, and has the node that it has made for it. -/
theorem Balanced.retire {come gone : Multiset A} (h : Balanced owned s come gone) {a : A}
    (hθ : owned (some θ) = []) (hn : ∀ k, n ∉ owned k)
    (hnodes : s'.nodes = update s.nodes n ⟨a, s.free_list⟩) :
    Balanced (shareOut owned (owned none) θ [n]) s' (come + {a}) gone := by
  have hnode : s'.value n = a := by rw [State.value, hnodes, update_self]
  have hvalue : ∀ k, ∀ m ∈ owned k, s'.value m = s.value m := fun k m hm ↦ by
    rw [State.value, State.value, hnodes, update_of_ne (ne_of_mem_of_not_mem hm (hn k))]
  refine h.share hvalue ?_
  have hlist : (owned none).map s'.value = objects owned s none := List.map_congr_left (hvalue none)
  rw [hlist, objects, hθ, List.map_cons, hnode]
  simp only [List.map_nil, Multiset.coe_nil, Multiset.coe_singleton, add_zero]
  abel

/-! ## The users -/

omit [DecidableEq Θ] [DecidableEq L] [DecidableEq N] in
theorem Inv.allocate (hinv : Inv owned holds s) {a : A} (ha : s.status a = .free) :
    Inv owned holds { s with status := update s.status a .allocated } := by
  refine ⟨hinv.toOwnership, hinv.exists_node, fun {k m} hm ↦ ?_, hinv.distinct, fun {ptr b} hb ↦ ?_,
    fun {θ b} hb ↦ ?_, hinv.fits, hinv.covers⟩
  · have hne : s.value m ≠ a := fun h ↦ by cases (h ▸ hinv.retired hm).symm.trans ha
    exact (update_of_ne hne _ _).trans (hinv.retired hm)
  · have hne : b ≠ a := fun h ↦ by cases (h ▸ hinv.linked hb).symm.trans ha
    exact (update_of_ne hne _ _).trans (hinv.linked hb)
  · have hne : b ≠ a := fun h ↦ (hinv.held hb).2.2 (h ▸ ha)
    exact ⟨(hinv.held hb).1, (hinv.held hb).2.1, (update_of_ne hne _ _).trans_ne (hinv.held hb).2.2⟩

omit [DecidableEq Θ] [DecidableEq A] [DecidableEq N] in
theorem Inv.exchange (hinv : Inv owned holds s) {ptr : L} {value : Option A}
    (ha : ∀ a, value = some a → s.status a = .allocated) :
    Inv owned holds { s with locations := update s.locations ptr value } := by
  refine ⟨hinv.toOwnership, hinv.exists_node, hinv.retired, hinv.distinct, fun {ptr' b} hb ↦ ?_,
    hinv.held, hinv.fits, hinv.covers⟩
  change update s.locations ptr value ptr' = some b at hb
  by_cases hptr : ptr' = ptr
  · subst hptr
    rw [update_self] at hb
    exact ha b hb
  · rw [update_of_ne hptr] at hb
    exact hinv.linked hb

omit [DecidableEq L] [DecidableEq A] [DecidableEq N] in
/-- Threads come, and those go that hold nothing. -/
theorem Inv.enlist (hinv : Inv owned holds s) {threads' : List Θ}
    (hthreads : ∀ θ ∈ s.threads, θ ∈ threads' ∨ (s.places θ = .idle ∧ ∀ a, ¬holds θ a)) :
    Inv owned holds { s with threads := threads' } := by
  refine ⟨hinv.toOwnership, hinv.exists_node, hinv.retired, hinv.distinct, hinv.linked,
    fun {θ b} hb ↦ ?_, fun θ ↦ ?_, hinv.covers⟩
  · obtain ⟨hhazard, hθ, hstatus⟩ := hinv.held hb
    exact ⟨hhazard, (hthreads θ hθ).resolve_right fun h ↦ h.2 b hb, hstatus⟩
  · by_cases hidle : s.places θ = .idle
    · change (s.places θ).Fits _ _ _
      rw [hidle]
      trivial
    · exact (hinv.fits θ).congr rfl (fun hθ ↦ (hthreads θ hθ).resolve_right fun h ↦ hidle h.1) id

omit [DecidableEq Θ] [DecidableEq L] [DecidableEq A] [DecidableEq N] in
/-- A thread gives up what it holds, and others keep what they hold. -/
theorem Inv.giveUp (hinv : Inv owned holds s) (hl : l.GivesUp θ) :
    Inv owned (l.after holds) s ∧ ∀ a, ¬l.after holds θ a := by
  have hacquired : ∀ θ' a, l ≠ .acquired θ' a := by
    rintro θ' a rfl
    simp [Label.GivesUp] at hl
  refine ⟨hinv.rehold fun θ' a h ↦ .inl (h.resolve_left (hacquired θ' (some a))).1, fun a h ↦ ?_⟩
  exact (h.resolve_left (hacquired θ (some a))).2 hl

/-! ## The steps -/

omit [DecidableEq L] [DecidableEq A] [DecidableEq N] in
/-- A thread that has no nodes goes on, and gets none. -/
theorem Inv.idle (hinv : Inv owned holds s) (hθ : owned (some θ) = []) (howns : p.Owns s.next [])
    (hfits : p.Fits (s.hazard_ptr θ) (θ ∈ s.threads) (∃ a, holds θ a))
    (hcovers : p.Covers holds []) :
    Inv owned holds (s.go θ p) := by
  rw [← hθ] at howns
  exact hinv.go howns hfits (hθ ▸ hcovers)

omit [DecidableEq L] [DecidableEq A] [DecidableEq N] in
/-- `Acquire` returns what is still in the location. -/
theorem Inv.acquired (hinv : Inv owned holds s) {ptr : L} {value : Option A}
    (h : s.places θ = .validating ptr value) (hvalue : s.locations ptr = value) :
    Inv owned ((Label.acquired θ value).after holds) (s.go θ .idle) := by
  have hθ : owned (some θ) = [] := by simpa [h, Place.Owns] using hinv.owns θ
  obtain ⟨hregistered, -, hhazard⟩ : θ ∈ s.threads ∧ (¬∃ a, holds θ a) ∧
      s.hazard_ptr θ = value := by
    simpa [h, Place.Fits] using hinv.fits θ
  refine (hinv.idle (p := .idle) hθ rfl trivial trivial).rehold fun θ' a ha ↦ ?_
  rcases ha with heq | ⟨hold, -⟩
  · obtain ⟨rfl, rfl⟩ : θ = θ' ∧ value = some a := by simpa using heq
    exact .inr ⟨hhazard, hregistered, hinv.linked hvalue, update_self _ _ _⟩
  · exact .inl hold

omit [DecidableEq L] [DecidableEq A] [DecidableEq N] in
/-- Locks and the size are changed by threads without nodes. -/
theorem Inv.wander (hinv : Inv owned holds s) (size : ℕ) (lock lock' : Option Θ)
    (hθ : owned (some θ) = []) (howns : p.Owns s.next [])
    (hfits : p.Fits (s.hazard_ptr θ) (θ ∈ s.threads) (∃ a, holds θ a))
    (hcovers : p.Covers holds []) :
    Answers owned holds s .tau
      ({ s with
        approximate_free_list_size := size, threads_lock := lock, scan_lock := lock' }.go θ p) :=
  ((hinv.locks size lock lock').idle hθ howns hfits hcovers).answers_tau rfl

omit [DecidableEq Θ] [DecidableEq L] [DecidableEq A] in
/-- What a scan has left does not depend on the node that it puts back. -/
theorem owns_link {next retired : Option N} {hazard : List A} {ms : List N}
    (hθ : owned (some θ) = n :: ms) (hnodup : (n :: ms).Nodup) (hms : Chain s.next retired ms) :
    (Place.returning n retired hazard : Place Θ L A N).Owns (s.link n next).next
    (owned (some θ)) := by
  refine ⟨ms, hθ, hms.congr fun m hm ↦ ?_⟩
  have hne : m ≠ n := ne_of_mem_of_not_mem hm (List.nodup_cons.mp hnodup).1
  exact congrArg RetiredPtr.next (update_of_ne hne _ _)

/-- **Every step keeps the invariant and the balance.** -/
theorem Inv.step (hinv : Inv owned holds s) (hstep : Step s l s') : Answers owned holds s l s' := by
  cases hstep with
  | allocate a ha => exact (hinv.allocate ha).answers_tau rfl
  | exchange ptr value ha => exact (hinv.exchange ha).answers_tau rfl
  | register θ h hlock =>
    exact (hinv.enlist fun θ' hθ' ↦ .inl (List.mem_cons_of_mem θ hθ')).answers_tau rfl
  | unregister θ h hlock =>
    have hθ : owned (some θ) = [] := by simpa [h, Place.Owns] using hinv.owns θ
    obtain ⟨hgiven, hnothing⟩ := hinv.giveUp (l := .unregister θ) (θ := θ) (.inr (.inr rfl))
    have hleft : Inv owned ((Label.unregister θ).after holds)
        { s with threads := s.threads.erase θ } := by
      refine hgiven.enlist fun θ' hθ' ↦ ?_
      by_cases hne : θ' = θ
      · subst hne
        exact .inr ⟨h, hnothing⟩
      · exact .inl ((List.mem_erase_of_ne hne).mpr hθ')
    refine Inv.answers ?_ rfl rfl rfl
    split
    · exact hleft.idle hθ rfl trivial trivial
    · exact hleft.idle hθ rfl trivial trivial
  | acquire θ ptr h hregistered =>
    have hθ : owned (some θ) = [] := by simpa [h, Place.Owns] using hinv.owns θ
    obtain ⟨hgiven, hnothing⟩ := hinv.giveUp (l := .acquire θ) (θ := θ) (.inr (.inl rfl))
    exact Inv.answers (hgiven.idle (p := .storing ptr (s.locations ptr)) hθ rfl
      ⟨hregistered, fun ⟨a, ha⟩ ↦ hnothing a ha⟩ trivial) rfl rfl rfl
  | store θ ptr value h =>
    have hθ : owned (some θ) = [] := by simpa [h, Place.Owns] using hinv.owns θ
    obtain ⟨hregistered, hnothing⟩ : θ ∈ s.threads ∧ ¬∃ a, holds θ a := by
      have hfits := hinv.fits θ
      rwa [h] at hfits
    have hpublished : Inv owned holds { s with hazard_ptr := update s.hazard_ptr θ value } :=
      hinv.publish (fun a ha ↦ hnothing ⟨a, ha⟩) (by simp [h])
    exact (hpublished.idle (p := .validating ptr value) hθ rfl
      ⟨hregistered, hnothing, update_self _ _ _⟩ trivial).answers_tau rfl
  | acquired θ ptr value h hvalue => exact Inv.answers (hinv.acquired h hvalue) rfl rfl rfl
  | again θ ptr value h hvalue =>
    have hθ : owned (some θ) = [] := by simpa [h, Place.Owns] using hinv.owns θ
    have hfits := hinv.fits θ
    rw [h] at hfits
    exact (hinv.idle (p := .storing ptr (s.locations ptr)) hθ rfl ⟨hfits.1, hfits.2.1⟩
      trivial).answers_tau rfl
  | release θ h =>
    obtain ⟨hgiven, hnothing⟩ := hinv.giveUp (l := .release θ) (θ := θ) (.inl rfl)
    exact Inv.answers (hgiven.publish hnothing (by simp [h])) rfl rfl rfl
  | retire θ a n h ha hunlinked hn =>
    have hθ : owned (some θ) = [] := by simpa [h, Place.Owns] using hinv.owns θ
    have hafter : (Label.retire θ a).after holds = holds :=
      Label.after_of_quiet nofun fun θ' hθ' ↦ by simp [Label.GivesUp] at hθ'
    refine ⟨_, hafter ▸ hinv.retire h ha hunlinked hn, fun come gone hbalance ↦ ?_⟩
    change Balanced _ _ (come + {a}) (gone + 0)
    rw [add_zero]
    exact hbalance.retire hθ (hinv.not_owned hn) rfl
  | push θ n h hlist =>
    have howns := hinv.owns θ
    rw [h] at howns
    have hθ : owned (some θ) = [n] := howns
    have hpushed := hinv.push (p := .counting) hlist hθ rfl trivial trivial
    refine ⟨_, (after_tau holds).symm ▸ hpushed, fun come gone hbalance ↦ hbalance.handOn rfl ?_⟩
    simp only [Label.retired, Label.deleted, Option.toList, hθ, List.map_cons, List.map_nil,
      ← Multiset.cons_coe, ← Multiset.singleton_add, Multiset.coe_nil, add_zero]
    abel
  | pushFail θ n h =>
    have howns := hinv.owns θ
    rw [h] at howns
    have hθ : owned (some θ) = [n] := howns
    refine (hinv.link (n := n) (θ := θ) (hθ ▸ List.mem_singleton_self n) ?_).answers_tau
      (State.value_link _ _ _)
    rw [h]
    exact hθ
  | count θ h =>
    have hθ : owned (some θ) = [] := by simpa [h, Place.Owns] using hinv.owns θ
    exact hinv.wander _ _ _ hθ rfl trivial trivial
  | compare θ h =>
    have hθ : owned (some θ) = [] := by simpa [h, Place.Owns] using hinv.owns θ
    split
    · exact hinv.wander _ _ _ hθ rfl trivial trivial
    · exact hinv.wander _ _ _ hθ rfl trivial trivial
  | reset θ h | busy θ h | tryLock θ h hlock =>
    have hθ : owned (some θ) = [] := by simpa [h, Place.Owns] using hinv.owns θ
    exact hinv.wander _ _ _ hθ rfl trivial trivial
  | take θ h =>
    have hθ : owned (some θ) = [] := by simpa [h, Place.Owns] using hinv.owns θ
    have htaken : Inv (shareOut owned [] θ (owned none)) holds
        ({ s with free_list := none }.go θ (.locking s.free_list)) :=
      hinv.share Lib.chain_nil hinv.chain (hinv.exclusive.nodup none)
        (fun _ hm ↦ .inl hm) trivial trivial
    refine ⟨_, (after_tau holds).symm ▸ htaken, fun come gone hbalance ↦ hbalance.handOn rfl ?_⟩
    simp only [Label.retired, Label.deleted, Option.toList, hθ, List.map_nil, Multiset.coe_nil,
      add_zero]
  | lockThreads θ retired h hlock =>
    have howns := hinv.owns θ
    rw [h] at howns
    have hlocked := hinv.locks s.approximate_free_list_size (some θ) s.scan_lock
    exact (hlocked.go (p := .scanning retired [] s.threads) howns trivial
      fun a _ θ' hθ' ↦ .inl (hinv.held hθ').2.1).answers_tau rfl
  | readSlot θ retired hazard todo θ' h hθ' =>
    have howns := hinv.owns θ
    have hcovers := hinv.covers θ
    rw [h] at howns hcovers
    refine (hinv.go (p := .scanning retired (hazard ++ (s.hazard_ptr θ').toList) (todo.erase θ'))
      howns trivial fun a ha θ'' hθ'' ↦ ?_).answers_tau rfl
    rcases hcovers a ha θ'' hθ'' with htodo | hfound
    · by_cases hne : θ'' = θ'
      · subst hne
        rw [(hinv.held hθ'').1]
        exact .inr (List.mem_append_right _ (List.mem_singleton_self a))
      · exact .inl ((List.mem_erase_of_ne hne).mpr htodo)
    · exact .inr (List.mem_append_left _ hfound)
  | unlockThreads θ retired hazard h =>
    have howns := hinv.owns θ
    have hcovers := hinv.covers θ
    rw [h] at howns hcovers
    have hunlocked := hinv.locks s.approximate_free_list_size none s.scan_lock
    exact (hunlocked.go (p := .walking retired hazard) howns trivial fun a ha θ' hθ' ↦
      (hcovers a ha θ' hθ').resolve_left List.not_mem_nil).answers_tau rfl
  | delete θ n hazard h hn =>
    have howns := hinv.owns θ
    rw [h] at howns
    obtain ⟨ms, hθ, hms⟩ := Chain.exists_cons howns
    have hafter : (Label.delete θ (s.value n)).after holds = holds :=
      Label.after_of_quiet nofun fun θ' hθ' ↦ by simp [Label.GivesUp] at hθ'
    refine ⟨_, hafter ▸ hinv.delete h hn hθ hms, fun come gone hbalance ↦ hbalance.handOn rfl ?_⟩
    simp only [Label.retired, Label.deleted, Option.toList, hθ, List.map_cons, ← Multiset.cons_coe,
      ← Multiset.singleton_add, Multiset.coe_nil, add_zero]
    abel
  | keep θ n hazard h hn =>
    have howns := hinv.owns θ
    have hcovers := hinv.covers θ
    rw [h] at howns hcovers
    obtain ⟨ms, hθ, hms⟩ := Chain.exists_cons howns
    have hnodup : (n :: ms).Nodup := hθ ▸ hinv.exclusive.nodup (some θ)
    have hkept : Inv owned holds (s.go θ (.returning n (s.next n) hazard)) :=
      hinv.go ⟨ms, hθ, hms⟩ trivial hcovers
    have hplace : (s.go θ (.returning n (s.next n) hazard)).places θ =
        .returning n (s.next n) hazard :=
      update_self _ _ _
    refine (hkept.link (n := n) (θ := θ) (hθ ▸ List.mem_cons_self) ?_).answers_tau
      (State.value_link _ _ _)
    rw [hplace]
    exact owns_link hθ hnodup hms
  | putBack θ n retired hazard h hlist =>
    have howns := hinv.owns θ
    have hcovers := hinv.covers θ
    rw [h] at howns hcovers
    obtain ⟨ms, hθ, hms⟩ := howns
    have hpushed := hinv.push (p := .walking retired hazard) hlist hθ hms trivial fun a ha ↦
      hcovers a (hθ ▸ List.mem_cons_of_mem _ ha)
    refine ⟨_, (after_tau holds).symm ▸ hpushed, fun come gone hbalance ↦ hbalance.handOn rfl ?_⟩
    simp only [Label.retired, Label.deleted, Option.toList, hθ, List.map_cons, ← Multiset.cons_coe,
      ← Multiset.singleton_add, Multiset.coe_nil, add_zero]
    abel
  | putBackFail θ n retired hazard h =>
    have howns := hinv.owns θ
    rw [h] at howns
    obtain ⟨ms, hθ, hms⟩ := howns
    have hnodup : (n :: ms).Nodup := hθ ▸ hinv.exclusive.nodup (some θ)
    refine (hinv.link (n := n) (θ := θ) (hθ ▸ List.mem_cons_self) ?_).answers_tau
      (State.value_link _ _ _)
    rw [h]
    exact owns_link hθ hnodup hms
  | finish θ hazard h =>
    have howns := hinv.owns θ
    rw [h] at howns
    exact hinv.wander _ _ _ (Chain.eq_nil howns) rfl trivial trivial

end Steps

/-! ## The main result -/

/-- The objects for which `Retire` has been called. -/
def retired (h : List (State Θ L A N × Label Θ A)) : Multiset A := h.filterMap fun x ↦ x.2.retired

/-- The objects whose deleter has been run. -/
def deleted (h : List (State Θ L A N × Label Θ A)) : Multiset A := h.filterMap fun x ↦ x.2.deleted

theorem retired_append (h : List (State Θ L A N × Label Θ A)) (s : State Θ L A N) (l : Label Θ A) :
    retired (h ++ [(s, l)]) = retired h + (l.retired.toList : Multiset A) := by
  rw [retired, Lib.filterMap_snoc, ← Multiset.coe_add, retired]

theorem deleted_append (h : List (State Θ L A N × Label Θ A)) (s : State Θ L A N) (l : Label Θ A) :
    deleted (h ++ [(s, l)]) = deleted h + (l.deleted.toList : Multiset A) := by
  rw [deleted, Lib.filterMap_snoc, ← Multiset.coe_add, deleted]

section Runs

variable [DecidableEq Θ] [DecidableEq L] [DecidableEq A] [DecidableEq N]
  {nodes : N → RetiredPtr A N} {h : List (State Θ L A N × Label Θ A)} {s : State Θ L A N}

theorem inv_of_trace (hrun : Trace Step (init nodes) h s) :
    ∃ owned, Inv owned (Holds h) s ∧ Balanced owned s (retired h) (deleted h) := by
  refine hrun.invariant (I := fun h s ↦ ∃ owned, Inv owned (Holds h) s ∧
    Balanced owned s (retired h) (deleted h)) ⟨fun _ ↦ [], ?_, Lib.balance_zero⟩
      fun h s l s' hI hstep ↦ ?_
  · refine (inv_init nodes).rehold fun θ a hholds ↦ ?_
    obtain ⟨h₁, s₁, h₂, heq, -⟩ := hholds
    simp at heq
  · obtain ⟨owned, hinv, hbalance⟩ := hI
    obtain ⟨owned', hinv', hmove⟩ := hinv.step hstep
    refine ⟨owned', ?_, ?_⟩
    · have hholds : Holds (h ++ [(s, l)]) = l.after (Holds h) := by
        funext θ a
        exact propext (holds_append h s l θ a)
      rw [hholds]
      exact hinv'
    · rw [retired_append, deleted_append]
      exact hmove _ _ hbalance

/-- The deleter is run for a retired object that nobody holds. -/
theorem Inv.not_holds_of_delete {owned : Option Θ → List N} {holds : Θ → A → Prop}
    (hinv : Inv owned holds s) {θ : Θ} {a : A} {s' : State Θ L A N}
    (hstep : Step s (.delete θ a) s') :
    s.status a = .retired ∧ ∀ θ', ¬holds θ' a := by
  cases hstep with
  | delete θ n hazard h hn =>
    have howns := hinv.owns θ
    have hcovers := hinv.covers θ
    rw [h] at howns hcovers
    obtain ⟨ms, hθ, -⟩ := Chain.exists_cons howns
    have hmem : n ∈ owned (some θ) := hθ ▸ List.mem_cons_self
    exact ⟨hinv.retired hmem, fun θ' hθ' ↦ hn (hcovers _ (List.mem_map_of_mem hmem) θ' hθ')⟩

/-- **Safe reclamation.**  Whatever the threads do and in whatever order, if objects are unlinked
before they are retired, and retired once: the deleter is only run for an object that is retired and
that no thread holds, so that what is held is never freed; and every object that has been retired
has been deleted once, or is in `free_list`, or belongs to a thread that is in `Retire` or scans. -/
theorem safe_reclamation (hrun : Trace Step (init nodes) h s) :
    (∀ θ a s', Step s (.delete θ a) s' → s.status a = .retired ∧ ∀ θ', ¬Holds h θ' a) ∧
      (∀ θ a, Holds h θ a → s.status a ≠ .free) ∧ deleted h ≤ retired h ∧
        ∃ owned, Chain s.next s.free_list (owned none) ∧
          (∀ θ, (s.places θ).Owns s.next (owned (some θ))) ∧
            Balanced owned s (retired h) (deleted h) := by
  obtain ⟨owned, hinv, hbalance⟩ := inv_of_trace hrun
  exact ⟨fun _ _ _ hstep ↦ hinv.not_holds_of_delete hstep, fun _ _ hholds ↦ (hinv.held hholds).2.2,
    hbalance.gone_le, owned, hinv.chain, hinv.owns, hbalance⟩

end Runs

/-- An object is retired while a thread holds it. -/
theorem safe_reclamation_held :
    ∃ h s, Trace Step (init fun _ ↦ ⟨0, none⟩ : State Bool Unit ℕ ℕ) h s ∧
    Holds h true 0 ∧ retired h = {0} ∧
      (∀ θ a s', Step s (.delete θ a) s' → s.status a = .retired ∧ ∀ θ', ¬Holds h θ' a) ∧
        (∀ θ a, Holds h θ a → s.status a ≠ .free) ∧ deleted h ≤ retired h ∧
          ∃ owned, Chain s.next s.free_list (owned none) ∧
            (∀ θ, (s.places θ).Owns s.next (owned (some θ))) ∧
              Balanced owned s (retired h) (deleted h) := by
  have hacquired := (.nil : Trace Step (init fun _ ↦ ⟨0, none⟩ : State Bool Unit ℕ ℕ) [] _)
    |>.snoc (.register true rfl rfl)
    |>.snoc (.allocate 0 rfl)
    |>.snoc (.exchange () (some 0) (by simp))
    |>.snoc (.acquire true () rfl (by simp [init]))
    |>.snoc (.store true () (some 0) rfl)
    |>.snoc (.acquired true () (some 0) rfl rfl)
  have hrun := hacquired
    |>.snoc (.exchange () none nofun)
    |>.snoc (.retire false 0 0 rfl rfl (fun _ ↦ nofun) rfl)
  refine ⟨_, _, hrun, ?_, rfl, safe_reclamation hrun⟩
  simp only [holds_append, Label.after]
  exact .inr ⟨.inr ⟨.inl trivial, by simp [Label.GivesUp]⟩, by simp [Label.GivesUp]⟩

/-! ## One hazard pointer for a thread

What `Acquire` returns is protected until `Release` or the next `Acquire`, not longer. -/

/-- A thread has an object from `Acquire`, and another one has retired so many objects. -/
structure Crowded (k : ℕ) (s : State Bool Unit ℕ ℕ) : Prop where
  places : s.places = fun _ ↦ .idle
  location : s.locations () = some 0
  first : s.status 0 = .allocated
  fresh : ∀ a, a = 1 ∨ k + 2 ≤ a → s.status a = .free
  hazard_ptr : s.hazard_ptr true = some 0
  threads : s.threads = [true]
  threads_lock : s.threads_lock = none
  scan_lock : s.scan_lock = none
  allocated : ∀ n, k ≤ n → s.allocated n = false
  size : s.approximate_free_list_size = k

/-- One more object is retired. -/
theorem Crowded.next {k : ℕ} {s : State Bool Unit ℕ ℕ} (hs : Crowded k s) (hk : k < 15) :
    ∃ h s', Trace Step s h s' ∧ (∀ x ∈ h, x.2 ≠ .release true) ∧ Crowded (k + 1) s' := by
  have hrun := (.nil : Trace Step s [] s)
    |>.snoc (.allocate (k + 2) (hs.fresh _ (.inr (Nat.le_refl _))))
    |>.snoc (.retire false (k + 2) k (congrFun hs.places false) (update_self _ _ _)
      (fun ptr ↦ by simp [hs.location]) (hs.allocated k (Nat.le_refl _)))
    |>.snoc (.push false k rfl (by simp [State.next, State.go]))
    |>.snoc (.count false rfl)
    |>.snoc (.compare false rfl)
  refine ⟨_, _, hrun, by simp, ?_⟩
  have hsize : ¬s.approximate_free_list_size + 1 > kFreeListMaxSize := by
    simp only [kFreeListMaxSize, hs.size]
    omega
  constructor
  · simp only [State.go, hsize, if_false, Function.update_idem, hs.places]
    exact Function.update_eq_self false _
  · exact hs.location
  · simp [State.go, hs.first, update_of_ne]
  · intro a ha
    simp only [State.go]
    rw [update_of_ne (by omega), update_of_ne (by omega), hs.fresh a (by omega)]
  · exact hs.hazard_ptr
  · exact hs.threads
  · exact hs.threads_lock
  · exact hs.scan_lock
  · intro n hn
    simp only [State.go]
    rw [update_of_ne (by omega), hs.allocated n (by omega)]
  · simp [State.go, hs.size]

theorem Crowded.all {s : State Bool Unit ℕ ℕ} (hs : Crowded 0 s) (k : ℕ) (hk : k ≤ 15) :
    ∃ h s', Trace Step s h s' ∧ (∀ x ∈ h, x.2 ≠ .release true) ∧ Crowded k s' := by
  induction k with
  | zero => exact ⟨[], s, .nil, nofun, hs⟩
  | succ k ih =>
    obtain ⟨h, s', hrun, hh, hs'⟩ := ih (Nat.le_of_succ_le hk)
    obtain ⟨h', s'', hrun', hh', hs''⟩ := hs'.next hk
    refine ⟨_, _, hrun.append hrun', fun x hx ↦ ?_, hs''⟩
    exact (List.mem_append.mp hx).elim (hh x) (hh' x)

/-- The object is unlinked, the thread calls `Acquire` again, and the sixteenth `Retire` deletes the
object. -/
theorem Crowded.deletes {s : State Bool Unit ℕ ℕ} (hs : Crowded 15 s) :
    ∃ h s₁ s₂, Trace Step s h s₁ ∧ (∀ x ∈ h, x.2 ≠ .release true) ∧ true ∈ s₁.threads ∧
      Step s₁ (.delete false 0) s₂ := by
  have hidle : ∀ θ, s.places θ = .idle := fun θ ↦ congrFun hs.places θ
  have hacquired := (.nil : Trace Step s [] s)
    |>.snoc (.allocate 1 (hs.fresh 1 (.inl rfl)))
    |>.snoc (.exchange () (some 1) (by simp))
    |>.snoc (.acquire true () (hidle true) (by simp [hs.threads]))
    |>.snoc (.store true () (some 1) rfl)
    |>.snoc (.acquired true () (some 1) rfl rfl)
  have hretired := hacquired
    |>.snoc (.retire false 0 15 (hidle false) (by simp [State.go, hs.first]) (by simp [State.go])
      (hs.allocated 15 (Nat.le_refl _)))
    |>.snoc (.push false 15 rfl (by simp [State.next, State.go]))
    |>.snoc (.count false rfl)
    |>.snoc (.compare false rfl)
  have hscanned := hretired
    |>.snoc (.reset false (by simp [State.go, hs.size, kFreeListMaxSize]))
    |>.snoc (.tryLock false rfl hs.scan_lock)
    |>.snoc (.take false rfl)
    |>.snoc (.lockThreads false (some 15) rfl hs.threads_lock)
    |>.snoc (.readSlot false (some 15) [] s.threads true rfl (by simp [hs.threads]))
    |>.snoc (.unlockThreads false (some 15) [1] (by simp [State.go, hs.threads]))
  exact ⟨_, _, _, hscanned, by simp, by simp [State.go, hs.threads],
    .delete false 15 [1] rfl (by simp [State.value, State.go])⟩

/-- One thread is registered and gets an object. -/
theorem exists_acquired : ∃ h s₁ s, Trace Step (init fun _ ↦ ⟨0, none⟩ : State Bool Unit ℕ ℕ)
    (h ++ [(s₁, .acquired true (some 0))]) s ∧ Crowded 0 s := by
  have hrun := (.nil : Trace Step (init fun _ ↦ ⟨0, none⟩ : State Bool Unit ℕ ℕ) [] _)
    |>.snoc (.register true rfl rfl)
    |>.snoc (.allocate 0 rfl)
    |>.snoc (.exchange () (some 0) (by simp))
    |>.snoc (.acquire true () rfl (by simp [init]))
    |>.snoc (.store true () (some 0) rfl)
    |>.snoc (.acquired true () (some 0) rfl rfl)
  refine ⟨_, _, _, hrun, ?_, rfl, rfl, fun a ha ↦ ?_, rfl, rfl, rfl, rfl, fun _ _ ↦ rfl, rfl⟩
  · funext θ
    cases θ <;> rfl
  · exact update_of_ne (by omega) _ _

/-- **`Acquire` may be called again without `Release`**, and then the object that it has returned
before is deleted, although the thread is registered and has not called `Release`. -/
theorem deleted_before_release :
    ∃ h s s', Trace Step (init fun _ ↦ ⟨0, none⟩ : State Bool Unit ℕ ℕ) h s ∧
    true ∈ s.threads ∧ Step s (.delete false 0) s' ∧ HeldUntil (· = .release true) h true 0 := by
  obtain ⟨h₁, s₁, s₂, hacquired, hs₂⟩ := exists_acquired
  obtain ⟨h₂, s₃, hcrowded, hh₂, hs₃⟩ := hs₂.all 15 (Nat.le_refl _)
  obtain ⟨h₃, s, s', hrun, hh₃, hregistered, hdelete⟩ := hs₃.deletes
  refine ⟨_, s, s', (hacquired.append hcrowded).append hrun, hregistered, hdelete, h₁, s₁,
    h₂ ++ h₃, by simp, fun x hx ↦ ?_⟩
  exact (List.mem_append.mp hx).elim (hh₂ x) (hh₃ x)

end HazardPtr
end ManyTasks
