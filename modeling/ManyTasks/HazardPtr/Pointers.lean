import ManyTasks.Lib.Chain
import ManyTasks.Lib.Transition

/-!
# Hazard pointers

Objects are reached through shared atomic pointers, the `locations`.  A thread that wants to use one
calls `Acquire`: it loads the pointer, publishes it in its `hazard_ptr`, and loads again to see that
it is still there.  Who takes an object away calls `Retire`, which puts it into `free_list`;
`ScanFreeList` takes this list, reads the hazard pointers of all threads that are registered, one
after another, runs the deleter of every object that it has not found and puts the others back.

The users promise two things, and they are conditions of the steps: a location is only set to an
object that has been allocated and is not retired, and an object is retired when no location points
to it any more, and once.  An address that has been freed can be allocated again.

What a thread has from `Acquire` it holds until it calls `Release`.  As it has one `hazard_ptr` it
holds one object at a time, and `Acquire` gives up what it held before (`Label.GivesUp`).

Of `std::sort` and `std::binary_search` only that they say what is in the list is used, and the
order in which an `unordered_set` is traversed may be any.
-/

set_option autoImplicit false

namespace ManyTasks
namespace HazardPtr

open Function (update)

structure RetiredPtr (A N : Type) where
  value : A
  next : Option N
deriving DecidableEq, Repr

/-- What an address is used for. -/
inductive Status where
  | free
  | allocated
  | retired
deriving DecidableEq, Repr

/-- Where a thread is. -/
inductive Place (Θ L A N : Type) where
  | idle
  /-- In `Acquire`, before `hazard_ptr.store(value)`. -/
  | storing (ptr : L) (value : Option A)
  /-- In `Acquire`, before the pointer is loaded again. -/
  | validating (ptr : L) (value : Option A)
  /-- In `Retire`, before `free_list.compare_exchange_weak`. -/
  | pushing (retired_ptr : N)
  /-- Before `approximate_free_list_size.fetch_add(1)`. -/
  | counting
  /-- Before the size is compared with `kFreeListMaxSize`. -/
  | comparing
  /-- In `ScanFreeList`, before `approximate_free_list_size.store(0)`. -/
  | resetting
  /-- Before `scan_lock.try_lock()`. -/
  | trying
  /-- Before `free_list.exchange(nullptr)`. -/
  | exchanging
  /-- Before `threads_lock` is taken. -/
  | locking (retired : Option N)
  /-- In the loop over `threads`; `todo` are those that are left. -/
  | scanning (retired : Option N) (hazard : List A) (todo : List Θ)
  /-- In the loop over the retired objects. -/
  | walking (retired : Option N) (hazard : List A)
  /-- Before `free_list.compare_exchange_weak`, for a node that is put back. -/
  | returning (node : N) (retired : Option N) (hazard : List A)
deriving DecidableEq, Repr

/-- The shared variables, the memory and the threads. -/
structure State (Θ L A N : Type) where
  locations : L → Option A
  status : A → Status
  hazard_ptr : Θ → Option A
  threads : List Θ
  threads_lock : Option Θ
  free_list : Option N
  nodes : N → RetiredPtr A N
  /-- Which nodes exist. -/
  allocated : N → Bool
  approximate_free_list_size : ℕ
  scan_lock : Option Θ
  places : Θ → Place Θ L A N

variable {Θ L A N : Type}

def kFreeListMaxSize : ℕ := 15

/-- The pointer in a node. -/
def State.next (s : State Θ L A N) (n : N) : Option N := (s.nodes n).next

/-- The object of a node. -/
def State.value (s : State Θ L A N) (n : N) : A := (s.nodes n).value

/-- No objects and no threads, and any memory. -/
def init (nodes : N → RetiredPtr A N) : State Θ L A N where
  locations _ := none
  status _ := .free
  hazard_ptr _ := none
  threads := []
  threads_lock := none
  free_list := none
  nodes := nodes
  allocated _ := false
  approximate_free_list_size := 0
  scan_lock := none
  places _ := .idle

/-- What a step is, and whose. -/
inductive Label (Θ A : Type) where
  /-- `Acquire` is called. -/
  | acquire (θ : Θ)
  /-- `Acquire` returns. -/
  | acquired (θ : Θ) (value : Option A)
  | release (θ : Θ)
  | unregister (θ : Θ)
  /-- `Retire` is called. -/
  | retire (θ : Θ) (value : A)
  /-- The deleter is run. -/
  | delete (θ : Θ) (value : A)
  | tau
deriving DecidableEq

variable [DecidableEq Θ] [DecidableEq L] [DecidableEq A] [DecidableEq N]

/-- A thread goes on to another place. -/
def State.go (s : State Θ L A N) (θ : Θ) (p : Place Θ L A N) : State Θ L A N :=
  { s with places := update s.places θ p }

/-- `next` of a node is set. -/
def State.link (s : State Θ L A N) (n : N) (next : Option N) : State Θ L A N :=
  { s with nodes := update s.nodes n ⟨s.value n, next⟩ }

omit [DecidableEq Θ] [DecidableEq L] [DecidableEq A] in
@[simp]
theorem State.value_link (s : State Θ L A N) (n : N) (next : Option N) :
    (s.link n next).value = s.value := by
  funext m
  by_cases hm : m = n
  · subst hm
    have hnode : (s.link m next).nodes m = ⟨s.value m, next⟩ := Function.update_self _ _ _
    exact (congrArg RetiredPtr.value hnode).trans rfl
  · exact congrArg RetiredPtr.value (Function.update_of_ne hm _ _)

/-- One step. -/
inductive Step : State Θ L A N → Label Θ A → State Θ L A N → Prop where
  /-- A user makes an object. -/
  | allocate {s} (a) (ha : s.status a = .free) :
      Step s .tau { s with status := update s.status a .allocated }
  /-- A user sets a location. -/
  | exchange {s} (ptr value) (ha : ∀ a, value = some a → s.status a = .allocated) :
      Step s .tau { s with locations := update s.locations ptr value }
  | register {s} (θ) (h : s.places θ = .idle) (hlock : s.threads_lock = none) :
      Step s .tau { s with threads := θ :: s.threads }
  | unregister {s} (θ) (h : s.places θ = .idle) (hlock : s.threads_lock = none) :
      Step s (.unregister θ)
        ({ s with threads := s.threads.erase θ }.go θ
          (if (s.threads.erase θ).length = 0 then .resetting else .idle))
  | acquire {s} (θ ptr) (h : s.places θ = .idle) (hθ : θ ∈ s.threads) :
      Step s (.acquire θ) (s.go θ (.storing ptr (s.locations ptr)))
  | store {s} (θ ptr value) (h : s.places θ = .storing ptr value) :
      Step s .tau
        ({ s with hazard_ptr := update s.hazard_ptr θ value }.go θ (.validating ptr value))
  | acquired {s} (θ ptr value) (h : s.places θ = .validating ptr value)
      (hvalue : s.locations ptr = value) : Step s (.acquired θ value) (s.go θ .idle)
  | again {s} (θ ptr value) (h : s.places θ = .validating ptr value)
      (hvalue : s.locations ptr ≠ value) :
      Step s .tau (s.go θ (.storing ptr (s.locations ptr)))
  | release {s} (θ) (h : s.places θ = .idle) :
      Step s (.release θ) { s with hazard_ptr := update s.hazard_ptr θ none }
  /-- A node is made for the object, with the present `free_list` as `next`. -/
  | retire {s} (θ a n) (h : s.places θ = .idle) (ha : s.status a = .allocated)
      (hunlinked : ∀ ptr, s.locations ptr ≠ some a) (hn : s.allocated n = false) :
      Step s (.retire θ a)
        ({ s with status := update s.status a .retired,
                  nodes := update s.nodes n ⟨a, s.free_list⟩,
                  allocated := update s.allocated n true }.go θ (.pushing n))
  | push {s} (θ n) (h : s.places θ = .pushing n) (hlist : s.free_list = s.next n) :
      Step s .tau ({ s with free_list := some n }.go θ .counting)
  /-- The exchange fails, and loads `free_list` into `next`. -/
  | pushFail {s} (θ n) (h : s.places θ = .pushing n) : Step s .tau (s.link n s.free_list)
  | count {s} (θ) (h : s.places θ = .counting) :
      Step s .tau
        ({ s with approximate_free_list_size := s.approximate_free_list_size + 1 }.go θ .comparing)
  | compare {s} (θ) (h : s.places θ = .comparing) :
      Step s .tau
        (s.go θ (if s.approximate_free_list_size > kFreeListMaxSize then .resetting else .idle))
  | reset {s} (θ) (h : s.places θ = .resetting) :
      Step s .tau ({ s with approximate_free_list_size := 0 }.go θ .trying)
  /-- `try_lock` fails. -/
  | busy {s} (θ) (h : s.places θ = .trying) : Step s .tau (s.go θ .idle)
  | tryLock {s} (θ) (h : s.places θ = .trying) (hlock : s.scan_lock = none) :
      Step s .tau ({ s with scan_lock := some θ }.go θ .exchanging)
  | take {s} (θ) (h : s.places θ = .exchanging) :
      Step s .tau ({ s with free_list := none }.go θ (.locking s.free_list))
  | lockThreads {s} (θ retired) (h : s.places θ = .locking retired)
      (hlock : s.threads_lock = none) :
      Step s .tau ({ s with threads_lock := some θ }.go θ (.scanning retired [] s.threads))
  | readSlot {s} (θ retired hazard todo θ') (h : s.places θ = .scanning retired hazard todo)
      (hθ' : θ' ∈ todo) :
      Step s .tau
        (s.go θ (.scanning retired (hazard ++ (s.hazard_ptr θ').toList) (todo.erase θ')))
  | unlockThreads {s} (θ retired hazard) (h : s.places θ = .scanning retired hazard []) :
      Step s .tau ({ s with threads_lock := none }.go θ (.walking retired hazard))
  /-- `node->deleter(); delete node;` -/
  | delete {s} (θ n hazard) (h : s.places θ = .walking (some n) hazard) (hn : s.value n ∉ hazard) :
      Step s (.delete θ (s.value n))
        ({ s with status := update s.status (s.value n) .free,
                  allocated := update s.allocated n false }.go θ (.walking (s.next n) hazard))
  /-- `node->next = free_list.load()` -/
  | keep {s} (θ n hazard) (h : s.places θ = .walking (some n) hazard) (hn : s.value n ∈ hazard) :
      Step s .tau ((s.link n s.free_list).go θ (.returning n (s.next n) hazard))
  | putBack {s} (θ n retired hazard) (h : s.places θ = .returning n retired hazard)
      (hlist : s.free_list = s.next n) :
      Step s .tau ({ s with free_list := some n }.go θ (.walking retired hazard))
  | putBackFail {s} (θ n retired hazard) (h : s.places θ = .returning n retired hazard) :
      Step s .tau (s.link n s.free_list)
  | finish {s} (θ hazard) (h : s.places θ = .walking none hazard) :
      Step s .tau ({ s with scan_lock := none }.go θ .idle)

/-! ## Who holds what -/

/-- The thread does not hold any more what it has held. -/
def Label.GivesUp (θ : Θ) (l : Label Θ A) : Prop :=
  l = .release θ ∨ l = .acquire θ ∨ l = .unregister θ

/-- `Acquire` has returned the object to the thread, and nothing that ends this has happened
since. -/
def HeldUntil {S : Type} (ends : Label Θ A → Prop) (h : List (S × Label Θ A)) (θ : Θ)
    (a : A) : Prop :=
  ∃ h₁ s₁ h₂, h = h₁ ++ (s₁, .acquired θ (some a)) :: h₂ ∧ ∀ x ∈ h₂, ¬ends x.2

/-- The thread holds the object. -/
def Holds {S : Type} (h : List (S × Label Θ A)) (θ : Θ) (a : A) : Prop :=
  HeldUntil (Label.GivesUp θ) h θ a

/-- Who holds what after a step. -/
def Label.after (holds : Θ → A → Prop) (l : Label Θ A) (θ : Θ) (a : A) : Prop :=
  l = .acquired θ (some a) ∨ (holds θ a ∧ ¬l.GivesUp θ)

omit [DecidableEq Θ] [DecidableEq A] in
theorem holds_append {S : Type} (h : List (S × Label Θ A)) (s : S) (l : Label Θ A) (θ : Θ) (a : A) :
    Holds (h ++ [(s, l)]) θ a ↔ l.after (Holds h) θ a := by
  constructor
  · rintro ⟨h₁, s₁, h₂, heq, hends⟩
    rcases List.eq_nil_or_concat h₂ with rfl | ⟨h₃, x, rfl⟩
    · obtain ⟨-, hx⟩ := List.append_inj' heq rfl
      exact .inl (congrArg Prod.snd (List.singleton_inj.mp hx))
    · rw [List.concat_eq_append, ← List.cons_append, ← List.append_assoc] at heq
      obtain ⟨hh, hx⟩ := List.append_inj' heq rfl
      rw [List.concat_eq_append, ← List.singleton_inj.mp hx] at hends
      exact .inr ⟨⟨h₁, s₁, h₃, hh, fun y hy ↦ hends y (List.mem_append_left _ hy)⟩,
        hends _ (List.mem_append_right _ List.mem_cons_self)⟩
  · rintro (rfl | ⟨⟨h₁, s₁, h₂, rfl, hends⟩, hl⟩)
    · exact ⟨h, s, [], rfl, nofun⟩
    · refine ⟨h₁, s₁, h₂ ++ [(s, l)], by simp, fun x hx ↦ ?_⟩
      rcases List.mem_append.mp hx with hx | hx
      · exact hends x hx
      · rw [List.mem_singleton.mp hx]
        exact hl

omit [DecidableEq Θ] [DecidableEq A] in
/-- Most steps do not change who holds what. -/
theorem Label.after_of_quiet {holds : Θ → A → Prop} {l : Label Θ A}
    (hacquired : ∀ θ a, l ≠ .acquired θ a) (hkeeps : ∀ θ, ¬l.GivesUp θ) :
    l.after holds = holds := by
  funext θ a
  simp [Label.after, hacquired θ (some a), hkeeps θ]

end HazardPtr
end ManyTasks
