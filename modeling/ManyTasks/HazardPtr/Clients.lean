import ManyTasks.HazardPtr.Reclamation

/-!
# Programs that use hazard pointers

A program that uses hazard pointers makes its calls in threads, one after the other in each of them.
Of a call it matters here whether it has begun and not returned, what it has from `Acquire`, and
whether it is in `Acquire` (`Client`).  That threads and hazard pointers agree with this is
`Client.Uses`, and what happens outside of the calls keeps it.
-/

set_option autoImplicit false

namespace ManyTasks
namespace HazardPtr

open Function (update update_self update_of_ne)

variable {C Θ L A N P : Type}

/-- The thread is in `Retire` or in `ScanFreeList`. -/
def Place.Reclaims : Place Θ L A N → Prop
  | .idle | .storing _ _ | .validating _ _ => False
  | _ => True

/-- Only threads in `Retire` and `ScanFreeList` have gone on, and no deleter has been run. -/
structure State.Background (s t : State Θ L A N) : Prop where
  locations : t.locations = s.locations
  status : t.status = s.status
  hazard_ptr : t.hazard_ptr = s.hazard_ptr
  threads : t.threads = s.threads
  places : ∀ θ, ¬(s.places θ).Reclaims → t.places θ = s.places θ

/-- What is held by a thread that does nothing stays held. -/
theorem after_of_ne {holds : Θ → A → Prop} {l : Label Θ A} (θ₀ : Θ) (hl : ∀ θ, l.GivesUp θ → θ = θ₀)
    (θ : Θ) (a : A) (hθ : θ ≠ θ₀) (h : holds θ a) : l.after holds θ a :=
  .inr ⟨h, fun hgives ↦ hθ (hl θ hgives)⟩

/-- What matters of the places of a call. -/
structure Client (P L A : Type) where
  /-- The call has begun and has not returned. -/
  Active : P → Prop
  /-- What it has from `Acquire`. -/
  protects : P → Option A
  /-- What it has loaded in `Acquire`, and from where. -/
  acquiring : P → Option (L × Option A)
  active_of_protects {p : P} {a : A} : protects p = some a → Active p
  active_of_acquiring {p : P} {x : L × Option A} : acquiring p = some x → Active p

/-- The thread is in `Acquire`. -/
def Place.Acquires (ptr : L) (value : Option A) (p : Place Θ L A N) : Prop :=
  p = .storing ptr value ∨ p = .validating ptr value

theorem Place.Acquires.not_reclaims {ptr : L} {value : Option A} {p : Place Θ L A N}
    (h : p.Acquires ptr value) : ¬p.Reclaims := by
  rcases h with rfl | rfl
  · exact id
  · exact id

/-- What a call has from `Acquire` its thread holds, a call in `Acquire` has its thread there, and a
thread is registered while it makes a call, and makes one at a time. -/
structure Client.Uses (client : Client P L A) (thread : C → Θ) (holds : Θ → A → Prop)
    (places : C → P) (t : State Θ L A N) : Prop where
  holds : ∀ {c a}, client.protects (places c) = some a → holds (thread c) a
  acquiring : ∀ {c ptr value}, client.acquiring (places c) = some (ptr, value) →
    (t.places (thread c)).Acquires ptr value
  registered : ∀ {c}, client.Active (places c) → thread c ∈ t.threads
  unique : ∀ {c d}, client.Active (places c) → client.Active (places d) →
    thread c = thread d → c = d

section Uses

variable {client : Client P L A} {thread : C → Θ} {holds holds' : Θ → A → Prop}
  {places places' : C → P} {s t : State Θ L A N}

theorem Client.Uses.free (h : client.Uses thread holds places s) {c : C}
    (hc : client.Active (places c)) (d : C) (hdc : d ≠ c) (hd : client.Active (places d)) :
    thread d ≠ thread c :=
  fun heq ↦ hdc (h.unique hd hc heq)

/-- A call goes on, and nobody else makes a call in its thread. -/
theorem Client.Uses.move (h : client.Uses thread holds places s) (c : C)
    (hfree : ∀ d, d ≠ c → client.Active (places d) → thread d ≠ thread c)
    (hregistered : thread c ∈ s.threads) (hother : ∀ d, d ≠ c → places' d = places d)
    (hplaces : ∀ θ, θ ≠ thread c → t.places θ = s.places θ) (hthreads : t.threads = s.threads)
    (hkept : ∀ θ a, θ ≠ thread c → holds θ a → holds' θ a)
    (hprotects : ∀ a, client.protects (places' c) = some a → holds' (thread c) a)
    (hacquiring : ∀ ptr value, client.acquiring (places' c) = some (ptr, value) →
      (t.places (thread c)).Acquires ptr value) : client.Uses thread holds' places' t where
  holds {d a} hd := by
    by_cases hdc : d = c
    · subst hdc
      exact hprotects a hd
    · rw [hother d hdc] at hd
      exact hkept _ a (hfree d hdc (client.active_of_protects hd)) (h.holds hd)
  acquiring {d ptr value} hd := by
    by_cases hdc : d = c
    · subst hdc
      exact hacquiring ptr value hd
    · rw [hother d hdc] at hd
      rw [hplaces _ (hfree d hdc (client.active_of_acquiring hd))]
      exact h.acquiring hd
  registered {d} hd := by
    rw [hthreads]
    by_cases hdc : d = c
    · subst hdc
      exact hregistered
    · rw [hother d hdc] at hd
      exact h.registered hd
  unique {d e} hd he heq := by
    by_cases hdc : d = c
    · subst hdc
      by_cases hed : e = d
      · exact hed.symm
      · rw [hother e hed] at he
        exact absurd heq.symm (hfree e hed he)
    · rw [hother d hdc] at hd
      by_cases hec : e = c
      · subst hec
        exact absurd heq (hfree d hdc hd)
      · rw [hother e hec] at he
        exact h.unique hd he heq

/-- A call that has begun goes on. -/
theorem Client.Uses.go [DecidableEq C] (h : client.Uses thread holds places s) {c : C}
    (hc : client.Active (places c)) {p : P} (hplaces : ∀ θ, θ ≠ thread c → t.places θ = s.places θ)
    (hthreads : t.threads = s.threads) (hkept : ∀ θ a, θ ≠ thread c → holds θ a → holds' θ a)
    (hprotects : ∀ a, client.protects p = some a → holds' (thread c) a)
    (hacquiring : ∀ ptr value, client.acquiring p = some (ptr, value) →
      (t.places (thread c)).Acquires ptr value) : client.Uses thread holds' (update places c p) t :=
  h.move c (h.free hc) (h.registered hc) (fun _ hd ↦ update_of_ne hd _ _) hplaces hthreads hkept
    (by rwa [update_self]) (by rwa [update_self])

/-- Threads in `Retire` and `ScanFreeList` go on, or a thread registers. -/
theorem Client.Uses.outside (h : client.Uses thread holds places s)
    (hplaces : ∀ θ, ¬(s.places θ).Reclaims → t.places θ = s.places θ)
    (hthreads : ∀ θ ∈ s.threads, θ ∈ t.threads) : client.Uses thread holds places t where
  holds := h.holds
  acquiring hc := by
    have hacquires := h.acquiring hc
    rwa [hplaces _ hacquires.not_reclaims]
  registered hc := hthreads _ (h.registered hc)
  unique := h.unique

variable [DecidableEq Θ] [DecidableEq L] [DecidableEq A] [DecidableEq N]

/-- A thread that makes no call unregisters. -/
theorem Client.Uses.unregister (h : client.Uses thread holds places s) {θ : Θ}
    (hstep : Step s (.unregister θ) t) (hcalls : ∀ c, client.Active (places c) → thread c ≠ θ) :
    client.Uses thread ((Label.unregister θ).after holds) places t := by
  have hplaces (θ' : Θ) (hne : θ' ≠ θ) : t.places θ' = s.places θ' := by
    cases hstep with
    | unregister => exact update_of_ne hne _ _
  have hthreads (θ' : Θ) (hne : θ' ≠ θ) (hmem : θ' ∈ s.threads) : θ' ∈ t.threads := by
    cases hstep with
    | unregister => exact (List.mem_erase_of_ne hne).mpr hmem
  refine ⟨fun hc ↦ ?_, fun hc ↦ ?_, fun hc ↦ hthreads _ (hcalls _ hc) (h.registered hc), h.unique⟩
  · refine after_of_ne θ ?_ _ _ (hcalls _ (client.active_of_protects hc)) (h.holds hc)
    simp [Label.GivesUp]
  · rw [hplaces _ (hcalls _ (client.active_of_acquiring hc))]
    exact h.acquiring hc

/-- The deleter is run. -/
theorem Client.Uses.delete (h : client.Uses thread holds places s) {θ : Θ} {a : A}
    (hstep : Step s (.delete θ a) t) : client.Uses thread holds places t := by
  cases hstep with
  | delete _ n hazard hplace hn =>
    refine h.outside (fun θ' hθ' ↦ ?_) fun _ hmem ↦ hmem
    have hne : θ' ≠ θ := by
      rintro rfl
      rw [hplace] at hθ'
      exact hθ' trivial
    exact update_of_ne hne _ _

end Uses

end HazardPtr
end ManyTasks
