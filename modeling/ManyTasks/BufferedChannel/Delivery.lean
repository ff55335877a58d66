import ManyTasks.BufferedChannel.Channel

/-!
# What is sent is received

The values that `Send` has accepted, in their order, are those that `Recv` has returned and after
them those in the queue (`Inv.delivered`).  What a call may rely on after its wait, although the
flag may have been set since, is that the condition still holds (`Place.Fits`): the queue belongs to
the holder of the mutex, and the flag is never cleared.
-/

set_option autoImplicit false
set_option linter.unusedSectionVars false

namespace ManyTasks
namespace BufferedChannel

open Function (update update_self update_of_ne)
open Lib (Trace)

variable {C V : Type}

def Label.accepted : Label C V → Option V
  | .accept _ value => some value
  | _ => none

def Label.received : Label C V → Option V
  | .receive _ value => some value
  | _ => none

/-- The values accepted by `Send`. -/
def accepted (h : List (State C V × Label C V)) : List V := h.filterMap fun x ↦ x.2.accepted

/-- The values returned by `Recv`. -/
def received (h : List (State C V × Label C V)) : List V := h.filterMap fun x ↦ x.2.received

theorem accepted_append (h : List (State C V × Label C V)) (s : State C V) (l : Label C V) :
    accepted (h ++ [(s, l)]) = accepted h ++ l.accepted.toList :=
  Lib.filterMap_snoc Label.accepted h s l

theorem received_append (h : List (State C V × Label C V)) (s : State C V) (l : Label C V) :
    received (h ++ [(s, l)]) = received h ++ l.received.toList :=
  Lib.filterMap_snoc Label.received h s l

/-! ## The mutex -/

/-- It holds the mutex. -/
def Place.holds : Place V → Bool
  | .testing _ | .tired _ | .passed _ | .pushing _ => true
  | _ => false

/-- Who is where the mutex is held is the one who holds it. -/
def Locked (s : State C V) : Prop := Lib.Owned Place.holds s.places s.edit_queue_

variable [DecidableEq C]

theorem holds_of_awake {p p' : Place V} (h : p' = p ∨ ∃ op, p = .asleep op ∧ p' = .awake op) :
    p'.holds = p.holds := by
  rcases h with rfl | ⟨op, rfl, rfl⟩ <;> rfl

theorem locked_step {s s' : State C V} {l : Label C V} (h : Locked s) (hstep : Step s l s') :
    Locked s' := by
  have hreader {f f' : C → Place V}
      (hf : ∀ c, f' c = f c ∨ awakenReader (f c) = some (f' c)) (c : C) :
      (f' c).holds = (f c).holds :=
    holds_of_awake ((hf c).imp id fun hf ↦ ⟨_, eq_of_awakenReader hf⟩)
  have hwriter {f f' : C → Place V}
      (hf : ∀ c, f' c = f c ∨ awakenWriter (f c) = some (f' c)) (c : C) :
      (f' c).holds = (f c).holds :=
    holds_of_awake ((hf c).imp id fun hf ↦ (eq_of_awakenWriter hf).imp' Op.send fun _ ↦ id)
  cases hstep with
  | call | callClose | setFlag => exact h.move nofun
  | spurious => exact h.move nofun
  | enter c op hc hm | relock c op hc hm => exact Lib.Owned.take (hm ▸ h)
  | pass c op hc | fail c op hc | accepted c value hc =>
    exact h.move fun _ ↦ congrArg Place.holds hc
  | sleep c op hc | reject c value hc | nothing c hc => exact h.drop (congrArg Place.holds hc) rfl
  | accept c value f hc hf =>
    exact (h.drop (congrArg Place.holds hc) rfl).congr (hreader hf.apply)
  | receive c value rest f hc hq hf =>
    exact (h.drop (congrArg Place.holds hc) rfl).congr (hwriter hf.apply)
  | notifyReaders c hc =>
    exact Lib.Owned.move (h.congr (hreader (Lib.notifyAll_apply _ _))) nofun
  | notifyWriters c hc =>
    exact Lib.Owned.move (h.congr (hwriter (Lib.notifyAll_apply _ _))) nofun

/-! ## The queue -/

/-- What a step does to the queue is what is seen of it. -/
theorem Step.queue_ {s s' : State C V} {l : Label C V} (h : Step s l s') :
    l.received.toList ++ s'.queue_ = s.queue_ ++ l.accepted.toList := by
  cases h with
  | accept => rfl
  | receive c value rest f hc hq =>
    rw [hq]
    exact (List.append_nil _).symm
  | _ => exact (List.append_nil _).symm

/-- The flag is never cleared, and only the holder of the mutex changes the queue. -/
theorem Step.shared {s s' : State C V} {l : Label C V} (h : Step s l s') :
    s'.max_size_ = s.max_size_ ∧ (s.is_closed_ = true → s'.is_closed_ = true) ∧
      (s'.queue_ = s.queue_ ∨ (s.places l.actor).holds = true) := by
  cases h with
  | setFlag => exact ⟨rfl, fun _ ↦ rfl, .inl rfl⟩
  | accept c value f hc => exact ⟨rfl, id, .inr (congrArg Place.holds hc)⟩
  | receive c value rest f hc => exact ⟨rfl, id, .inr (congrArg Place.holds hc)⟩
  | _ => exact ⟨rfl, id, .inl rfl⟩

/-- What a call relies on. -/
def Place.Fits (s : State C V) : Place V → Prop
  | .passed op => s.ready op = true
  | .pushing _ => s.queue_.length < s.max_size_
  | _ => True

theorem Place.Fits.of_not_holds {s : State C V} {p : Place V} (hp : p.holds = false) :
    p.Fits s := by
  cases p <;> trivial

theorem Place.Fits.mono {s s' : State C V} {p : Place V} (h : p.Fits s)
    (hmax : s'.max_size_ = s.max_size_) (hq : s'.queue_ = s.queue_)
    (hclosed : s.is_closed_ = true → s'.is_closed_ = true) : p.Fits s' := by
  cases p with
  | passed op =>
    cases op <;> simp only [Fits, State.ready, hmax, hq, Bool.or_eq_true] at h ⊢ <;>
      exact h.imp_right hclosed
  | pushing =>
    simp only [Fits, hmax, hq]
    exact h
  | _ => trivial

/-- A `Send` that has pushed its value returns. -/
theorem Step.sent {s s' : State C V} {c : C} {value : V} (h : Step s (.accept c value) s') :
    s'.places c = .sent := by
  cases h with
  | accept c value f hc hf =>
    rcases hf.apply c with heq | hwoken
    · exact heq.trans (update_self _ _ _)
    · simp [awakenReader] at hwoken

/-- A `Recv` that has popped a value returns it. -/
theorem Step.received {s s' : State C V} {c : C} {value : V} (h : Step s (.receive c value) s') :
    s'.places c = .received value := by
  cases h with
  | receive c value rest f hc hq hf =>
    rcases hf.apply c with heq | hwoken
    · exact heq.trans (update_self _ _ _)
    · simp [awakenWriter] at hwoken

theorem fits_step {s s' : State C V} {l : Label C V} (hlocked : Locked s)
    (hfits : ∀ c, (s.places c).Fits s) (hstep : Step s l s') (c : C) : (s'.places c).Fits s' := by
  obtain ⟨hmax, hclosed, hq⟩ := hstep.shared
  by_cases hc : c = l.actor
  · subst hc
    cases id hstep with
    | pass c op hc hr =>
      simp only [Label.actor, update_self]
      exact hr
    | accepted c value hc hopen =>
      have hready := hfits c
      rw [hc] at hready
      simp only [Place.Fits, State.ready, hopen, Bool.or_false, decide_eq_true_eq] at hready
      simp only [Label.actor, update_self]
      exact hready
    | accept c value f hc hf =>
      rw [Label.actor, hstep.sent]
      trivial
    | receive c value rest f hc hvalue hf =>
      rw [Label.actor, hstep.received]
      trivial
    | _ =>
      simp only [Label.actor, update_self]
      trivial
  · rcases hstep.other hc with heq | ⟨op, -, hawake⟩
    · rw [heq]
      cases hheld : (s.places c).holds with
      | false => exact .of_not_holds hheld
      | true =>
        refine (hfits c).mono hmax (hq.resolve_right fun hactor ↦ ?_) hclosed
        exact hc (hlocked.unique hheld hactor)
    · rw [hawake]
      trivial

/-- Everything that was accepted is received or in the queue, and the queue is not too long. -/
structure Inv (size : ℕ) (h : List (State C V × Label C V)) (s : State C V) : Prop where
  locked : Locked s
  fits : ∀ c, (s.places c).Fits s
  max_size_ : s.max_size_ = size
  bound : s.queue_.length ≤ s.max_size_
  delivered : received h ++ s.queue_ = accepted h

theorem inv_init (size : ℕ) : Inv size [] (init size : State C V) where
  locked := nofun
  fits _ := trivial
  max_size_ := rfl
  bound := Nat.zero_le _
  delivered := rfl

theorem bound_step {s s' : State C V} {l : Label C V} (hfits : ∀ c, (s.places c).Fits s)
    (hbound : s.queue_.length ≤ s.max_size_) (hstep : Step s l s') :
    s'.queue_.length ≤ s'.max_size_ := by
  cases hstep with
  | accept c value f hc =>
    have hroom := hfits c
    rw [hc] at hroom
    rw [List.length_append]
    exact hroom
  | receive c value rest f hc hq =>
    rw [hq, List.length_cons] at hbound
    exact (Nat.le_succ _).trans hbound
  | _ => exact hbound

theorem inv_step {size : ℕ} {h : List (State C V × Label C V)} {s s' : State C V} {l : Label C V}
    (hinv : Inv size h s) (hstep : Step s l s') : Inv size (h ++ [(s, l)]) s' where
  locked := locked_step hinv.locked hstep
  fits := fits_step hinv.locked hinv.fits hstep
  max_size_ := hstep.shared.1.trans hinv.max_size_
  bound := bound_step hinv.fits hinv.bound hstep
  delivered := by
    rw [received_append, accepted_append, List.append_assoc, hstep.queue_, ← List.append_assoc,
      hinv.delivered]

theorem inv_of_trace {size : ℕ} {h : List (State C V × Label C V)} {s : State C V}
    (hrun : Trace Step (init size) h s) : Inv size h s :=
  hrun.invariant (I := Inv size) (inv_init size) fun _ _ _ _ ↦ inv_step

/-! ## After the flag has been set -/

/-- It is a `Send` on its way to throw, or has thrown. -/
def Place.Doomed (p : Place V) : Prop :=
  (∃ value, p = .testing (.send value) ∨ p = .passed (.send value)) ∨ p = .threw

theorem doomed_step {s s' : State C V} {l : Label C V} {c : C} (hclosed : s.is_closed_ = true)
    (hc : (s.places c).Doomed) (hstep : Step s l s') :
    (s'.places c).Doomed ∧ ∀ value, l ≠ .accept c value := by
  by_cases hactor : c = l.actor
  · subst hactor
    cases hstep with
    | pass c op h =>
      rw [Label.actor, h] at hc
      simp only [Label.actor, update_self]
      refine ⟨.inl ?_, nofun⟩
      simpa [Place.Doomed] using hc
    | fail c op h hr =>
      rw [Label.actor, h] at hc
      obtain ⟨value, rfl⟩ : ∃ value, op = .send value := by simpa [Place.Doomed] using hc
      simp [State.ready, hclosed] at hr
    | reject c value h =>
      simp only [Label.actor, update_self]
      exact ⟨.inr rfl, nofun⟩
    | accepted c value h hopen =>
      rw [hopen] at hclosed
      cases hclosed
    | _ =>
      rename_i h
      simp_all [Label.actor, Place.Doomed]
  · refine ⟨?_, fun value hl ↦ hactor (by rw [hl]; rfl)⟩
    rcases hstep.other hactor with heq | ⟨op, hasleep, -⟩
    · rw [heq]
      exact hc
    · simp [hasleep, Place.Doomed] at hc

theorem Step.actor_ne_sent {s s' : State C V} {l : Label C V} (h : Step s l s') :
    s.places l.actor ≠ .sent := by
  cases h <;> simp [Label.actor, *]

/-- A call that has pushed its value has returned, and stays so. -/
theorem sent_of_accept {size : ℕ} {h : List (State C V × Label C V)} {s : State C V}
    (hrun : Trace Step (init size) h s) :
    ∀ x ∈ h, ∀ c value, x.2 = .accept c value → s.places c = .sent := by
  induction hrun with
  | nil => nofun
  | @snoc h s s' l _ hstep ih =>
    intro x hx c value hl
    rcases List.mem_append.mp hx with hx | hx
    · have hsent := ih x hx c value hl
      by_cases hactor : c = l.actor
      · exact absurd (hactor ▸ hsent) hstep.actor_ne_sent
      · rcases hstep.other hactor with heq | ⟨op, hasleep, -⟩
        · rw [heq, hsent]
        · simp [hsent] at hasleep
    · obtain rfl := List.mem_singleton.mp hx
      obtain rfl : l = .accept c value := hl
      exact hstep.sent

/-- A `Send` that takes the mutex after the flag has been set is doomed. -/
theorem doomed_of_lock {size : ℕ} {h : List (State C V × Label C V)} {s : State C V}
    (hrun : Trace Step (init size) h s) :
    ∀ x ∈ h, ∀ c value, x.2 = .lock c (.send value) → x.1.is_closed_ = true →
      s.is_closed_ = true ∧ (s.places c).Doomed ∧ ∀ y ∈ h, ∀ value', y.2 ≠ .accept c value' := by
  induction hrun with
  | nil => nofun
  | @snoc h s s' l hrun hstep ih =>
    intro x hx c value hl hclosed
    rcases List.mem_append.mp hx with hx | hx
    · obtain ⟨hclosed, hdoomed, hnever⟩ := ih x hx c value hl hclosed
      obtain ⟨hdoomed', hlast⟩ := doomed_step hclosed hdoomed hstep
      refine ⟨hstep.shared.2.1 hclosed, hdoomed', fun y hy ↦ ?_⟩
      rcases List.mem_append.mp hy with hy | hy
      · exact hnever y hy
      · obtain rfl := List.mem_singleton.mp hy
        exact hlast
    · obtain rfl := List.mem_singleton.mp hx
      obtain rfl : l = .lock c (.send value) := hl
      refine ⟨hstep.shared.2.1 hclosed, ?_, fun y hy value' hy' ↦ ?_⟩
      · cases hstep <;> simp [Place.Doomed]
      · rcases List.mem_append.mp hy with hy | hy
        · have hsent := sent_of_accept hrun y hy c value' hy'
          cases hstep <;> simp_all
        · obtain rfl := List.mem_singleton.mp hy
          cases hy'

/-- Its own steps bring it to its end. -/
theorem threw_of_doomed {s : State C V} {c : C} (hclosed : s.is_closed_ = true)
    (hc : (s.places c).Doomed) :
    ∃ h s', Trace Step s h s' ∧ (∀ x ∈ h, x.2.actor = c) ∧ s'.places c = .threw := by
  have hpassed {s : State C V} {value : V} (hclosed : s.is_closed_ = true)
      (hc : s.places c = .passed (.send value)) :
      ∃ h s', Trace Step s h s' ∧ (∀ x ∈ h, x.2.actor = c) ∧ s'.places c = .threw :=
    ⟨_, _, .cons (.reject c value hc hclosed) .nil, by simp [Label.actor], update_self _ _ _⟩
  obtain ⟨value, hc | hc⟩ | hc := hc
  · have hready : s.ready (.send value) = true := by simp [State.ready, hclosed]
    obtain ⟨h, s', hrun, hactor, hthrew⟩ :=
      @hpassed { s with places := update s.places c (.passed (.send value)) } value hclosed
        (update_self _ _ _)
    refine ⟨_, s', .cons (.pass c _ hc hready) hrun, fun x hx ↦ ?_, hthrew⟩
    rcases List.mem_cons.mp hx with rfl | hx
    · rfl
    · exact hactor x hx
  · exact hpassed hclosed hc
  · exact ⟨[], s, .nil, nofun, hc⟩

/-! ## Every run -/

/-- **Delivery.**  What `Recv` has returned is the beginning of what `Send` has accepted, and the
queue, which is never too long, is the rest.  A `Send` that takes the mutex after the flag has been
set delivers nothing: it has thrown, or its next steps are to throw.  When `Recv` returns nothing,
the channel is closed and everything that had been accepted has been received. -/
theorem delivery {size : ℕ} {h : List (State C V × Label C V)} {s : State C V}
    (hrun : Trace Step (init size) h s) :
    received h <+: accepted h ∧ received h ++ s.queue_ = accepted h ∧ s.queue_.length ≤ size ∧
      (∀ x ∈ h, ∀ c value, x.2 = .lock c (.send value) → x.1.is_closed_ = true →
        (∀ y ∈ h, ∀ value', y.2 ≠ .accept c value') ∧ (s.places c).Doomed ∧
          ∃ h' s', Trace Step s h' s' ∧ (∀ y ∈ h', y.2.actor = c) ∧ s'.places c = .threw) ∧
      ∀ h₁ s₁ c h₂, h = h₁ ++ (s₁, .nothing c) :: h₂ →
        s₁.is_closed_ = true ∧ received h₁ = accepted h₁ := by
  have hinv := inv_of_trace hrun
  refine ⟨⟨_, hinv.delivered⟩, hinv.delivered, hinv.max_size_ ▸ hinv.bound, ?_, ?_⟩
  · intro x hx c value hl hclosed
    obtain ⟨hclosed', hdoomed, hnever⟩ := doomed_of_lock hrun x hx c value hl hclosed
    exact ⟨hnever, hdoomed, threw_of_doomed hclosed' hdoomed⟩
  · rintro h₁ s₁ c h₂ rfl
    obtain ⟨hrun₁, s₂, hstep, -⟩ := hrun.split
    have hinv₁ := inv_of_trace hrun₁
    cases hstep with
    | nothing c hc hq =>
      have hready := hinv₁.fits c
      rw [hc] at hready
      have hdelivered := hinv₁.delivered
      rw [hq, List.append_nil] at hdelivered
      exact ⟨by simpa [Place.Fits, State.ready, hq] using hready, hdelivered⟩

/-- A value goes through a channel of size one; then the channel is closed, another `Send` throws
and `Recv` returns nothing. -/
theorem delivery_one :
    ∃ (h : List (State (Fin 5) ℕ × Label (Fin 5) ℕ)) (s : State (Fin 5) ℕ),
      received h ++ s.queue_ = accepted h ∧ accepted h = [7] ∧ s.places 3 = .threw ∧
        s.places 4 = .nullopt := by
  have hrun := (.nil : Trace Step (init 1 : State (Fin 5) ℕ) [] (init 1))
    |>.snoc (.call 0 (.send 7) rfl)
    |>.snoc (.enter 0 (.send 7) rfl rfl)
    |>.snoc (.pass 0 (.send 7) rfl rfl)
    |>.snoc (.accepted 0 7 rfl rfl)
    |>.snoc (.accept 0 7 _ rfl (.nobody (by decide)))
    |>.snoc (.call 1 .recv rfl)
    |>.snoc (.enter 1 .recv rfl rfl)
    |>.snoc (.pass 1 .recv rfl rfl)
    |>.snoc (.receive 1 7 [] _ rfl rfl (.nobody (by decide)))
    |>.snoc (.callClose 2 rfl)
    |>.snoc (.setFlag 2 rfl)
    |>.snoc (.call 3 (.send 8) rfl)
    |>.snoc (.enter 3 (.send 8) rfl rfl)
    |>.snoc (.pass 3 (.send 8) rfl rfl)
    |>.snoc (.reject 3 8 rfl rfl)
    |>.snoc (.call 4 .recv rfl)
    |>.snoc (.enter 4 .recv rfl rfl)
    |>.snoc (.pass 4 .recv rfl rfl)
    |>.snoc (.nothing 4 rfl rfl)
  exact ⟨_, _, (delivery hrun).2.1, rfl, rfl, rfl⟩

end BufferedChannel
end ManyTasks
