import ManyTasks.Lib.Atomic

/-!
# Objects behind a lock

A lock is seen through the phases of its threads: whether a thread is outside, waits, holds the
lock, or has begun to give it back.  What a lock promises is part of what it is (`Lock`): a thread
goes through the phases in this order and by its own steps only, and who holds the lock exclusively
is the only one to hold it.

An object behind a lock keeps its data in memory that all threads share.  An operation is a program
that reads and writes these data, one access after the other, between `lock` and `unlock`.  With a
lock that can be shared, an operation that does not write may hold it together with others.

Whatever the lock is and whatever the operations do, the object is linearizable: nobody sees that an
operation consists of several accesses (`guarded_linearizable`).  An operation takes effect when its
thread gets the lock.
-/

set_option autoImplicit false

namespace ManyTasks
namespace Lib

open Function (update update_self update_of_ne)

/-! ## Locks -/

/-- How a lock is held. -/
inductive Mode where
  | shared
  | exclusive
deriving DecidableEq, Repr

/-- What a thread has to do with a lock. -/
inductive Phase where
  | outside
  /-- It has called `lock`. -/
  | waiting (m : Mode)
  /-- `lock` has returned. -/
  | holding (m : Mode)
  /-- It has called `unlock`. -/
  | leaving
deriving DecidableEq, Repr

/-- What one step of a thread may do to its phase.  `unlock` may consist of one step. -/
inductive Phase.Next : Phase → Phase → Prop where
  | stay (p : Phase) : Next p p
  | call (m : Mode) : Next .outside (.waiting m)
  | acquire (m : Mode) : Next (.waiting m) (.holding m)
  | release (m : Mode) : Next (.holding m) .leaving
  | free (m : Mode) : Next (.holding m) .outside
  | exit : Next .leaving .outside

/-- A lock, with what it promises. -/
structure Lock (Θ : Type) where
  State : Type
  init : State
  /-- The steps of a thread. -/
  Step : Θ → State → State → Prop
  phase : State → Θ → Phase
  Inv : State → Prop
  inv_init : Inv init
  inv_step {s s' : State} {θ : Θ} : Inv s → Step θ s s' → Inv s'
  outside (θ : Θ) : phase init θ = .outside
  next {s s' : State} {θ : Θ} : Inv s → Step θ s s' → (phase s θ).Next (phase s' θ)
  others {s s' : State} {θ θ' : Θ} : Step θ s s' → θ' ≠ θ → phase s' θ' = phase s θ'
  alone {s : State} {θ θ' : Θ} {m : Mode} : Inv s → phase s θ = .holding .exclusive →
    phase s θ' = .holding m → θ' = θ

/-! ## Operations -/

/-- A program that accesses the data. -/
inductive Body (D R : Type) where
  | ret (res : R)
  /-- The data become `write d`, and the program goes on with what it has read of `d`. -/
  | access (write : D → D) (next : D → Body D R)

variable {Θ C O R D : Type}

/-- The program, if nobody else is there: its result, and the data after it. -/
def Body.run : Body D R → D → R × D
  | .ret res, d => (res, d)
  | .access write next, d => (next d).run (write d)

/-- The program does not write. -/
def Body.Reads : Body D R → Prop
  | .ret _ => True
  | .access write next => (∀ d, write d = d) ∧ ∀ d, (next d).Reads

theorem Body.Reads.run_snd {b : Body D R} (h : b.Reads) (d : D) : (b.run d).2 = d := by
  induction b generalizing d with
  | ret res => rfl
  | access write next ih =>
    obtain ⟨hwrite, hnext⟩ := h
    rw [Body.run, hwrite]
    exact ih d (hnext d) d

/-- The operations of an object, and how each one holds the lock. -/
structure Object (D O R : Type) where
  mode : O → Mode
  body : O → Body D R
  reads (op : O) : mode op = .shared → (body op).Reads

/-- Every operation has the lock for itself. -/
def Object.exclusive (body : O → Body D R) : Object D O R where
  mode _ := .exclusive
  body := body
  reads op h := by cases h

/-- The operation in one go. -/
def Object.apply (obj : Object D O R) (d : D) (op : O) : R × D := (obj.body op).run d

/-! ## The object behind the lock -/

/-- How far a call has come. -/
inductive Call (Θ D O R : Type) where
  | idle
  /-- The thread will call `lock`. -/
  | called (θ : Θ) (op : O)
  /-- It is in `lock`, in the operation or in `unlock`; `rest` is what is left of the operation. -/
  | running (θ : Θ) (op : O) (rest : Body D R)
  | returned (op : O) (res : R)

/-- The thread that runs the call. -/
def Call.thread : Call Θ D O R → Option Θ
  | .called θ _ | .running θ _ _ => some θ
  | _ => none

variable (lock : Lock Θ) (obj : Object D O R)

/-- The lock, the data and the calls. -/
structure Guarded (C D O R : Type) (lock : Lock Θ) where
  lock : lock.State
  data : D
  calls : C → Call Θ D O R

/-- No call has begun. -/
def Guarded.init (C O R : Type) (d : D) : Guarded C D O R lock := ⟨lock.init, d, fun _ ↦ .idle⟩

variable [DecidableEq C]

variable {lock} in
/-- A call goes on. -/
def Guarded.put (s : Guarded C D O R lock) (l : lock.State) (d : D) (c : C) (x : Call Θ D O R) :
    Guarded C D O R lock :=
  ⟨l, d, update s.calls c x⟩

/-- One step of one thread. -/
inductive Guarded.Step : Guarded C D O R lock → Label C O R → Guarded C D O R lock → Prop where
  /-- A thread makes one call at a time. -/
  | call {s} (c θ op) (h : s.calls c = .idle) (hfree : ∀ c', (s.calls c').thread ≠ some θ) :
      Step s (.call c op) (s.put s.lock s.data c (.called θ op))
  /-- The thread calls `lock`. -/
  | enter {s} (c θ op l) (h : s.calls c = .called θ op) (hstep : lock.Step θ s.lock l)
      (hphase : lock.phase l θ = .waiting (obj.mode op)) :
      Step s .tau (s.put l s.data c (.running θ op (obj.body op)))
  /-- A step inside `lock` or `unlock`.  It gives the lock back only after the operation. -/
  | lock {s} (θ l) (hstep : lock.Step θ s.lock l) (hinside : lock.phase s.lock θ ≠ .outside)
      (hdone : ∀ m, lock.phase s.lock θ = .holding m → lock.phase l θ ≠ .holding m →
        ∃ c op res, s.calls c = .running θ op (.ret res)) :
      Step s .tau ⟨l, s.data, s.calls⟩
  | access {s} (c θ op write next m) (h : s.calls c = .running θ op (.access write next))
      (hphase : lock.phase s.lock θ = .holding m) :
      Step s .tau (s.put s.lock (write s.data) c (.running θ op (next s.data)))
  | ret {s} (c θ op res) (h : s.calls c = .running θ op (.ret res))
      (hphase : lock.phase s.lock θ = .outside) :
      Step s (.ret c res) (s.put s.lock s.data c (.returned op res))

variable {lock obj}

/-! ## What holds in every state -/

/-- A call that runs, by the phase of its thread: before it holds the lock nothing has happened,
then what is left of it will give the result that has been promised, and at the end it has. -/
def During (obj : Object D O R) (d final : D) (op : O) (rest : Body D R) (p : Progress O R) :
    Phase → Prop
  | .waiting m => m = obj.mode op ∧ rest = obj.body op ∧ p = .called op
  | .holding m => m = obj.mode op ∧ (m = .shared → rest.Reads) ∧
      ∃ res, p = .done op res ∧ rest.run d = (res, final)
  | .leaving | .outside => ∃ res, p = .done op res ∧ rest = .ret res

/-- A call, and how far it has come in the ideal. -/
inductive Stands (obj : Object D O R) (d final : D) (phase : Θ → Phase) :
    Call Θ D O R → Progress O R → Prop where
  | idle : Stands obj d final phase .idle .idle
  | called (θ op) (h : phase θ = .outside) : Stands obj d final phase (.called θ op) (.called op)
  | running (θ op rest p) (h : During obj d final op rest p (phase θ)) :
      Stands obj d final phase (.running θ op rest) p
  | returned (op res) : Stands obj d final phase (.returned op res) (.returned op res)

/-- The object in memory and the ideal one. -/
structure Line (obj : Object D O R) (s : Guarded C D O R lock) (o : Atomic C O R D) : Prop where
  inv : lock.Inv s.lock
  fits : ∀ c, Stands obj s.data o.state (lock.phase s.lock) (s.calls c) (o.calls c)
  one : ∀ c c' θ, (s.calls c).thread = some θ → (s.calls c').thread = some θ → c = c'
  busy : ∀ θ, lock.phase s.lock θ ≠ .outside → ∃ c op rest, s.calls c = .running θ op rest
  /-- While nobody writes, the data are as the operations before have left them. -/
  settled : (∀ θ, lock.phase s.lock θ ≠ .holding .exclusive) → s.data = o.state

/-- No two operations access the data at a time, unless both of them only read. -/
def RaceFree (obj : Object D O R) (s : Guarded C D O R lock) : Prop :=
  ∀ c c' θ θ' op op' rest rest' m m', s.calls c = .running θ op rest →
    s.calls c' = .running θ' op' rest' → lock.phase s.lock θ = .holding m →
    lock.phase s.lock θ' = .holding m' → c ≠ c' → obj.mode op = .shared ∧ obj.mode op' = .shared

section Lemmas

variable {d d' final final' : D} {phase phase' : Θ → Phase} {x : Call Θ D O R} {p : Progress O R}

/-- The other threads, whose phases stay: if they hold the lock, the data must not change. -/
theorem Stands.congr (h : Stands obj d final phase x p)
    (hphase : ∀ θ, x.thread = some θ → phase' θ = phase θ)
    (hdata : ∀ θ m, x.thread = some θ → phase θ = .holding m → d' = d ∧ final' = final) :
    Stands obj d' final' phase' x p := by
  cases h with
  | idle => exact .idle
  | called θ op h => exact .called θ op (by rw [hphase θ rfl, h])
  | running θ op rest p h =>
    refine .running θ op rest p ?_
    rw [hphase θ rfl]
    cases hθ : phase θ with
    | holding m =>
      obtain ⟨rfl, rfl⟩ := hdata θ m rfl hθ
      rwa [hθ] at h
    | waiting m | outside | leaving =>
      rw [hθ] at h
      exact h
  | returned op res => exact .returned op res

theorem Stands.during {θ : Θ} {op : O} {rest : Body D R}
    (h : Stands obj d final phase (.running θ op rest) p) :
    During obj d final op rest p (phase θ) := by
  cases h with
  | running _ _ _ _ h => exact h

theorem Stands.of_idle (h : Stands obj d final phase (.idle : Call Θ D O R) p) : p = .idle := by
  cases h with
  | idle => rfl

theorem Stands.of_called {θ : Θ} {op : O} (h : Stands obj d final phase (.called θ op) p) :
    p = .called op ∧ phase θ = .outside := by
  cases h with
  | called _ _ h => exact ⟨rfl, h⟩

end Lemmas

section Line

variable {s : Guarded C D O R lock} {o : Atomic C O R D}

omit [DecidableEq C] in
theorem line_init (d : D) : Line obj (Guarded.init lock C O R d) (.init d) where
  inv := lock.inv_init
  fits _ := .idle
  one c c' θ h := by simp [Guarded.init, Call.thread] at h
  busy θ h := absurd (lock.outside θ) h
  settled _ := rfl

omit [DecidableEq C] in
theorem Line.raceFree (h : Line obj s o) : RaceFree obj s := by
  intro c c' θ θ' op op' rest rest' m m' hc hc' hθ hθ' hne
  have hfits := (hc ▸ h.fits c).during
  have hfits' := (hc' ▸ h.fits c').during
  rw [hθ] at hfits
  rw [hθ'] at hfits'
  obtain ⟨hm, -⟩ := hfits
  obtain ⟨hm', -⟩ := hfits'
  have hthreads : θ ≠ θ' := by
    rintro rfl
    exact hne (h.one c c' θ (by rw [hc]; rfl) (by rw [hc']; rfl))
  have hshared {θ₁ θ₂ : Θ} {m₁ m₂ : Mode} (h₁ : lock.phase s.lock θ₁ = .holding m₁)
      (h₂ : lock.phase s.lock θ₂ = .holding m₂) (hne : θ₁ ≠ θ₂) : m₁ = .shared := by
    cases m₁ with
    | shared => rfl
    | exclusive => exact absurd (lock.alone h.inv h₁ h₂).symm hne
  rw [← hm, ← hm']
  exact ⟨hshared hθ hθ' hthreads, hshared hθ' hθ hthreads.symm⟩

/-- What is left to be shown if one call goes on. -/
theorem Line.put (h : Line obj s o) {l : lock.State} {d e : D} {c : C} {θ : Θ}
    {x : Call Θ D O R} {p : Progress O R} (hinv : lock.Inv l)
    (hx : x.thread = none ∨ x.thread = some θ)
    (hown : ∀ c', c' ≠ c → (s.calls c').thread ≠ some θ)
    (hothers : ∀ θ', θ' ≠ θ → lock.phase l θ' = lock.phase s.lock θ')
    (hdata : ∀ θ' m, θ' ≠ θ → lock.phase s.lock θ' = .holding m → d = s.data ∧ e = o.state)
    (hfits : Stands obj d e (lock.phase l) x p)
    (hbusy : lock.phase l θ ≠ .outside → ∃ op rest, x = .running θ op rest)
    (hbefore : ∀ θ' op rest, s.calls c = .running θ' op rest → θ' = θ)
    (hsettled : (∀ θ, lock.phase l θ ≠ .holding .exclusive) → d = e) :
    Line obj (s.put l d c x) ⟨e, update o.calls c p⟩ := by
  refine ⟨hinv, fun c' ↦ ?_, fun c₁ c₂ θ' h₁ h₂ ↦ ?_, fun θ' hθ' ↦ ?_, hsettled⟩
  · by_cases hc : c' = c
    · subst hc
      simpa [Guarded.put] using hfits
    · simp only [Guarded.put, update_of_ne hc]
      have hne {θ' : Θ} (hθ' : (s.calls c').thread = some θ') : θ' ≠ θ := by
        rintro rfl
        exact hown c' hc hθ'
      exact (h.fits c').congr (fun θ' hθ' ↦ hothers θ' (hne hθ'))
        fun θ' m hθ' hm ↦ hdata θ' m (hne hθ') hm
  · simp only [Guarded.put] at h₁ h₂
    have hcase {c' : C} (hc' : (update s.calls c x c').thread = some θ') :
        c' = c ∧ θ' = θ ∨ c' ≠ c ∧ (s.calls c').thread = some θ' ∧ θ' ≠ θ := by
      by_cases hc : c' = c
      · rw [hc, update_self] at hc'
        rcases hx with hx | hx
        · rw [hx] at hc'
          cases hc'
        · rw [hx] at hc'
          exact .inl ⟨hc, (Option.some.inj hc').symm⟩
      · rw [update_of_ne hc] at hc'
        refine .inr ⟨hc, hc', ?_⟩
        rintro rfl
        exact hown c' hc hc'
    rcases hcase h₁ with ⟨hc₁, hθ₁⟩ | ⟨-, hc₁, hθ₁⟩ <;>
      rcases hcase h₂ with ⟨hc₂, hθ₂⟩ | ⟨-, hc₂, hθ₂⟩
    · rw [hc₁, hc₂]
    · exact absurd hθ₁ hθ₂
    · exact absurd hθ₂ hθ₁
    · exact h.one c₁ c₂ θ' hc₁ hc₂
  · by_cases hθ : θ' = θ
    · subst hθ
      obtain ⟨op, rest, hx⟩ := hbusy hθ'
      exact ⟨c, op, rest, by simp [Guarded.put, hx]⟩
    · obtain ⟨c', op, rest, hc'⟩ := h.busy θ' (by rwa [← hothers θ' hθ])
      have hc : c' ≠ c := by
        rintro rfl
        exact hθ (hbefore θ' op rest hc')
      exact ⟨c', op, rest, by simp [Guarded.put, update_of_ne hc, hc']⟩

/-- A call begins, of a thread that does nothing else. -/
theorem Line.call (h : Line obj s o) {c : C} {θ : Θ} (op : O) (hc : s.calls c = .idle)
    (hfree : ∀ c', (s.calls c').thread ≠ some θ) :
    Line obj (s.put s.lock s.data c (.called θ op)) ⟨o.state, update o.calls c (.called op)⟩ := by
  have houtside : lock.phase s.lock θ = .outside := by
    by_contra hne
    obtain ⟨c', op', rest, hc'⟩ := h.busy θ hne
    exact hfree c' (by rw [hc']; rfl)
  refine h.put h.inv (.inr rfl) (fun c' _ ↦ hfree c') (fun _ _ ↦ rfl) (fun _ _ _ _ ↦ ⟨rfl, rfl⟩)
    (.called θ op houtside) (fun hne ↦ absurd houtside hne) (fun θ' op' rest hrun ↦ ?_) h.settled
  rw [hc] at hrun
  cases hrun

/-- A call returns, of a thread that has given back the lock. -/
theorem Line.ret (h : Line obj s o) {c : C} {θ : Θ} {op : O} {res : R}
    (hc : s.calls c = .running θ op (.ret res)) (hphase : lock.phase s.lock θ = .outside) :
    o.calls c = .done op res ∧
      Line obj (s.put s.lock s.data c (.returned op res))
        ⟨o.state, update o.calls c (.returned op res)⟩ := by
  have hduring := (hc ▸ h.fits c).during
  rw [hphase] at hduring
  obtain ⟨res', hdone, hrest⟩ := hduring
  obtain rfl : res = res' := Body.ret.inj hrest
  have hown (c' : C) (hne : c' ≠ c) : (s.calls c').thread ≠ some θ := fun hc' ↦
    hne (h.one c' c θ hc' (by rw [hc]; rfl))
  refine ⟨hdone, h.put h.inv (.inl rfl) hown (fun _ _ ↦ rfl) (fun _ _ _ _ ↦ ⟨rfl, rfl⟩)
    (.returned op res) (fun hne ↦ absurd hphase hne) (fun θ' op' rest hrun ↦ ?_) h.settled⟩
  rw [hc] at hrun
  cases hrun
  rfl

/-- A thread calls `lock`. -/
theorem Line.enter (h : Line obj s o) {c : C} {θ : Θ} {op : O} {l : lock.State}
    (hc : s.calls c = .called θ op) (hstep : lock.Step θ s.lock l)
    (hphase : lock.phase l θ = .waiting (obj.mode op)) :
    Line obj (s.put l s.data c (.running θ op (obj.body op))) o := by
  obtain ⟨hcalled, houtside⟩ := (hc ▸ h.fits c).of_called
  have hown (c' : C) (hne : c' ≠ c) : (s.calls c').thread ≠ some θ := fun hc' ↦
    hne (h.one c' c θ hc' (by rw [hc]; rfl))
  have hput := h.put (lock.inv_step h.inv hstep) (d := s.data) (e := o.state) (c := c)
    (p := .called op) (.inr rfl) hown (fun θ' hne ↦ lock.others hstep hne)
    (fun _ _ _ _ ↦ ⟨rfl, rfl⟩)
    (.running θ op (obj.body op) _ (by rw [hphase]; exact ⟨rfl, rfl, rfl⟩))
    (fun _ ↦ ⟨op, obj.body op, rfl⟩)
    (fun θ' op' rest hrun ↦ by rw [hc] at hrun; cases hrun)
    (fun hnone ↦ h.settled fun θ' hθ' ↦ ?_)
  · rwa [← hcalled, Function.update_eq_self] at hput
  · have hne : θ' ≠ θ := by
      rintro rfl
      rw [houtside] at hθ'
      cases hθ'
    exact hnone θ' (by rwa [lock.others hstep hne])

/-- An access to the data, by a thread that holds the lock. -/
theorem Line.access (h : Line obj s o) {c : C} {θ : Θ} {op : O} {write : D → D}
    {next : D → Body D R} {m : Mode} (hc : s.calls c = .running θ op (.access write next))
    (hphase : lock.phase s.lock θ = .holding m) :
    Line obj (s.put s.lock (write s.data) c (.running θ op (next s.data))) o := by
  have hduring := (hc ▸ h.fits c).during
  rw [hphase] at hduring
  obtain ⟨hm, hreads, res, hdone, hrun⟩ := hduring
  have hown (c' : C) (hne : c' ≠ c) : (s.calls c').thread ≠ some θ := fun hc' ↦
    hne (h.one c' c θ hc' (by rw [hc]; rfl))
  -- who shares the lock does not write
  have hsame (hshared : m = .shared) : write s.data = s.data := (hreads hshared).1 s.data
  have hput := h.put h.inv (d := write s.data) (e := o.state) (c := c) (θ := θ)
    (x := .running θ op (next s.data)) (p := .done op res) (.inr rfl) hown (fun _ _ ↦ rfl)
    (fun θ' m' hne hθ' ↦ ⟨hsame ?_, rfl⟩)
    (.running θ op _ _ (by
      rw [hphase]
      exact ⟨hm, fun hshared ↦ (hreads hshared).2 s.data, res, rfl, hrun⟩))
    (fun _ ↦ ⟨op, _, rfl⟩)
    (fun θ' op' rest hrun ↦ by rw [hc] at hrun; cases hrun; rfl)
    (fun hnone ↦ ?_)
  · rwa [← hdone, Function.update_eq_self] at hput
  · cases m with
    | shared => rfl
    | exclusive => exact absurd (lock.alone h.inv hphase hθ') hne
  · cases m with
    | shared => rw [hsame rfl, h.settled hnone]
    | exclusive => exact absurd hphase (hnone θ)

/-- A step of the lock, and what the call of its thread has promised after it. -/
theorem Line.turn (h : Line obj s o) {c : C} {θ : Θ} {op : O} {rest : Body D R} {l : lock.State}
    {final : D} {p : Progress O R} (hc : s.calls c = .running θ op rest)
    (hstep : lock.Step θ s.lock l)
    (hfinal : ∀ θ' m, θ' ≠ θ → lock.phase s.lock θ' = .holding m → final = o.state)
    (hduring : During obj s.data final op rest p (lock.phase l θ))
    (hsettled : (∀ θ, lock.phase l θ ≠ .holding .exclusive) → s.data = final) :
    Line obj ⟨l, s.data, s.calls⟩ ⟨final, update o.calls c p⟩ := by
  have hown (c' : C) (hne : c' ≠ c) : (s.calls c').thread ≠ some θ := fun hc' ↦
    hne (h.one c' c θ hc' (by rw [hc]; rfl))
  have hput := h.put (lock.inv_step h.inv hstep) (d := s.data) (c := c) (x := s.calls c)
    (.inr (by rw [hc]; rfl)) hown (fun θ' hne ↦ lock.others hstep hne)
    (fun θ' m hne hm ↦ ⟨rfl, hfinal θ' m hne hm⟩) (by rw [hc]; exact .running θ op rest p hduring)
    (fun _ ↦ ⟨op, rest, hc⟩) (fun θ' op' rest' hrun ↦ by rw [hc] at hrun; cases hrun; rfl) hsettled
  rwa [Guarded.put, Function.update_eq_self] at hput

/-- **A step inside `lock` or `unlock`.**  If the thread gets the lock, its call takes effect. -/
theorem Line.inside (h : Line obj s o) {θ : Θ} {l : lock.State} (hstep : lock.Step θ s.lock l)
    (hinside : lock.phase s.lock θ ≠ .outside)
    (hdone : ∀ m, lock.phase s.lock θ = .holding m → lock.phase l θ ≠ .holding m →
      ∃ c op res, s.calls c = .running θ op (.ret res)) :
    ∃ o', Atomic.Step obj.apply o .tau o' ∧ Line obj ⟨l, s.data, s.calls⟩ o' := by
  obtain ⟨c, op, rest, hc⟩ := h.busy θ hinside
  have hduring := (hc ▸ h.fits c).during
  have hnext := lock.next h.inv hstep
  have hinv := lock.inv_step h.inv hstep
  -- the phase of this thread is not the one of a writer, before and after
  have hsettled (hbefore : lock.phase s.lock θ ≠ .holding .exclusive)
      (hnone : ∀ θ', lock.phase l θ' ≠ .holding .exclusive) : s.data = o.state := by
    refine h.settled fun θ' hθ' ↦ ?_
    by_cases hne : θ' = θ
    · exact hbefore (hne ▸ hθ')
    · exact hnone θ' (by rwa [lock.others hstep hne])
  have hstutter (hduring' : During obj s.data o.state op rest (o.calls c) (lock.phase l θ))
      (hsettled' : (∀ θ, lock.phase l θ ≠ .holding .exclusive) → s.data = o.state) :
      ∃ o', Atomic.Step obj.apply o .tau o' ∧ Line obj ⟨l, s.data, s.calls⟩ o' := by
    have hturn := h.turn hc hstep (fun _ _ _ _ ↦ rfl) hduring' hsettled'
    rw [Function.update_eq_self] at hturn
    exact ⟨o, .stutter, hturn⟩
  -- whoever gives the lock back has nothing left to do, and the data are settled
  have hended {m : Mode} (hm : lock.phase s.lock θ = .holding m)
      (hnot : lock.phase l θ ≠ .holding m) :
      s.data = o.state ∧ ∃ res, o.calls c = .done op res ∧ rest = .ret res := by
    obtain ⟨c', op', res', hc'⟩ := hdone m hm hnot
    obtain rfl : c' = c := h.one c' c θ (by rw [hc']; rfl) (by rw [hc]; rfl)
    rw [hc] at hc'
    cases hc'
    rw [hm] at hduring
    obtain ⟨-, -, res, hres, hrun⟩ := hduring
    obtain ⟨rfl, hdata⟩ : res' = res ∧ s.data = o.state := by simpa [Body.run] using hrun
    exact ⟨hdata, res', hres, rfl⟩
  generalize hp : lock.phase s.lock θ = p at hnext
  generalize hq : lock.phase l θ = q at hnext
  cases hnext with
  | stay =>
    rw [hp, ← hq] at hduring
    refine hstutter hduring fun hnone ↦ hsettled ?_ hnone
    rw [hp, ← hq]
    exact hnone θ
  | call => exact absurd hp hinside
  | acquire m =>
    rw [hp] at hduring
    obtain ⟨rfl, rfl, hcalled⟩ := hduring
    have hfree (θ' : Θ) : lock.phase s.lock θ' ≠ .holding .exclusive := by
      intro hθ'
      have hne : θ' ≠ θ := by
        rintro rfl
        rw [hp] at hθ'
        cases hθ'
      exact hne (lock.alone hinv (by rwa [lock.others hstep hne]) hq).symm
    have hdata : s.data = o.state := h.settled hfree
    refine ⟨_, .effect c op hcalled, h.turn hc hstep (fun θ' m hne hm ↦ ?_) ?_ fun hnone ↦ ?_⟩
    · -- another one holds the lock, so this one only reads
      have hshared : obj.mode op = .shared := by
        cases hmode : obj.mode op with
        | shared => rfl
        | exclusive =>
          rw [hmode] at hq
          exact absurd (lock.alone hinv hq (by rwa [lock.others hstep hne])) hne
      exact (obj.reads op hshared).run_snd o.state
    · rw [hq]
      refine ⟨rfl, fun hshared ↦ obj.reads op hshared, _, rfl, ?_⟩
      rw [hdata]
      rfl
    · have hshared : obj.mode op = .shared := by
        cases hmode : obj.mode op with
        | shared => rfl
        | exclusive =>
          rw [hmode] at hq
          exact absurd hq (hnone θ)
      rw [hdata]
      exact ((obj.reads op hshared).run_snd o.state).symm
  | release m =>
    obtain ⟨hdata, hended⟩ := hended hp (by simp [hq])
    exact hstutter (by rw [hq]; exact hended) fun _ ↦ hdata
  | free m =>
    obtain ⟨hdata, hended⟩ := hended hp (by simp [hq])
    exact hstutter (by rw [hq]; exact hended) fun _ ↦ hdata
  | exit =>
    rw [hp] at hduring
    exact hstutter (by rw [hq]; exact hduring) (hsettled (by simp [hp]))

/-- **Each step of the object in memory is one of the ideal object.** -/
theorem Line.step (h : Line obj s o) {k : Label C O R} {s' : Guarded C D O R lock}
    (hstep : Guarded.Step lock obj s k s') : ∃ o', Atomic.Step obj.apply o k o' ∧
      Line obj s' o' := by
  cases hstep with
  | call c θ op hc hfree =>
    have hidle := (hc ▸ h.fits c).of_idle
    exact ⟨_, .call c op hidle, h.call op hc hfree⟩
  | enter c θ op l hc hstep hphase => exact ⟨o, .stutter, h.enter hc hstep hphase⟩
  | lock θ l hstep hinside hdone => exact h.inside hstep hinside hdone
  | access c θ op write next m hc hphase => exact ⟨o, .stutter, h.access hc hphase⟩
  | ret c θ op res hc hphase =>
    obtain ⟨hdone, hline⟩ := h.ret hc hphase
    exact ⟨_, .ret c op res hdone, hline⟩

end Line

/-- **An object behind a lock is linearizable**, and no two of its operations access the data at a
time, unless both only read. -/
theorem guarded_linearizable (lock : Lock Θ) (obj : Object D O R) (d : D) :
    Linearizable obj.apply (Guarded.Step lock obj) (Guarded.init lock C O R d) d ∧
      ∀ h s, Trace (Guarded.Step lock obj) (Guarded.init lock C O R d) h s → RaceFree obj s := by
  have hstep (s : Guarded C D O R lock) (k : Label C O R) (s' : Guarded C D O R lock)
      (o : Atomic C O R D) (hline : Line obj s o) (hs : Guarded.Step lock obj s k s') :
      ∃ o', Atomic.Step obj.apply o k o' ∧ Line obj s' o' := hline.step hs
  refine ⟨fun h s hrun ↦ ?_, fun h s hrun ↦ ?_⟩
  · obtain ⟨h', o, hrun', hlabels, -⟩ := hrun.simulation (line_init d) hstep
    exact ⟨h', o, hrun', hlabels⟩
  · obtain ⟨_, _, -, -, hline⟩ := hrun.simulation (line_init d) hstep
    exact hline.raceFree

/-- No two operations access the data at a time. -/
def Separate (s : Guarded C D O R lock) : Prop :=
  ∀ c c' θ θ' op op' rest rest' m m', s.calls c = .running θ op rest →
    s.calls c' = .running θ' op' rest' → lock.phase s.lock θ = .holding m →
    lock.phase s.lock θ' = .holding m' → c = c'

/-- The same of a lock that is not shared. -/
theorem exclusive_linearizable (lock : Lock Θ) (body : O → Body D R) (d : D) :
    Linearizable (fun d op ↦ (body op).run d) (Guarded.Step lock (.exclusive body))
        (Guarded.init lock C O R d) d ∧
      ∀ h s, Trace (Guarded.Step lock (.exclusive body)) (Guarded.init lock C O R d) h s →
        Separate s := by
  obtain ⟨hlinear, hfree⟩ := guarded_linearizable (C := C) lock (.exclusive body) d
  refine ⟨hlinear, fun h s hrun c c' θ θ' op op' rest rest' m m' hc hc' hθ hθ' ↦ ?_⟩
  by_contra hne
  have hshared := (hfree h s hrun c c' θ θ' op op' rest rest' m m' hc hc' hθ hθ' hne).1
  cases hshared

end Lib
end ManyTasks
