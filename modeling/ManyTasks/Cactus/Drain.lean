import ManyTasks.Cactus.Changes
import ManyTasks.Cactus.TimerHeap

/-!
# The timers that have expired

In every turn `RunLoop` takes the timers from the heap whose deadline has passed, the least one
first, and calls `OnExpired` of each.  `drain_correct` says which timers these are, whatever has
been activated and deactivated before; what `OnExpired` does to the fibers is left open, except that
it does nothing to the timers.

The scheduler of `Cactus.Scheduler` has a list of timers instead of a heap and expires any timer
with the least deadline.  `Holds.drain` says that the loop over the heap does steps of that
scheduler.
-/

set_option autoImplicit false

namespace ManyTasks
namespace Cactus

open Function (update update_self update_of_ne)
open Lib (Trace)

variable {T D W : Type} [DecidableEq T] [LinearOrder D]

namespace TimerHeap

/-- The loop over the timers, up to `fuel` turns: the timers that have been fired, in their order,
and the heap and the fibers afterwards. -/
def drain (onExpired : T → W → W) (now_ : D) :
    ℕ → TimerHeap T D → W → Option (List T × TimerHeap T D × W)
  | 0, _, _ => none
  | fuel + 1, s, fibers =>
    match s.getMin with
    | none => some ([], s, fibers)
    | some next_timer =>
      if (s.getDeadline next_timer).any fun deadline ↦ deadline < now_ then
        (drain onExpired now_ fuel (s.deactivate next_timer) (onExpired next_timer fibers)).map
          fun r ↦ (next_timer :: r.1, r.2)
      else some ([], s, fibers)

/-- What the loop is to do: it fires the timers whose deadline has passed, in the order of their
deadlines, and leaves the others as they are. -/
structure Drained (s : TimerHeap T D) (now_ : D) (fired : List T) (s' : TimerHeap T D) : Prop where
  nodup : fired.Nodup
  mem_iff : ∀ t, t ∈ fired ↔ ∃ d, s.getDeadline t = some d ∧ d < now_
  sorted : fired.Pairwise fun t t' ↦
    ∀ d d', s.getDeadline t = some d → s.getDeadline t' = some d' → d ≤ d'
  inactive : ∀ t ∈ fired, s'.isActive t = false
  others : ∀ t, t ∉ fired → s'.isActive t = s.isActive t ∧ s'.getDeadline t = s.getDeadline t

omit [DecidableEq T] in
/-- If the least deadline has not passed, none has. -/
theorem Valid.drained_nil {s : TimerHeap T D} {now_ : D}
    (hnone : ∀ t d, s.getDeadline t = some d → now_ ≤ d) : Drained s now_ [] s where
  nodup := List.nodup_nil
  mem_iff t := by
    simp only [List.not_mem_nil, false_iff, not_exists, not_and, not_lt]
    exact hnone t
  sorted := List.Pairwise.nil
  inactive := by simp
  others t _ := ⟨rfl, rfl⟩

/-- The least deadline has passed, and the loop goes on. -/
theorem Drained.cons {s s' : TimerHeap T D} {now_ d : D} {t : T} {fired : List T} (hs : Valid s)
    (ht : s.getDeadline t = some d) (hlt : d < now_)
    (hleast : ∀ t' d', s.getDeadline t' = some d' → d ≤ d')
    (hrest : Drained (s.deactivate t) now_ fired s') : Drained s now_ (t :: fired) s' := by
  obtain ⟨hvalid, hdeadline⟩ := deactivate_correct hs t
  have hnot : t ∉ fired := by
    intro hmem
    obtain ⟨d', hd', -⟩ := (hrest.mem_iff t).mp hmem
    rw [hdeadline, update_self] at hd'
    cases hd'
  have hother {t' : T} (h : t' ≠ t) : (s.deactivate t).getDeadline t' = s.getDeadline t' := by
    rw [hdeadline, update_of_ne h]
  have hne {t' : T} (hmem : t' ∈ fired) : t' ≠ t := ne_of_mem_of_not_mem hmem hnot
  refine ⟨List.nodup_cons.mpr ⟨hnot, hrest.nodup⟩, fun t' ↦ ?_, ?_, fun t' hmem ↦ ?_,
    fun t' hmem ↦ ?_⟩
  · by_cases htt : t' = t
    · subst htt
      simp [ht, hlt]
    · rw [List.mem_cons, hrest.mem_iff, hother htt, or_iff_right htt]
  · refine List.pairwise_cons.mpr ⟨fun t' _ d₁ d' hd₁ hd' ↦ ?_, ?_⟩
    · rw [ht, Option.some.injEq] at hd₁
      exact hd₁ ▸ hleast t' d' hd'
    · refine hrest.sorted.imp_of_mem fun {t₁ t₂} h₁ h₂ hle d₁ d₂ hd₁ hd₂ ↦ ?_
      exact hle d₁ d₂ (hother (hne h₁) ▸ hd₁) (hother (hne h₂) ▸ hd₂)
  · rcases List.mem_cons.mp hmem with rfl | hmem
    · rw [(hrest.others t' hnot).1, hvalid.isActive_eq, hdeadline, update_self]
      rfl
    · exact hrest.inactive t' hmem
  · rw [List.mem_cons, not_or] at hmem
    obtain ⟨htt, hmem⟩ := hmem
    obtain ⟨hactive, hdl⟩ := hrest.others t' hmem
    rw [hactive, hdl, hvalid.isActive_eq, hs.isActive_eq, hother htt]
    exact ⟨rfl, rfl⟩

/-- One turn for each timer that is active, and one more, are enough. -/
theorem Valid.drain {s : TimerHeap T D} (hs : Valid s) (onExpired : T → W → W) (now_ : D)
    (fibers : W) {fuel : ℕ} (hfuel : s.heap_.size < fuel) :
    ∃ fired s', TimerHeap.drain onExpired now_ fuel s fibers =
      some (fired, s', fired.foldl (fun x t ↦ onExpired t x) fibers) ∧ Drained s now_ fired s' := by
  induction fuel generalizing s fibers with
  | zero => omega
  | succ fuel ih =>
    rw [TimerHeap.drain]
    rcases getMin_correct hs with ⟨hmin, hnone⟩ | ⟨t, d, hmin, ht, hleast⟩
    · rw [hmin]
      exact ⟨[], s, rfl, Valid.drained_nil fun t d hd ↦ by simp [hnone t] at hd⟩
    · rw [hmin]
      by_cases hlt : d < now_
      · have hactive : s.isActive t = true := by rw [hs.isActive_eq, ht]; rfl
        have hsize := size_deactivate hs.toPlaced hactive
        obtain ⟨fired, s', hdrain, hrest⟩ :=
          ih (deactivate_correct hs t).1 (onExpired t fibers) (by omega)
        refine ⟨t :: fired, s', ?_, .cons hs ht hlt hleast hrest⟩
        simp [ht, hlt, hdrain]
      · refine ⟨[], s, by simp [ht, hlt], Valid.drained_nil fun t' d' hd' ↦ ?_⟩
        exact (not_lt.mp hlt).trans (hleast t' d' hd')

/-! ## The main result -/

/-- The heap after any calls of `Activate`, for timers that are not active, and of `Deactivate`. -/
inductive Reachable : TimerHeap T D → Prop where
  | init : Reachable init
  | activate {s} (t : T) (deadline : D) (hs : Reachable s) (ht : s.isActive t = false) :
      Reachable (s.activate t deadline)
  | deactivate {s} (t : T) (hs : Reachable s) : Reachable (s.deactivate t)

omit [LinearOrder D] [DecidableEq T] in
theorem placed_init : Placed (init : TimerHeap T D) where
  position i hi := by simp [init] at hi
  entry t i h := by simp [init] at h

theorem Reachable.valid {s : TimerHeap T D} (h : Reachable s) : Valid s := by
  induction h with
  | init => exact ⟨placed_init, Lib.isHeap_of_size_le_one (Nat.zero_le 1)⟩
  | activate t deadline _ ht ih => exact (activate_correct ih ht deadline).1
  | deactivate t _ ih => exact (deactivate_correct ih t).1

/-- **The loop ends, and fires the timers whose deadline has passed**, each once and in the order of
their deadlines, whatever timers are active and whatever the time. -/
theorem drain_correct {s : TimerHeap T D} (hs : Reachable s) (onExpired : T → W → W) (now_ : D)
    (fibers : W) :
    ∃ fuel fired s', drain onExpired now_ fuel s fibers =
      some (fired, s', fired.foldl (fun x t ↦ onExpired t x) fibers) ∧ Drained s now_ fired s' :=
  ⟨s.heap_.size + 1, hs.valid.drain onExpired now_ fibers (Nat.lt_succ_self _)⟩

/-- Timers with the deadlines `5`, `3`, `3` and `9`, of which one has been deactivated, at time
`6`. -/
theorem drain_correct_four : ∃ s : TimerHeap ℕ ℕ, s.getDeadline 0 = some 5 ∧
    s.getDeadline 2 = some 3 ∧ ∃ fuel fired s', drain (fun t x ↦ x ++ [t]) 6 fuel s [] =
      some (fired, s', fired.foldl (fun x t ↦ x ++ [t]) []) ∧ Drained s 6 fired s' := by
  have hs :
      Reachable (((((init.activate 0 5).activate 1 3).activate 2 3).activate 3 9).deactivate 1 :
      TimerHeap ℕ ℕ) :=
    .deactivate 1 (.activate 3 9 (.activate 2 3 (.activate 1 3 (.activate 0 5 .init rfl)
      (by decide +kernel)) (by decide +kernel)) (by decide +kernel))
  exact ⟨_, by decide +kernel, by decide +kernel, drain_correct hs _ 6 []⟩

end TimerHeap

/-! ## The heap and the list of timers -/

section

variable {F G Q M S : Type} [DecidableEq F] [DecidableEq G] [DecidableEq Q] [DecidableEq M]
  [DecidableEq S] {heap heap' : TimerHeap ℕ ℕ} {s : Sched F G Q M S}

/-- The heap has the timers of the scheduler, with their deadlines. -/
def Holds (heap : TimerHeap ℕ ℕ) (timers_ : List (Timer F)) : Prop :=
  ∀ id d, heap.getDeadline id = some d ↔ ∃ t ∈ timers_, t.id = id ∧ t.deadline = d

omit [DecidableEq F] in
/-- A timer is deactivated in the heap and in the list. -/
theorem Holds.filter {timers_ : List (Timer F)} (hheap : heap.Valid) (h : Holds heap timers_)
    (id : ℕ) : Holds (heap.deactivate id) (timers_.filter fun t ↦ t.id ≠ id) := by
  intro id' d
  rw [(TimerHeap.deactivate_correct hheap id).2]
  by_cases hid : id' = id
  · subst hid
    rw [update_self]
    simp only [List.mem_filter, decide_eq_true_eq]
    constructor
    · intro hd
      cases hd
    · rintro ⟨t, ⟨-, hne⟩, heq, -⟩
      exact absurd heq hne
  · rw [update_of_ne hid, h id' d]
    refine exists_congr fun t ↦ ?_
    rw [List.mem_filter, decide_eq_true_eq]
    constructor
    · rintro ⟨ht, heq, hd⟩
      exact ⟨⟨ht, heq ▸ hid⟩, heq, hd⟩
    · rintro ⟨⟨ht, -⟩, heq, hd⟩
      exact ⟨ht, heq, hd⟩

/-- Where the loop fires the minimum of the heap, the scheduler can expire this timer. -/
theorem Holds.expire {id d : ℕ} (hheap : heap.Valid) (h : Holds heap s.timers_)
    (hloop : s.loop = .drain) (hd : heap.getDeadline id = some d) (hlt : d < s.now_)
    (hleast : ∀ id' d', heap.getDeadline id' = some d' → d ≤ d') :
    ∃ s', Step s (.expire id) s' ∧ Holds (heap.deactivate id) s'.timers_ ∧ s'.loop = .drain ∧
      s'.now_ = s.now_ := by
  obtain ⟨t₀, ht₀, hid₀, -⟩ := (h id d).mp hd
  obtain ⟨t, hfind⟩ : ∃ t, (s.timers_.find? fun t ↦ t.id = id) = some t :=
    Option.isSome_iff_exists.mp (List.find?_isSome.mpr ⟨t₀, ht₀, by simpa using hid₀⟩)
  have hmem := List.mem_of_find?_eq_some hfind
  obtain rfl : t.id = id := by simpa using List.find?_some hfind
  have hdl : t.deadline = d := by
    have hsome := (h t.id t.deadline).mpr ⟨t, hmem, rfl, rfl⟩
    rw [hd, Option.some.injEq] at hsome
    exact hsome.symm
  have hguard : s.loop = .drain ∧ t.deadline < s.now_ ∧
      ∀ t' ∈ s.timers_, t.deadline ≤ t'.deadline := by
    refine ⟨hloop, hdl ▸ hlt, fun t' ht' ↦ ?_⟩
    rw [hdl]
    exact hleast t'.id t'.deadline ((h _ _).mpr ⟨t', ht', rfl, rfl⟩)
  obtain ⟨b, o, r, heq, -⟩ := onExpired_eq (s := s) t
  refine ⟨onExpired t (deactivate t.id s), ?_, ?_⟩
  · rw [Step, act, hfind]
    exact if_pos hguard
  · rw [heq]
    exact ⟨h.filter hheap t.id, hloop, rfl⟩

/-- **The loop over the heap does steps of the scheduler**, and ends when no timer of the scheduler
has expired. -/
theorem Holds.drain {W : Type} {onExpired : ℕ → W → W} {fuel : ℕ} {fibers fibers' : W}
    {fired : List ℕ} (hheap : heap.Valid) (h : Holds heap s.timers_) (hloop : s.loop = .drain)
    (hdrain : heap.drain onExpired s.now_ fuel fibers = some (fired, heap', fibers')) :
    ∃ hist s', Trace Step s hist s' ∧ hist.map Prod.snd = fired.map .expire ∧
      Holds heap' s'.timers_ ∧ drained s' = true := by
  induction fuel generalizing heap s fibers fired with
  | zero => simp [TimerHeap.drain] at hdrain
  | succ fuel ih =>
    rw [TimerHeap.drain] at hdrain
    rcases TimerHeap.getMin_correct hheap with ⟨hmin, hnone⟩ | ⟨id, d, hmin, hd, hleast⟩
    · simp only [hmin, Option.some.injEq, Prod.mk.injEq] at hdrain
      obtain ⟨rfl, rfl, -⟩ := hdrain
      refine ⟨[], s, .nil, rfl, h, ?_⟩
      rw [drained, List.all_eq_true]
      intro t ht
      have hsome := (h t.id t.deadline).mpr ⟨t, ht, rfl, rfl⟩
      rw [hnone] at hsome
      cases hsome
    · simp only [hmin, hd, Option.any_some, decide_eq_true_eq] at hdrain
      split at hdrain
      · rename_i hlt
        obtain ⟨⟨fired', rest⟩, hrest, heq⟩ := Option.map_eq_some_iff.mp hdrain
        simp only [Prod.mk.injEq] at heq
        obtain ⟨rfl, rfl⟩ := heq
        obtain ⟨s₁, hstep, h₁, hloop₁, hnow₁⟩ := h.expire hheap hloop hd hlt hleast
        rw [← hnow₁] at hrest
        obtain ⟨hist, s', hrun, hlabels, h', hdone⟩ :=
          ih (TimerHeap.deactivate_correct hheap id).1 h₁ hloop₁ hrest
        exact ⟨(s, .expire id) :: hist, s', .cons hstep hrun, by simp [hlabels], h', hdone⟩
      · rename_i hle
        simp only [Option.some.injEq, Prod.mk.injEq] at hdrain
        obtain ⟨rfl, rfl, -⟩ := hdrain
        refine ⟨[], s, .nil, rfl, h, ?_⟩
        rw [drained, List.all_eq_true]
        intro t ht
        have hsome := (h t.id t.deadline).mpr ⟨t, ht, rfl, rfl⟩
        exact decide_eq_true ((not_lt.mp hle).trans (hleast _ _ hsome))

end

end Cactus
end ManyTasks
