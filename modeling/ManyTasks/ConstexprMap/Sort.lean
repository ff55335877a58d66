import ManyTasks.ConstexprMap.Order
import ManyTasks.Lib.Exchange

/-!
# Sorting the map

`Sort` is a bubble sort of a copy of the map, in decreasing order if the keys are integral.  The
elements are taken and exchanged by `GetByIndex`, which throws beyond the size.  The bounds of the
loops are computed in `size_t`.

After pass `i` the last `i + 1` positions are settled.  During a pass the position that has been
reached is, and as long as nothing has been exchanged so are all before it (`Pass`).
-/

set_option autoImplicit false

namespace ManyTasks
namespace ConstexprMap

open Lib

variable {K V : Type} {MaxSize : ℕ} {m : ConstexprMap K V MaxSize} {i j : ℕ}

/-- A difference in `size_t`. -/
def sizeSub (a b : ℕ) : ℕ := (a + 2 ^ 64 - b) % 2 ^ 64

theorem sizeSub_eq (h : j ≤ i) (hi : i < 2 ^ 64) : sizeSub i j = i - j := by
  rw [sizeSub, Nat.add_comm, Nat.add_sub_assoc h, Nat.add_mod_left, Nat.mod_eq_of_lt (by omega)]

/-- `std::swap(sorted_map.GetByIndex(i), sorted_map.GetByIndex(j))` -/
def swapByIndex (sorted_map : ConstexprMap K V MaxSize) (i j : ℕ) :
    Except Thrown (ConstexprMap K V MaxSize) :=
  if hi : i < sorted_map.size_ then
    if hj : j < sorted_map.size_ then
      .ok { sorted_map with
        map_ := sorted_map.map_.swap i j (hi.trans_le sorted_map.size_le)
          (hj.trans_le sorted_map.size_le) }
    else .error "Wrong index"
  else .error "Wrong index"

/-- The neighbours are exchanged. -/
theorem swapByIndex_spec (h : j + 1 < m.size_) : ∃ m' : ConstexprMap K V MaxSize,
    m.swapByIndex j (j + 1) = .ok m' ∧ m'.size_ = m.size_ ∧ m'.entries = exchange m.entries j := by
  have hj := Nat.lt_of_succ_lt h
  have hle := m.size_le
  rw [swapByIndex, dif_pos hj, dif_pos h]
  refine ⟨_, rfl, rfl, List.ext_getElem? fun k ↦ ?_⟩
  rw [getElem?_exchange (by rwa [length_entries]), getElem?_entries, getElem?_entries,
    getElem?_entries, getElem?_entries, if_pos h, if_pos hj,
      Vector.getElem?_eq_getElem (h.trans_le hle),
    Vector.getElem?_eq_getElem (hj.trans_le hle)]
  dsimp only
  rw [Vector.getElem?_swap]
  by_cases hk : k = j
  · rw [if_pos (hk ▸ hj), if_neg (by omega), if_pos hk.symm, if_pos hk]
  · rw [if_neg hk]
    by_cases hk' : k = j + 1
    · rw [if_pos (hk' ▸ h), if_pos hk'.symm, if_pos hk']
    · rw [if_neg (Ne.symm hk'), if_neg (Ne.symm hk), if_neg hk']

theorem getByIndex_eq (h : j < m.size_) : m.getByIndex j = .ok (m.pairAt ⟨j, h⟩) := dif_pos h

/-! ## The code -/

variable [LinearOrder K]

/-- The body of the inner loop. -/
def sortBody (ascending : Bool) (j : ℕ) (sorted_map : ConstexprMap K V MaxSize) (need_iter : Bool) :
    Except Thrown (ConstexprMap K V MaxSize × Bool) := do
  let a ← sorted_map.getByIndex j
  let b ← sorted_map.getByIndex (j + 1)
  if ascending = true ∧ a.1 > b.1 then
    let swapped ← sorted_map.swapByIndex j (j + 1)
    return (swapped, true)
  else if ascending = false ∧ a.1 < b.1 then
    let swapped ← sorted_map.swapByIndex j (j + 1)
    return (swapped, true)
  else return (sorted_map, need_iter)

/-- The inner loop from `j` on, with so many turns left. -/
def innerLoop (ascending : Bool) : (turns j : ℕ) → ConstexprMap K V MaxSize → Bool →
    Except Thrown (ConstexprMap K V MaxSize × Bool)
  | 0, _, sorted_map, need_iter => .ok (sorted_map, need_iter)
  | turns + 1, j, sorted_map, need_iter => do
    let next ← sortBody ascending j sorted_map need_iter
    innerLoop ascending turns (j + 1) next.1 next.2

/-- The outer loop from `i` on, with so many turns left. -/
def outerLoop (ascending : Bool) : (turns i : ℕ) → ConstexprMap K V MaxSize →
    Except Thrown (ConstexprMap K V MaxSize)
  | 0, _, sorted_map => .ok sorted_map
  | turns + 1, i, sorted_map => do
    let next ← innerLoop ascending (sizeSub (sizeSub sorted_map.size_ i) 1) 0 sorted_map false
    if next.2 then outerLoop ascending turns (i + 1) next.1 else return next.1

def sortFunc (ascending : Bool) (sorted_map : ConstexprMap K V MaxSize) :
    Except Thrown (ConstexprMap K V MaxSize) :=
  if sorted_map.size_ = 0 then .ok sorted_map
  else outerLoop ascending (sizeSub sorted_map.size_ 1) 0 sorted_map

/-- `Sort`; the flag is `std::is_integral_v<K>`. -/
def sort (is_integral : Bool) (m : ConstexprMap K V MaxSize) :
    Except Thrown (ConstexprMap K V MaxSize) :=
  if is_integral then sortFunc false m else sortFunc true m

/-! ## A pass -/

/-- The pairs are in order. -/
def InOrder (ascending : Bool) (p q : K × V) : Prop := if ascending then p.1 ≤ q.1 else q.1 ≤ p.1

instance (ascending : Bool) : IsTrans (K × V) (InOrder ascending) where
  trans p q s hpq hqs := by
    cases ascending
    · exact le_trans (α := K) hqs hpq
    · exact le_trans (α := K) hpq hqs

variable {ascending need_iter : Bool} {start : List (K × V)} {b : ℕ}

/-- The neighbours stay if they are in order, and are exchanged otherwise. -/
theorem sortBody_spec (ascending need_iter : Bool) (h : j + 1 < m.size_) :
    ∃ (m' : ConstexprMap K V MaxSize) (need_iter' : Bool),
      m.sortBody ascending j need_iter = .ok (m', need_iter') ∧ m'.size_ = m.size_ ∧
      (m' = m ∧ need_iter' = need_iter ∧
          InOrder ascending (m.pairAt ⟨j, Nat.lt_of_succ_lt h⟩) (m.pairAt ⟨j + 1, h⟩) ∨
        m'.entries = exchange m.entries j ∧ need_iter' = true ∧
          InOrder ascending (m.pairAt ⟨j + 1, h⟩) (m.pairAt ⟨j, Nat.lt_of_succ_lt h⟩)) := by
  obtain ⟨m', hswap, hsize, hentries⟩ := swapByIndex_spec h
  rw [sortBody, getByIndex_eq (Nat.lt_of_succ_lt h), getByIndex_eq h, hswap]
  dsimp only [bind, Except.bind, pure, Except.pure]
  cases ascending with
  | true =>
    by_cases hgt : (m.pairAt ⟨j, Nat.lt_of_succ_lt h⟩).1 > (m.pairAt ⟨j + 1, h⟩).1
    · rw [if_pos ⟨rfl, hgt⟩]
      exact ⟨m', true, rfl, hsize, .inr ⟨hentries, rfl, hgt.le⟩⟩
    · rw [if_neg fun hand ↦ hgt hand.2, if_neg fun hand ↦ Bool.noConfusion hand.1]
      exact ⟨m, need_iter, rfl, rfl, .inl ⟨rfl, rfl, not_lt.mp hgt⟩⟩
  | false =>
    rw [if_neg fun hand ↦ Bool.noConfusion hand.1]
    by_cases hlt : (m.pairAt ⟨j, Nat.lt_of_succ_lt h⟩).1 < (m.pairAt ⟨j + 1, h⟩).1
    · rw [if_pos ⟨rfl, hlt⟩]
      exact ⟨m', true, rfl, hsize, .inr ⟨hentries, rfl, hlt.le⟩⟩
    · rw [if_neg fun hand ↦ hlt hand.2]
      exact ⟨m, need_iter, rfl, rfl, .inl ⟨rfl, rfl, not_lt.mp hlt⟩⟩

/-- A pass over the positions below `b` that has come to `j`. -/
structure Pass (ascending : Bool) (start : List (K × V)) (b j : ℕ) (l : List (K × V))
    (need_iter : Bool) :
    Prop where
  perm : l.Perm start
  rest : ∀ p, b ≤ p → Settled (InOrder ascending) l p
  here : Settled (InOrder ascending) l j
  all : need_iter = false → ∀ p ≤ j, Settled (InOrder ascending) l p

/-- **One step of a pass.** -/
theorem Pass.step (hpass : Pass ascending start b j m.entries need_iter) (hb : j + 1 < b)
    (h : j + 1 < m.size_) :
    ∃ (m' : ConstexprMap K V MaxSize) (need_iter' : Bool),
      m.sortBody ascending j need_iter = .ok (m', need_iter') ∧ m'.size_ = m.size_ ∧
      Pass ascending start b (j + 1) m'.entries need_iter' := by
  obtain ⟨m', need_iter', hbody, hsize, hcases⟩ := sortBody_spec ascending need_iter h
  refine ⟨m', need_iter', hbody, hsize, ?_⟩
  have hlength : j + 1 < m.entries.length := by rwa [length_entries]
  have hfirst := getElem?_entries_eq (⟨j, Nat.lt_of_succ_lt h⟩ : Fin m.size_)
  have hsecond := getElem?_entries_eq (⟨j + 1, h⟩ : Fin m.size_)
  rcases hcases with ⟨rfl, rfl, horder⟩ | ⟨hentries, rfl, horder⟩
  · have hnext : Settled (InOrder ascending) m'.entries (j + 1) := by
      refine hpass.here.next hlength fun x y hx hy ↦ ?_
      rwa [Option.some.inj (hx.symm.trans hfirst), Option.some.inj (hy.symm.trans hsecond)]
    refine ⟨hpass.perm, hpass.rest, hnext, fun hfalse p hp ↦ ?_⟩
    rcases Nat.le_succ_iff.mp hp with hp | rfl
    · exact hpass.all hfalse p hp
    · exact hnext
  · rw [hentries]
    refine ⟨(exchange_perm _ _).trans hpass.perm,
      fun p hp ↦ (hpass.rest p hp).exchange hlength (by omega), ?_,
        fun hfalse ↦ Bool.noConfusion hfalse⟩
    refine hpass.here.exchange_next hlength fun x y hx hy ↦ ?_
    rwa [Option.some.inj (hx.symm.trans hfirst), Option.some.inj (hy.symm.trans hsecond)]

/-- **A whole pass.** -/
theorem innerLoop_spec (turns : ℕ) (hpass : Pass ascending start b j m.entries need_iter)
    (hb : j + turns + 1 = b) (hsize : b ≤ m.size_) :
    ∃ (m' : ConstexprMap K V MaxSize) (need_iter' : Bool),
      innerLoop ascending turns j m need_iter = .ok (m', need_iter') ∧ m'.size_ = m.size_ ∧
      Pass ascending start b (b - 1) m'.entries need_iter' := by
  induction turns generalizing m j need_iter with
  | zero =>
    have hj : b - 1 = j := by omega
    exact ⟨m, need_iter, rfl, rfl, hj ▸ hpass⟩
  | succ turns ih =>
    obtain ⟨m', need_iter', hbody, hsize', hpass'⟩ := hpass.step (by omega) (by omega)
    obtain ⟨m'', need_iter'', hloop, hsize'', hpass''⟩ := ih hpass' (by omega) (by omega)
    refine ⟨m'', need_iter'', ?_, hsize''.trans hsize', hpass''⟩
    rw [innerLoop, hbody]
    exact hloop

/-! ## All passes -/

theorem outerLoop_spec (turns : ℕ)
    (hsettled : ∀ p, m.size_ - i ≤ p → Settled (InOrder ascending) m.entries p)
    (hi : i + turns + 1 = m.size_) (hsize : m.size_ < 2 ^ 64) :
    ∃ m' : ConstexprMap K V MaxSize, outerLoop ascending turns i m = .ok m' ∧ m'.size_ = m.size_ ∧
      m'.entries.Perm m.entries ∧ ∀ p, Settled (InOrder ascending) m'.entries p := by
  induction turns generalizing m i with
  | zero =>
    refine ⟨m, rfl, rfl, .refl _, fun p ↦ ?_⟩
    rcases Nat.eq_zero_or_pos p with rfl | hp
    · exact settled_zero _ _
    · exact hsettled p (by omega)
  | succ turns ih =>
    have hstart : Pass ascending m.entries (m.size_ - i) 0 m.entries false := by
      refine ⟨.refl _, hsettled, settled_zero _ _, fun _ p hp ↦ ?_⟩
      rw [Nat.le_zero.mp hp]
      exact settled_zero _ _
    have hbound : sizeSub (sizeSub m.size_ i) 1 = m.size_ - i - 1 := by
      rw [sizeSub_eq (by omega) hsize, sizeSub_eq (by omega) (by omega)]
    obtain ⟨m', need_iter, hloop, hsize', hpass⟩ :=
      innerLoop_spec (m.size_ - i - 1) hstart (by omega) (Nat.sub_le _ _)
    rw [outerLoop, hbound, hloop]
    dsimp only [bind, Except.bind, pure, Except.pure]
    cases need_iter with
    | true =>
      have hsettled' (p : ℕ) (hp : m'.size_ - (i + 1) ≤ p) :
          Settled (InOrder ascending) m'.entries p := by
        rcases Nat.lt_or_ge p (m.size_ - i) with hlt | hge
        · obtain rfl : p = m.size_ - i - 1 := by omega
          exact hpass.here
        · exact hpass.rest p hge
      obtain ⟨m'', hloop', hsize'', hperm, hall⟩ := ih hsettled' (by omega) (by omega)
      rw [if_pos rfl]
      exact ⟨m'', hloop', hsize''.trans hsize', hperm.trans hpass.perm, hall⟩
    | false =>
      rw [if_neg Bool.noConfusion]
      refine ⟨m', rfl, hsize', hpass.perm, fun p ↦ ?_⟩
      rcases Nat.lt_or_ge p (m.size_ - i) with hlt | hge
      · exact hpass.all rfl p (by omega)
      · exact hpass.rest p hge

theorem sortFunc_spec (ascending : Bool) (hsize : m.size_ < 2 ^ 64) :
    ∃ m' : ConstexprMap K V MaxSize, sortFunc ascending m = .ok m' ∧ m'.size_ = m.size_ ∧
      m'.entries.Perm m.entries ∧ m'.entries.Pairwise (InOrder ascending) := by
  rw [sortFunc]
  by_cases hzero : m.size_ = 0
  · rw [if_pos hzero]
    have hnil : m.entries = [] := List.eq_nil_of_length_eq_zero (by rwa [length_entries])
    refine ⟨m, rfl, rfl, .refl _, ?_⟩
    rw [hnil]
    exact List.Pairwise.nil
  · rw [if_neg hzero, sizeSub_eq (by omega) hsize]
    have hsettled (p : ℕ) (hp : m.size_ - 0 ≤ p) : Settled (InOrder ascending) m.entries p := by
      intro q x y _ _ hy
      rw [getElem?_entries, if_neg (by omega)] at hy
      exact absurd hy.symm (Option.some_ne_none y)
    obtain ⟨m', hloop, hsize', hperm, hall⟩ :=
      outerLoop_spec (m.size_ - 1) hsettled (by omega) hsize
    exact ⟨m', hloop, hsize', hperm, pairwise_of_settled hall⟩

/-! ## The sorted map -/

/-- **Sorting.**  `MaxSize` is an `int`, so the size is in the range of `size_t`. -/
theorem sort_correct (m : ConstexprMap K V MaxSize) (hmax : MaxSize < 2 ^ 31)
    (hkeys : (m.entries.map Prod.fst).Nodup) (is_integral : Bool) :
    ∃ sorted : ConstexprMap K V MaxSize, sort is_integral m = .ok sorted ∧ sorted.size_ = m.size_ ∧
      sorted.entries.Perm m.entries ∧
      (sorted.entries.map Prod.fst).Pairwise (fun a b ↦ if is_integral then b < a else a < b) ∧
      ∀ key, sorted.constSubscript key = m.constSubscript key ∧ sorted.find key = m.find key := by
  have hsize : m.size_ < 2 ^ 64 :=
    (m.size_le.trans_lt hmax).trans (Nat.pow_lt_pow_right Nat.one_lt_two (by omega))
  obtain ⟨sorted, hsort, hsize', hperm, horder⟩ := sortFunc_spec (!is_integral) hsize
  have hkeys' : (sorted.entries.map Prod.fst).Nodup := (hperm.map Prod.fst).nodup_iff.mpr hkeys
  have hsorted : sorted.entries = (⟨sorted.entries, hkeys'⟩ : OrderedMap K V).entries := rfl
  have hm : m.entries = (⟨m.entries, hkeys⟩ : OrderedMap K V).entries := rfl
  have hperm' : (⟨sorted.entries, hkeys'⟩ : OrderedMap K V).entries.Perm
      (⟨m.entries, hkeys⟩ : OrderedMap K V).entries := hperm
  refine ⟨sorted, ?_, hsize', hperm, ?_, fun key ↦ ?_⟩
  · rw [sort, ← hsort]
    cases is_integral with
    | true => rw [if_pos rfl, Bool.not_true]
    | false => rw [if_neg Bool.noConfusion, Bool.not_false]
  · rw [List.pairwise_map]
    refine (horder.and (List.pairwise_map.mp hkeys')).imp fun {p q} h ↦ ?_
    obtain ⟨hle, hne⟩ := h
    cases is_integral with
    | true => exact lt_of_le_of_ne hle (Ne.symm hne)
    | false => exact lt_of_le_of_ne hle hne
  · have hconst := OrderedMap.find_eq_of_perm hperm' key
    rw [constSubscript_eq hsorted, constSubscript_eq hm, find_eq hsorted, find_eq hm, hconst]
    exact ⟨rfl, decide_eq_decide.mpr (hperm.map Prod.fst).mem_iff⟩

theorem sort_correct_three : ∃ sorted : ConstexprMap ℕ ℕ 4,
    sort true ((empty ℕ ℕ 4).run [.assign 2 7, .assign 3 8, .assign 1 9]).1 = .ok sorted ∧
      sorted.size_ = ((empty ℕ ℕ 4).run [.assign 2 7, .assign 3 8, .assign 1 9]).1.size_ ∧
      sorted.entries.Perm ((empty ℕ ℕ 4).run [.assign 2 7, .assign 3 8, .assign 1 9]).1.entries ∧
      (sorted.entries.map Prod.fst).Pairwise (fun a b ↦ if true then b < a else a < b) ∧
      ∀ key, sorted.constSubscript key =
          ((empty ℕ ℕ 4).run [.assign 2 7, .assign 3 8, .assign 1 9]).1.constSubscript key ∧
        sorted.find key = ((empty ℕ ℕ 4).run [.assign 2 7, .assign 3 8, .assign 1 9]).1.find key :=
  sort_correct ((empty ℕ ℕ 4).run [.assign 2 7, .assign 3 8, .assign 1 9]).1 (by decide)
    (nodup_run (m := empty ℕ ℕ 4) List.nodup_nil _) true

end ConstexprMap
end ManyTasks
