import ManyTasks.ClangFun.StringUtils
import Mathlib.Algebra.Order.Group.Nat
import Mathlib.Tactic.Basic

/-!
# What the words of a name are

Without an underscore the words lie side by side and cover the name (`Tiles`).  The first loop makes
pieces in which only the first letter may be a capital and which end before a capital or with the
name (`Piece`).  The second loop joins the pieces that are a capital only.  So it joins positions
that have a capital which is not the beginning of a capitalized word (`Inner`), and as it joins as
many as it can, it gets the maximal runs of them.

With an underscore, joining the words by single underscores undoes the division, but for an
underscore at the end.
-/

set_option autoImplicit false

namespace ManyTasks
namespace ClangFun

variable {name : Str}

/-! ## Words side by side -/

/-- The views are not empty, and lie side by side from `a` to `b`. -/
def Tiles : ℕ → ℕ → List View → Prop
  | a, b, [] => a = b
  | a, b, v :: vs => v.data = a ∧ 0 < v.size ∧ Tiles (a + v.size) b vs

theorem Tiles.le {a b : ℕ} {vs : List View} (h : Tiles a b vs) : a ≤ b := by
  induction vs generalizing a with
  | nil => exact Nat.le_of_eq h
  | cons v vs ih =>
    have hle := ih h.2.2
    omega

theorem Tiles.pos {a b : ℕ} {vs : List View} (h : Tiles a b vs) {v : View} (hv : v ∈ vs) :
    0 < v.size := by
  induction vs generalizing a with
  | nil => cases hv
  | cons w vs ih =>
    rcases List.mem_cons.mp hv with rfl | hv
    · exact h.2.1
    · exact ih h.2.2 hv

theorem Tiles.add_le {a b : ℕ} {vs : List View} (h : Tiles a b vs) {v : View} (hv : v ∈ vs) :
    v.data + v.size ≤ b := by
  induction vs generalizing a with
  | nil => cases hv
  | cons w vs ih =>
    rcases List.mem_cons.mp hv with rfl | hv
    · have hle := h.2.2.le
      rw [h.1]
      exact hle
    · exact ih h.2.2 hv

/-- Another word in front. -/
theorem Tiles.cons {a b c : ℕ} {vs : List View} (h : Tiles b c vs) (hlt : a < b) :
    Tiles a c (⟨a, b - a⟩ :: vs) := by
  refine ⟨rfl, Nat.sub_pos_of_lt hlt, ?_⟩
  rwa [Nat.add_sub_cancel' hlt.le]

/-- **The words give the name.** -/
theorem Tiles.flatten {a : ℕ} {vs : List View} (h : Tiles a name.length vs) :
    (vs.map (View.text name)).flatten = name.drop a := by
  induction vs generalizing a with
  | nil =>
    rw [show a = name.length from h, List.drop_length]
    rfl
  | cons v vs ih =>
    obtain ⟨rfl, -, hrest⟩ := h
    rw [List.map_cons, List.flatten_cons, ih hrest, View.text, ← List.drop_drop,
      List.take_append_drop]

/-! ## Capitals -/

/-- There is a capital at this position. -/
def CapitalAt (name : Str) (i : ℕ) : Prop := name[i]?.any isCapital = true

/-- There is a capital, followed by another one or by the end. -/
def Inner (name : Str) (i : ℕ) : Prop :=
  CapitalAt name i ∧ (i + 1 < name.length → CapitalAt name (i + 1))

/-- A maximal run of capitals of this kind. -/
structure Run (name : Str) (v : View) : Prop where
  pos : 0 < v.size
  inner : ∀ i, v.data ≤ i → i < v.data + v.size → Inner name i
  before : ∀ i, i + 1 = v.data → ¬Inner name i
  after : ¬Inner name (v.data + v.size)

/-- One or more letters that are not capitals, maybe after a capital. -/
def Capitalized (name : Str) (v : View) : Prop :=
  ∃ head tail, v.text name = head ++ tail ∧
    (head = [] ∨ ∃ c, isCapital c = true ∧ head = [c]) ∧ tail ≠ [] ∧
    ∀ c ∈ tail, isCapital c = false

/-- What the first loop makes: only the first letter may be a capital, and then comes a capital or
the end. -/
structure Piece (name : Str) (v : View) : Prop where
  others : ∀ i, v.data < i → i < v.data + v.size → ¬CapitalAt name i
  next : v.data + v.size < name.length → CapitalAt name (v.data + v.size)

theorem capitalAt_lt {i : ℕ} (h : CapitalAt name i) : i < name.length := by
  by_contra hge
  rw [CapitalAt, List.getElem?_eq_none (not_lt.mp hge)] at h
  cases h

theorem not_inner_length (name : Str) : ¬Inner name name.length :=
  fun h ↦ lt_irrefl _ (capitalAt_lt h.1)

/-! ## The first loop -/

theorem piece_of_not_capitalAt {start_pos cur_pos : ℕ} (hlt : start_pos < cur_pos)
    (hothers : ∀ i, start_pos < i → i < cur_pos → ¬CapitalAt name i)
    (hnext : cur_pos < name.length → CapitalAt name cur_pos) :
    Piece name ⟨start_pos, cur_pos - start_pos⟩ := by
  have hend : start_pos + (cur_pos - start_pos) = cur_pos := Nat.add_sub_cancel' hlt.le
  constructor
  · intro i hi hi'
    exact hothers i hi (hi'.trans_eq hend)
  · dsimp only
    rwa [hend]

/-- **The first loop makes pieces that lie side by side.** -/
theorem capitalLoop_spec (rest : Str) (start_pos cur_pos : ℕ) (hrest : rest = name.drop cur_pos)
    (hpos : cur_pos ≤ name.length) (hstart : start_pos < cur_pos ∨ start_pos = cur_pos ∧ rest ≠ [])
    (hothers : ∀ i, start_pos < i → i < cur_pos → ¬CapitalAt name i) :
    Tiles start_pos name.length (capitalLoop rest start_pos cur_pos) ∧
      ∀ v ∈ capitalLoop rest start_pos cur_pos, Piece name v := by
  induction rest generalizing start_pos cur_pos with
  | nil =>
    have hend : cur_pos = name.length := by
      have := List.drop_eq_nil_iff.mp hrest.symm
      omega
    have hlt : start_pos < cur_pos := hstart.resolve_right (by simp)
    have htiles : Tiles cur_pos name.length [] := hend
    have hpiece : Piece name ⟨start_pos, cur_pos - start_pos⟩ :=
      piece_of_not_capitalAt hlt hothers fun hlt' ↦ by omega
    exact ⟨htiles.cons hlt, List.forall_mem_singleton.mpr hpiece⟩
  | cons c rest ih =>
    have hlt : cur_pos < name.length := by
      by_contra hge
      rw [List.drop_eq_nil_of_le (not_lt.mp hge)] at hrest
      cases hrest
    have hdrop := List.drop_eq_getElem_cons hlt
    rw [← hrest] at hdrop
    obtain ⟨hc, hrest'⟩ := List.cons.inj hdrop
    have hcapital : CapitalAt name cur_pos ↔ isCapital c = true := by
      rw [CapitalAt, List.getElem?_eq_getElem hlt, hc]
      rfl
    rw [capitalLoop]
    by_cases hcap : isCapital c = true
    · rw [if_pos hcap]
      obtain ⟨htiles, hpieces⟩ := ih cur_pos (cur_pos + 1) hrest' hlt (.inl (Nat.lt_succ_self _))
        fun i hi hi' ↦ by omega
      split
      · rename_i hgt
        have hpiece : Piece name ⟨start_pos, cur_pos - start_pos⟩ :=
          piece_of_not_capitalAt hgt hothers fun _ ↦ hcapital.mpr hcap
        exact ⟨htiles.cons hgt, List.forall_mem_cons.mpr ⟨hpiece, hpieces⟩⟩
      · obtain rfl : start_pos = cur_pos := by omega
        exact ⟨htiles, hpieces⟩
    · rw [if_neg hcap]
      refine ih start_pos (cur_pos + 1) hrest' hlt (.inl (by omega)) fun i hi hi' ↦ ?_
      rcases Nat.lt_succ_iff_lt_or_eq.mp hi' with hi' | rfl
      · exact hothers i hi hi'
      · exact fun h ↦ hcap (hcapital.mp h)

/-! ## The second loop -/

/-- The word that is being joined, at a position where a piece begins. -/
def Open (name : Str) (a : ℕ) (word_size : ℕ) : Option ℕ → Prop
  | none => word_size = 0 ∧ ∀ i, i + 1 = a → ¬Inner name i
  | some start => 0 < word_size ∧ start + word_size = a ∧ (∀ i, start ≤ i → i < a → Inner name i) ∧
      ∀ i, i + 1 = start → ¬Inner name i

section Join

variable {v : View} {a word_size : ℕ} {word_start : Option ℕ}

theorem isLoneCapital_iff : isLoneCapital name v = true ↔ v.size = 1 ∧ CapitalAt name v.data := by
  rw [isLoneCapital, Bool.and_eq_true, decide_eq_true_eq, CapitalAt]

/-- A lone capital is joined. -/
theorem Open.join (h : Open name a word_size word_start) (hinner : Inner name a) :
    Open name (a + 1) (word_size + 1) (some (word_start.getD a)) := by
  cases word_start with
  | none =>
    obtain ⟨rfl, hbefore⟩ := h
    refine ⟨Nat.one_pos, rfl, fun i hi hi' ↦ ?_, hbefore⟩
    obtain rfl : i = a := by
      simp only [Option.getD_none] at hi
      omega
    exact hinner
  | some start =>
    obtain ⟨hpos, hend, hall, hbefore⟩ := h
    simp only [Option.getD_some]
    refine ⟨Nat.succ_pos _, by omega, fun i hi hi' ↦ ?_, hbefore⟩
    rcases Nat.lt_succ_iff_lt_or_eq.mp hi' with hi' | rfl
    · exact hall i hi hi'
    · exact hinner

/-- What has been joined is a maximal run. -/
theorem Open.joined (h : Open name a word_size word_start) (hafter : ¬Inner name a) {b : ℕ}
    (vs : List View) (htiles : Tiles a b vs) :
    Tiles (word_start.getD a) b (joined word_start word_size ++ vs) ∧
      ∀ w ∈ ClangFun.joined word_start word_size, Run name w := by
  cases word_start with
  | none => exact ⟨htiles, fun w hw ↦ by cases hw⟩
  | some start =>
    obtain ⟨hpos, rfl, hall, hbefore⟩ := h
    exact ⟨⟨rfl, hpos, htiles⟩, List.forall_mem_singleton.mpr ⟨hpos, hall, hbefore, hafter⟩⟩

theorem mem_slice {start size : ℕ} {c : UInt8} (h : c ∈ (name.drop start).take size) :
    ∃ i, start ≤ i ∧ i < start + size ∧ name[i]? = some c := by
  obtain ⟨k, hk, rfl⟩ := List.mem_iff_getElem.mp h
  rw [List.length_take, List.length_drop] at hk
  refine ⟨start + k, by omega, by omega, ?_⟩
  rw [List.getElem_take, List.getElem_drop]
  exact List.getElem?_eq_getElem (by omega)

theorem not_capital_of_not_at {i : ℕ} {c : UInt8} (h : ¬CapitalAt name i) (hc : name[i]? = some c) :
    isCapital c = false := by
  rw [CapitalAt, hc] at h
  exact Bool.eq_false_iff.mpr h

/-- A piece that is not a lone capital. -/
theorem Piece.capitalized (h : Piece name v) (hpos : 0 < v.size)
    (hfits : v.data + v.size ≤ name.length) (hlone : ¬(v.size = 1 ∧ CapitalAt name v.data)) :
    Capitalized name v := by
  have htext : (v.text name).length = v.size := by
    rw [View.text, List.length_take, List.length_drop]
    omega
  by_cases hcap : CapitalAt name v.data
  · obtain ⟨size, hsize⟩ : ∃ size, v.size = size + 1 := ⟨v.size - 1, by omega⟩
    have hlt := capitalAt_lt hcap
    have hcons : v.text name = [name[v.data]] ++ (name.drop (v.data + 1)).take size := by
      rw [View.text, hsize, List.drop_eq_getElem_cons hlt, List.take_succ_cons]
      rfl
    refine ⟨_, _, hcons, .inr ⟨_, ?_, rfl⟩, fun hnil ↦ ?_, fun c hc ↦ ?_⟩
    · rw [CapitalAt, List.getElem?_eq_getElem hlt] at hcap
      exact hcap
    · rw [hcons, hnil, List.append_nil, List.length_singleton] at htext
      exact hlone ⟨htext.symm, hcap⟩
    · obtain ⟨i, hi, hi', hget⟩ := mem_slice hc
      exact not_capital_of_not_at (h.others i (by omega) (by omega)) hget
  · refine ⟨[], v.text name, rfl, .inl rfl, fun hnil ↦ ?_, fun c hc ↦ ?_⟩
    · rw [hnil, List.length_nil] at htext
      omega
    · obtain ⟨i, hi, hi', hget⟩ := mem_slice hc
      refine not_capital_of_not_at ?_ hget
      rcases Nat.eq_or_lt_of_le hi with rfl | hi
      · exact hcap
      · exact h.others i hi hi'

/-- The last letter of such a piece is not a capital, and the first one does not belong to a run. -/
theorem Piece.not_inner (h : Piece name v) (hpos : 0 < v.size)
    (hfits : v.data + v.size ≤ name.length) (hlone : ¬(v.size = 1 ∧ CapitalAt name v.data)) :
    ¬Inner name v.data ∧ ∀ i, i + 1 = v.data + v.size → ¬Inner name i := by
  constructor
  · intro hinner
    have hsize : v.size ≠ 1 := fun hone ↦ hlone ⟨hone, hinner.1⟩
    exact h.others (v.data + 1) (by omega) (by omega) (hinner.2 (by omega))
  · intro i hi hinner
    rcases Nat.eq_or_lt_of_le (show v.data ≤ i by omega) with rfl | hlt
    · exact hlone ⟨by omega, hinner.1⟩
    · exact h.others i hlt (by omega) hinner.1

/-- **The second loop makes the words.** -/
theorem joinLoop_spec {tmp : List View} (htiles : Tiles a name.length tmp)
    (hpieces : ∀ v ∈ tmp, Piece name v) (hopen : Open name a word_size word_start) :
    Tiles (word_start.getD a) name.length (joinLoop name tmp word_start word_size) ∧
      ∀ v ∈ joinLoop name tmp word_start word_size, Run name v ∨ Capitalized name v := by
  induction tmp generalizing a word_start word_size with
  | nil =>
    obtain rfl : a = name.length := htiles
    obtain ⟨htiles', hruns⟩ := hopen.joined (not_inner_length name) [] rfl
    rw [List.append_nil] at htiles'
    exact ⟨htiles', fun v hv ↦ .inl (hruns v hv)⟩
  | cons v tmp ih =>
    obtain ⟨rfl, hpos, hrest⟩ := htiles
    obtain ⟨hpiece, hpieces⟩ := List.forall_mem_cons.mp hpieces
    have hfits := hrest.le
    rw [joinLoop]
    by_cases hlone : v.size = 1 ∧ CapitalAt name v.data
    · rw [if_pos (isLoneCapital_iff.mpr hlone)]
      have hinner : Inner name v.data := ⟨hlone.2, hlone.1 ▸ hpiece.next⟩
      rw [hlone.1] at hrest
      exact ih hrest hpieces (hopen.join hinner)
    · rw [if_neg fun h ↦ hlone (isLoneCapital_iff.mp h)]
      obtain ⟨hnot, hlast⟩ := hpiece.not_inner hpos hfits hlone
      have hclosed : Open name (v.data + v.size) 0 none := ⟨rfl, hlast⟩
      obtain ⟨htiles', hwords⟩ := ih hrest hpieces hclosed
      obtain ⟨htiles'', hruns⟩ := hopen.joined hnot (v :: joinLoop name tmp none 0)
        ⟨rfl, hpos, htiles'⟩
      refine ⟨htiles'', fun w hw ↦ ?_⟩
      rcases List.mem_append.mp hw with hw | hw
      · exact .inl (hruns w hw)
      · rcases List.mem_cons.mp hw with rfl | hw
        · exact .inr (hpiece.capitalized hpos hfits hlone)
        · exact hwords w hw

end Join

/-! ## Underscores -/

/-- Without an underscore at the end. -/
def withoutLast (s : Str) : Str := if s.getLast? = some 95 then s.dropLast else s

theorem withoutLast_append {rest : Str} (seg : Str) (hrest : rest ≠ []) :
    withoutLast (seg ++ 95 :: rest) = seg ++ 95 :: withoutLast rest := by
  have hlast : (seg ++ 95 :: rest).getLast? = rest.getLast? := by
    rw [List.getLast?_append, List.getLast?_cons_of_ne_nil hrest, Option.or_of_isSome]
    exact List.getLast?_isSome.mpr hrest
  have hdrop : (seg ++ 95 :: rest).dropLast = seg ++ 95 :: rest.dropLast := by
    rw [List.dropLast_append_of_ne_nil (List.cons_ne_nil _ _), List.dropLast_cons_of_ne_nil hrest]
  rw [withoutLast, withoutLast, hlast, hdrop]
  split <;> rfl

/-- What the search for an underscore divides. -/
theorem findUnderscore_eq_some {pos found_pos : ℕ} (h : findUnderscore name pos = some found_pos) :
    pos ≤ found_pos ∧ found_pos < name.length ∧
      name.drop pos = (name.drop pos).take (found_pos - pos) ++ 95 ::
        name.drop (found_pos + 1) := by
  obtain ⟨k, hk, rfl⟩ := Option.map_eq_some_iff.mp h
  obtain ⟨hlt, hget, -⟩ := List.findIdx?_eq_some_iff_getElem.mp hk
  rw [decide_eq_true_eq] at hget
  have hdrop := List.drop_eq_getElem_cons hlt
  rw [hget, List.drop_drop (i := k + 1)] at hdrop
  rw [List.length_drop] at hlt
  refine ⟨Nat.le_add_right pos k, by omega, ?_⟩
  rw [Nat.add_sub_cancel_left, Nat.add_assoc, ← hdrop, List.take_append_drop]

theorem findUnderscore_eq_none {pos : ℕ} (h : findUnderscore name pos = none) :
    95 ∉ name.drop pos := by
  intro hmem
  have hnone := List.findIdx?_eq_none_iff.mp (Option.map_eq_none_iff.mp h) 95 hmem
  simp at hnone

/-- There is a word as long as there are letters. -/
theorem underscoreLoop_eq_nil_iff {turns cur_pos : ℕ} (hturns : 0 < turns) :
    underscoreLoop name turns cur_pos = [] ↔ name.length ≤ cur_pos := by
  obtain ⟨turns, rfl⟩ : ∃ k, turns = k + 1 := ⟨turns - 1, by omega⟩
  rw [underscoreLoop]
  cases hfind : findUnderscore name cur_pos with
  | some found_pos =>
    have hlt := findUnderscore_eq_some hfind
    simp only [reduceCtorEq, false_iff]
    omega
  | none =>
    simp only
    split
    · simp only [reduceCtorEq, false_iff]
      omega
    · simp only [true_iff]
      omega

/-- **Joined by underscores, the words give the name.** -/
theorem underscoreLoop_spec {turns cur_pos : ℕ} (hturns : name.length - cur_pos < turns) :
    List.intercalate [95] ((underscoreLoop name turns cur_pos).map (View.text name)) =
      withoutLast (name.drop cur_pos) := by
  induction turns generalizing cur_pos with
  | zero => omega
  | succ turns ih =>
    rw [underscoreLoop]
    cases hfind : findUnderscore name cur_pos with
    | none =>
      have hnone := findUnderscore_eq_none hfind
      have hlast : (name.drop cur_pos).getLast? ≠ some 95 :=
        fun h ↦ hnone (List.mem_of_getLast? h)
      simp only
      rw [withoutLast, if_neg hlast]
      split
      · rw [List.map_singleton, List.intercalate_singleton, View.text,
          List.take_of_length_le (by rw [List.length_drop])]
      · rw [List.drop_of_length_le (by omega)]
        rfl
    | some found_pos =>
      obtain ⟨hle, hlt, hdrop⟩ := findUnderscore_eq_some hfind
      have hrest := @ih (found_pos + 1) (by omega)
      simp only [List.map_cons]
      rw [hdrop]
      by_cases hend : name.length ≤ found_pos + 1
      · rw [(underscoreLoop_eq_nil_iff (by omega)).mpr hend, List.drop_of_length_le hend,
          List.map_nil, List.intercalate_singleton, withoutLast, List.getLast?_concat, if_pos rfl,
            List.dropLast_concat]
        rfl
      · have hne : (underscoreLoop name turns (found_pos + 1)).map (View.text name) ≠ [] := by
          rw [ne_eq, List.map_eq_nil_iff, underscoreLoop_eq_nil_iff (by omega)]
          exact hend
        have hne' : name.drop (found_pos + 1) ≠ [] := fun h ↦ hend (List.drop_eq_nil_iff.mp h)
        rw [List.intercalate_cons_of_ne_nil hne, hrest, withoutLast_append _ hne', View.text,
          List.append_assoc]
        rfl

/-! ## The main result -/

/-- **The words of a name.**  Without an underscore the words are those of the name one after the
other, none of them is empty, and each is a maximal run of capitals before another capital or the
end, or is capitalized; with one, the words joined by underscores are the name, or all but its last
letter if this is an underscore. -/
theorem splitIntoWords_correct (name : Str) :
    (name ≠ [] → 95 ∉ name →
      ((splitIntoWords name).map (View.text name)).flatten = name ∧
        ∀ v ∈ splitIntoWords name, v.text name ≠ [] ∧ (Run name v ∨ Capitalized name v)) ∧
      (95 ∈ name → List.intercalate [95] ((splitIntoWords name).map (View.text name)) =
        if name.getLast? = some 95 then name.dropLast else name) := by
  constructor
  · intro hne hnone
    obtain ⟨htiles, hpieces⟩ := capitalLoop_spec name 0 0 rfl (Nat.zero_le _) (.inr ⟨rfl, hne⟩)
      fun i hi hi' ↦ by omega
    have hopen : Open name 0 0 none := ⟨rfl, fun i hi ↦ by omega⟩
    obtain ⟨htiles', hwords⟩ := joinLoop_spec htiles hpieces hopen
    rw [splitIntoWords, if_neg fun h ↦ hnone (List.contains_iff_mem.mp h)]
    refine ⟨htiles'.flatten, fun v hv ↦ ⟨fun hnil ↦ ?_, hwords v hv⟩⟩
    have hlength : (v.text name).length = v.size := by
      have hle := htiles'.add_le hv
      rw [View.text, List.length_take, List.length_drop]
      omega
    have hpos := htiles'.pos hv
    rw [hnil, List.length_nil] at hlength
    omega
  · intro hmem
    rw [splitIntoWords, if_pos (List.contains_iff_mem.mpr hmem)]
    exact underscoreLoop_spec (by omega)

end ClangFun
end ManyTasks
