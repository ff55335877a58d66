import ManyTasks.Matrix3.Lexing
import ManyTasks.Matrix3.Meaning
import Mathlib.Data.List.TakeWhile

/-!
# How lines are nested

`CalculateTransformMatrix` takes the body of a loop out of the lines after it and gives it to
another `Interpreter`, and so on.  What comes of all this is a rule about one line and the next: a
line after a loop is one deeper, and a line after another one is no deeper (`Nested`).

`run_ok_iff` says that `Run` returns on the texts whose lines are nested and can be read each
(`Taken`).
-/

set_option autoImplicit false

namespace ManyTasks
namespace Matrix3

/-! ## Depths -/

/-- Which depth a line may have. -/
inductive Slot where
  /-- The first line in a loop. -/
  | exactly (depth : ℕ)
  /-- A line after others. -/
  | upTo (depth : ℕ)
deriving DecidableEq, Repr

namespace Slot

def admits : Slot → ℕ → Prop
  | exactly depth, tab_count => tab_count = depth
  | upTo depth, tab_count => tab_count ≤ depth

/-- There may be no more lines. -/
def done : Slot → Prop
  | exactly _ => False
  | upTo _ => True

/-- The slot after a line. -/
def after (tab_count : ℕ) (isLoop : Bool) : Slot :=
  if isLoop then exactly (tab_count + 1) else upTo tab_count

/-- Lines of this depth are outside. -/
def above (depth : ℕ) : Slot → Prop
  | exactly tab_count => depth < tab_count
  | upTo tab_count => depth ≤ tab_count

instance (slot : Slot) (tab_count : ℕ) : Decidable (slot.admits tab_count) :=
  match slot with
  | exactly depth => inferInstanceAs (Decidable (tab_count = depth))
  | upTo depth => inferInstanceAs (Decidable (tab_count ≤ depth))

instance (slot : Slot) : Decidable slot.done :=
  match slot with
  | exactly _ => .isFalse not_false
  | upTo _ => .isTrue trivial

end Slot

/-- Lines of these depths, of which some are loops, are nested. -/
def Nested : Slot → List (ℕ × Bool) → Prop
  | slot, [] => slot.done
  | slot, (tab_count, isLoop) :: lines =>
    slot.admits tab_count ∧ Nested (.after tab_count isLoop) lines

instance decidableNested : (slot : Slot) → (lines : List (ℕ × Bool)) → Decidable (Nested slot lines)
  | slot, [] => inferInstanceAs (Decidable slot.done)
  | slot, (tab_count, isLoop) :: lines =>
    have := decidableNested (.after tab_count isLoop) lines
    inferInstanceAs (Decidable (slot.admits tab_count ∧ Nested (.after tab_count isLoop) lines))

section

variable {slot : Slot} {depth : ℕ} {lines sub rest : List (ℕ × Bool)}

theorem Slot.above_after {tab_count : ℕ} (h : depth < tab_count) (isLoop : Bool) :
    (Slot.after tab_count isLoop).above depth := by
  cases isLoop with
  | true => exact Nat.lt_succ_of_lt h
  | false => exact Nat.le_of_lt h

/-- **Deeper lines, and then lines outside.** -/
theorem nested_append (hslot : slot.above depth) (hsub : ∀ x ∈ sub, depth < x.1)
    (hrest : ∀ x ∈ rest.head?, x.1 ≤ depth) :
    Nested slot (sub ++ rest) ↔ Nested slot sub ∧ Nested (.upTo depth) rest := by
  induction sub generalizing slot with
  | nil =>
    rw [List.nil_append]
    cases slot with
    | exactly tab_count =>
      refine iff_of_false (fun h ↦ ?_) fun h ↦ h.1
      cases rest with
      | nil => exact h
      | cons x rest =>
        have heq : x.1 = tab_count := h.1
        have hle := hrest x rfl
        have hlt : depth < tab_count := hslot
        omega
    | upTo tab_count =>
      have hle : depth ≤ tab_count := hslot
      cases rest with
      | nil => exact iff_of_true trivial ⟨trivial, trivial⟩
      | cons x rest =>
        have hx := hrest x rfl
        constructor
        · intro h
          exact ⟨trivial, hx, h.2⟩
        · intro h
          exact ⟨hx.trans hle, h.2.2⟩
  | cons x sub ih =>
    have hx := hsub x List.mem_cons_self
    have hnext := ih (Slot.above_after hx x.2) fun y hy ↦ hsub y (List.mem_cons_of_mem x hy)
    rw [List.cons_append, Nested, Nested, hnext, and_assoc]

/-- The lines in a loop are not empty, and are lines as those outside are. -/
theorem nested_exactly (hsub : ∀ x ∈ sub, depth ≤ x.1) :
    Nested (.exactly depth) sub ↔ sub ≠ [] ∧ Nested (.upTo depth) sub := by
  cases sub with
  | nil => exact iff_of_false not_false fun h ↦ h.1 rfl
  | cons x sub =>
    have hx := hsub x List.mem_cons_self
    constructor
    · intro h
      exact ⟨List.cons_ne_nil x sub, Nat.le_of_eq h.1, h.2⟩
    · intro h
      exact ⟨Nat.le_antisymm h.2.1 hx, h.2.2⟩

/-- **The body of a loop and what comes after it.** -/
theorem nested_loop :
    Nested (.exactly (depth + 1)) lines
      ↔ lines.takeWhile (depth < ·.1) ≠ []
        ∧ Nested (.upTo (depth + 1)) (lines.takeWhile (depth < ·.1))
        ∧ Nested (.upTo depth) (lines.dropWhile (depth < ·.1)) := by
  have hsub : ∀ x ∈ lines.takeWhile (depth < ·.1), depth < x.1 := by
    intro x hx
    have hlt := List.mem_takeWhile_imp hx
    exact of_decide_eq_true hlt
  have hrest : ∀ x ∈ (lines.dropWhile (depth < ·.1)).head?, x.1 ≤ depth := by
    intro x hx
    have hnot := List.head?_dropWhile_not (depth < ·.1) lines
    rw [Option.mem_def.1 hx] at hnot
    exact Nat.le_of_not_lt (of_decide_eq_false hnot)
  have habove : (Slot.exactly (depth + 1)).above depth := Nat.lt_succ_self depth
  have happend := nested_append habove hsub hrest
  rw [List.takeWhile_append_dropWhile] at happend
  rw [happend, nested_exactly hsub, and_assoc]

end

/-! ## Lines of tokens -/

/-- The tabs a line begins with. -/
def tabs (line : Line) : ℕ := (line.takeWhile (· == .kTab)).length

/-- A line without them. -/
def content (line : Line) : Line := line.dropWhile (· == .kTab)

def isLoop (line : Line) : Bool := (content line).head? == some .kFor

def shape (line : Line) : ℕ × Bool := (tabs line, isLoop line)

/-- The line can be read. -/
def Taken (vars : List Name) (line : Line) : Prop :=
  match content line with
  | .kVar var_name :: _ => ∃ transform, assignment vars var_name (content line) = .ok transform
  | .kFor :: _ => ∃ iter_count, readFor (content line) = .ok iter_count
  | .kNewLine :: _ => True
  | _ => False

section

variable {vars : List Name} {depth : ℕ} {line : Line} {lines : List Line}

theorem countTabs_eq (h : content line ≠ []) : countTabs line = .ok (tabs line, content line) := by
  induction line with
  | nil => exact absurd rfl h
  | cons token line ih =>
    by_cases htab : token = .kTab
    · subst htab
      rw [countTabs, ih h, Lib.ok_bind]
      rfl
    · have hne : (token == .kTab) = false := beq_eq_false_iff_ne.2 htab
      rw [countTabs, tabs, content, List.takeWhile_cons, List.dropWhile_cons, hne]
      · rfl
      · exact htab

theorem takeBody_eq (h : ∀ line ∈ lines, content line ≠ []) :
    takeBody depth lines
      = .ok (lines.takeWhile (depth < tabs ·), lines.dropWhile (depth < tabs ·)) := by
  induction lines with
  | nil => rfl
  | cons line lines ih =>
    obtain ⟨hline, hlines⟩ := List.forall_mem_cons.1 h
    rw [takeBody, countTabs_eq hline, Lib.ok_bind, List.takeWhile_cons, List.dropWhile_cons]
    dsimp only
    by_cases hle : tabs line ≤ depth
    · rw [if_pos hle, if_neg (by simpa using hle), if_neg (by simpa using hle)]
      rfl
    · rw [if_neg hle, if_pos (by simpa using hle), if_pos (by simpa using hle), ih hlines]
      rfl

theorem firstToken_eq {token : Token} {rest : Line} (h : content line = token :: rest) :
    firstToken depth line
      = if tabs line = depth then .ok (token, token :: rest)
        else .error (.matrixException "Wrong tab count") := by
  rw [firstToken, countTabs_eq (by rw [h]; exact List.cons_ne_nil token rest), Lib.ok_bind, h]
  by_cases hdepth : tabs line = depth
  · rw [if_pos hdepth]
    simp [hdepth]
  · rw [if_neg hdepth]
    simp [hdepth]

/-- The token a line is recognised by. -/
theorem firstToken_ok {token : Token} {cursor : Line} (hline : content line ≠ [])
    (h : firstToken depth line = .ok (token, cursor)) :
    tabs line = depth ∧ content line = cursor ∧ ∃ rest, cursor = token :: rest := by
  obtain ⟨token', rest, hcontent⟩ := List.exists_cons_of_ne_nil hline
  rw [firstToken_eq hcontent] at h
  split at h
  · rename_i hdepth
    cases h
    exact ⟨hdepth, hcontent, rest, rfl⟩
  · cases h

/-- The lines in a loop and after it, or the lines of a program. -/
def Accepted (vars : List Name) (depth : ℕ) (lines : List Line) : Prop :=
  (∀ line ∈ lines, Taken vars line) ∧ (∀ line ∈ lines, depth ≤ tabs line)
    ∧ Nested (.upTo depth) (lines.map shape)

theorem taken_var {var_name : Name} {rest : Line} (h : content line = .kVar var_name :: rest) :
    Taken vars line
      ↔ ∃ transform, assignment vars var_name (.kVar var_name :: rest) = .ok transform := by
  rw [Taken, h]

theorem taken_for {rest : Line} (h : content line = .kFor :: rest) :
    Taken vars line ↔ ∃ iter_count, readFor (.kFor :: rest) = .ok iter_count := by
  rw [Taken, h]

theorem taken_newLine {rest : Line} (h : content line = .kNewLine :: rest) : Taken vars line := by
  rw [Taken, h]
  trivial

theorem isLoop_eq {token : Token} {rest : Line} (h : content line = token :: rest) :
    isLoop line = (some token == some .kFor) := by
  rw [isLoop, h]
  rfl

theorem accepted_cons (hdepth : tabs line = depth) (hloop : isLoop line = false) :
    Accepted vars depth (line :: lines) ↔ Taken vars line ∧ Accepted vars depth lines := by
  have hafter : Slot.after (tabs line) (isLoop line) = .upTo depth := by
    rw [hloop, hdepth]
    rfl
  rw [Accepted, Accepted, List.forall_mem_cons, List.forall_mem_cons, List.map_cons, shape, Nested,
    hafter]
  constructor
  · rintro ⟨⟨hline, hlines⟩, ⟨-, hle⟩, -, hnested⟩
    exact ⟨hline, hlines, hle, hnested⟩
  · rintro ⟨hline, hlines, hle, hnested⟩
    exact ⟨⟨hline, hlines⟩, ⟨Nat.le_of_eq hdepth.symm, hle⟩, Nat.le_of_eq hdepth, hnested⟩

theorem accepted_loop (hdepth : tabs line = depth) (hloop : isLoop line = true) :
    Accepted vars depth (line :: lines)
      ↔ Taken vars line ∧ lines.takeWhile (depth < tabs ·) ≠ []
        ∧ Accepted vars (depth + 1) (lines.takeWhile (depth < tabs ·))
        ∧ Accepted vars depth (lines.dropWhile (depth < tabs ·)) := by
  have hsub : ∀ line ∈ lines.takeWhile (depth < tabs ·), depth + 1 ≤ tabs line := by
    intro line hline
    have hlt := List.mem_takeWhile_imp hline
    exact of_decide_eq_true hlt
  have hafter : Slot.after (tabs line) (isLoop line) = .exactly (depth + 1) := by
    rw [hloop, hdepth]
    rfl
  have hsplit (P : Line → Prop) : (∀ line ∈ lines, P line)
      ↔ (∀ line ∈ lines.takeWhile (depth < tabs ·), P line)
        ∧ ∀ line ∈ lines.dropWhile (depth < tabs ·), P line := by
    rw [← List.forall_mem_append, List.takeWhile_append_dropWhile]
  have htake : (lines.map shape).takeWhile (depth < ·.1)
      = (lines.takeWhile (depth < tabs ·)).map shape := by
    rw [List.takeWhile_map]
    rfl
  have hdrop : (lines.map shape).dropWhile (depth < ·.1)
      = (lines.dropWhile (depth < tabs ·)).map shape := by
    rw [List.dropWhile_map]
    rfl
  rw [Accepted, Accepted, Accepted, List.forall_mem_cons, List.forall_mem_cons, List.map_cons,
    shape, Nested, hafter, nested_loop, htake, hdrop, ne_eq, List.map_eq_nil_iff,
    hsplit (Taken vars), hsplit (depth ≤ tabs ·)]
  constructor
  · rintro ⟨⟨hline, hin, hout⟩, ⟨-, -, hle⟩, -, hne, hbody, hrest⟩
    exact ⟨hline, hne, ⟨hin, hsub, hbody⟩, hout, hle, hrest⟩
  · rintro ⟨hline, hne, ⟨hin, -, hbody⟩, hout, hle, hrest⟩
    exact ⟨⟨hline, hin, hout⟩, ⟨Nat.le_of_eq hdepth.symm,
      fun line hmem ↦ Nat.le_of_succ_le (hsub line hmem), hle⟩, Nat.le_of_eq hdepth, hne, hbody,
      hrest⟩

/-- **The interpreter returns on lines that can be read and are nested.** -/
theorem calculateFrom_ok_iff (vars : List Name) (depth : ℕ)
    (res : DenseMatrix (vars.length + 1) (vars.length + 1)) (lines : List Line)
    (hlines : ∀ line ∈ lines, content line ≠ []) :
    (∃ transform, calculateFrom vars depth res lines = .ok transform)
      ↔ Accepted vars depth lines := by
  fun_induction calculateFrom vars depth res lines with
  | case1 depth res =>
    exact iff_of_true ⟨res, rfl⟩ ⟨List.forall_mem_nil _, List.forall_mem_nil _, trivial⟩
  | case2 depth res first program e hfirst =>
    obtain ⟨hline, -⟩ := List.forall_mem_cons.1 hlines
    obtain ⟨token, rest, hcontent⟩ := List.exists_cons_of_ne_nil hline
    refine iff_of_false (by simp) fun h ↦ ?_
    have hdepth : tabs first = depth :=
      Nat.le_antisymm h.2.2.1 (h.2.1 first List.mem_cons_self)
    rw [firstToken_eq hcontent, if_pos hdepth] at hfirst
    cases hfirst
  | case3 depth res first program var_name line hfirst e hassign =>
    obtain ⟨hline, -⟩ := List.forall_mem_cons.1 hlines
    obtain ⟨-, hcontent, rest, rfl⟩ := firstToken_ok hline hfirst
    refine iff_of_false (by simp) fun h ↦ ?_
    obtain ⟨transform, htransform⟩ := (taken_var hcontent).1 (h.1 first List.mem_cons_self)
    rw [hassign] at htransform
    cases htransform
  | case4 depth res first program var_name line hfirst transform hassign ih =>
    obtain ⟨hline, hlines⟩ := List.forall_mem_cons.1 hlines
    obtain ⟨hdepth, hcontent, rest, rfl⟩ := firstToken_ok hline hfirst
    rw [ih hlines, accepted_cons hdepth (isLoop_eq hcontent),
      and_iff_right ((taken_var hcontent).2 ⟨transform, hassign⟩)]
  | case5 depth res first program line hfirst e hfor =>
    obtain ⟨hline, -⟩ := List.forall_mem_cons.1 hlines
    obtain ⟨-, hcontent, rest, rfl⟩ := firstToken_ok hline hfirst
    refine iff_of_false (by simp) fun h ↦ ?_
    obtain ⟨iter_count, hcount⟩ := (taken_for hcontent).1 (h.1 first List.mem_cons_self)
    rw [hfor] at hcount
    cases hcount
  | case6 depth res first program line hfirst iter_count hfor e hbody =>
    rw [takeBody_eq (List.forall_mem_cons.1 hlines).2] at hbody
    cases hbody
  | case7 depth res first program line hfirst iter_count hfor rest hbody =>
    obtain ⟨hline, hlines⟩ := List.forall_mem_cons.1 hlines
    obtain ⟨hdepth, hcontent, rest, rfl⟩ := firstToken_ok hline hfirst
    rw [takeBody_eq hlines] at hbody
    have hempty : program.takeWhile (depth < tabs ·) = [] := congrArg Prod.fst (Except.ok.inj hbody)
    rw [accepted_loop hdepth (isLoop_eq hcontent)]
    exact iff_of_false (by simp) fun h ↦ h.2.1 hempty
  | case8 depth res first program line hfirst iter_count hfor subprogram rest hbody hne e hsub
      ih =>
    obtain ⟨hline, hlines⟩ := List.forall_mem_cons.1 hlines
    obtain ⟨hdepth, hcontent, rest, rfl⟩ := firstToken_ok hline hfirst
    rw [takeBody_eq hlines] at hbody
    cases hbody
    rw [accepted_loop hdepth (isLoop_eq hcontent)]
    refine iff_of_false (by simp) fun h ↦ ?_
    have hin := (ih fun line hmem ↦ hlines line ((List.takeWhile_sublist _).subset hmem)).2 h.2.2.1
    obtain ⟨transform, htransform⟩ := hin
    rw [hsub] at htransform
    cases htransform
  | case9 depth res first program line hfirst iter_count hfor subprogram rest hbody hne body hsub
      ihsub ih =>
    obtain ⟨hline, hlines⟩ := List.forall_mem_cons.1 hlines
    obtain ⟨hdepth, hcontent, rest, rfl⟩ := firstToken_ok hline hfirst
    rw [takeBody_eq hlines] at hbody
    cases hbody
    have hin := (ihsub fun line hmem ↦ hlines line ((List.takeWhile_sublist _).subset hmem)).1
      ⟨body, hsub⟩
    rw [ih fun line hmem ↦ hlines line ((List.dropWhile_sublist _).subset hmem),
      accepted_loop hdepth (isLoop_eq hcontent), and_iff_right ((taken_for hcontent).2
        ⟨iter_count, hfor⟩), and_iff_right hne, and_iff_right hin]
  | case10 depth res first program line hfirst ih =>
    obtain ⟨hline, hlines⟩ := List.forall_mem_cons.1 hlines
    obtain ⟨hdepth, hcontent, rest, rfl⟩ := firstToken_ok hline hfirst
    rw [ih hlines, accepted_cons hdepth (isLoop_eq hcontent),
      and_iff_right (taken_newLine hcontent)]
  | case11 depth res first program r hvar hfor hnl hfirst =>
    obtain ⟨hline, -⟩ := List.forall_mem_cons.1 hlines
    obtain ⟨-, hcontent, rest, hrest⟩ := firstToken_ok hline hfirst
    refine iff_of_false (by simp) fun h ↦ ?_
    have htaken := h.1 first List.mem_cons_self
    rw [Taken, hcontent, hrest] at htaken
    split at htaken
    · rename_i heq
      exact hvar _ _ (Prod.ext (List.cons.inj heq).1 rfl)
    · rename_i heq
      exact hfor _ (Prod.ext (List.cons.inj heq).1 rfl)
    · rename_i heq
      exact hnl _ (Prod.ext (List.cons.inj heq).1 rfl)
    · exact htaken

end

/-! ## Programs -/

/-- A line of tokens ends with a token for its end. -/
theorem exists_of_mem_tokenize {text : List UInt8} {line : Line} (h : line ∈ tokenize text) :
    ∃ source ∈ sourceLines text, ∃ cur_line,
      cur_line = List.replicate (source.indent / 4) .kTab ++ tokensOf source.lexemes
        ∧ cur_line ≠ [] ∧ line = cur_line ++ [.kNewLine] := by
  rw [tokenize_eq, List.mem_flatMap] at h
  obtain ⟨source, hsource, h⟩ := h
  rw [SourceLine.tokens, closeLine] at h
  split at h
  · cases h
  · rename_i hne
    exact ⟨source, hsource, _, rfl, hne, List.mem_singleton.1 h⟩

theorem content_ne_nil {text : List UInt8} {line : Line} (h : line ∈ tokenize text) :
    content line ≠ [] := by
  obtain ⟨-, -, cur_line, -, -, rfl⟩ := exists_of_mem_tokenize h
  intro hnil
  have htab := List.dropWhile_eq_nil_iff.1 hnil .kNewLine (by simp)
  exact absurd htab (by decide)

theorem accepted_zero {vars : List Name} {lines : List Line} :
    Accepted vars 0 lines
      ↔ (∀ line ∈ lines, Taken vars line) ∧ Nested (.upTo 0) (lines.map shape) :=
  and_congr_right fun _ ↦ and_iff_right fun line _ ↦ Nat.zero_le (tabs line)

/-- **`Run` returns on the texts whose lines can be read and are nested.** -/
theorem run_ok_iff (text : List UInt8) :
    (∃ result, run text = .ok result)
      ↔ (∀ line ∈ tokenize text, Taken (gatherVars (tokenize text)) line)
        ∧ Nested (.upTo 0) ((tokenize text).map shape) := by
  have hcalculate := calculateFrom_ok_iff (gatherVars (tokenize text)) 0 (.identity _)
    (tokenize text) fun line hline ↦ content_ne_nil hline
  rw [← accepted_zero, ← hcalculate]
  constructor
  · rintro ⟨result, h⟩
    obtain ⟨transform, htransform, -⟩ := Lib.bind_eq_ok.1 h
    exact ⟨transform, htransform⟩
  · rintro ⟨transform, htransform⟩
    rw [run, calculateTransformMatrix, htransform]
    exact ⟨_, rfl⟩

end Matrix3
end ManyTasks
