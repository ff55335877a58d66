import ManyTasks.Matrix3.Nesting

/-!
# Blank lines

A line of fewer than four blanks is nothing.  A longer one is a line with a tab for every four of
them and without a statement, and has to be at the right depth as any other line has
(`unchanged_iff`).  Where it is, it does not change what the program does (`parseFrom_insert`).
-/

set_option autoImplicit false

namespace ManyTasks
namespace Matrix3

/-! ## Reading a program line by line -/

section

variable {vars : List Name} {depth : ℕ} {first : Line} {program : List Line}

theorem parseFrom_var {var_name : Name} {rest : Line} (hdepth : tabs first = depth)
    (hcontent : content first = .kVar var_name :: rest) :
    parseFrom vars depth (first :: program)
      = match parseAssign vars var_name (.kVar var_name :: rest) with
        | .error e => .error e
        | .ok (op, expr) =>
          do return .assign var_name op expr (← parseFrom vars depth program) := by
  rewrite [parseFrom, firstToken_eq hcontent, if_pos hdepth]
  rfl

theorem parseFrom_newLine {rest : Line} (hdepth : tabs first = depth)
    (hcontent : content first = .kNewLine :: rest) :
    parseFrom vars depth (first :: program) = parseFrom vars depth program := by
  rw [parseFrom, firstToken_eq hcontent, if_pos hdepth]

theorem parseFrom_for {rest : Line} (hdepth : tabs first = depth)
    (hcontent : content first = .kFor :: rest) (hlines : ∀ line ∈ program, content line ≠ [])
    (hne : program.takeWhile (depth < tabs ·) ≠ []) :
    parseFrom vars depth (first :: program)
      = match readFor (.kFor :: rest) with
        | .error e => .error e
        | .ok iter_count =>
          match parseFrom vars (depth + 1) (program.takeWhile (depth < tabs ·)) with
          | .error e => .error e
          | .ok body => do
            return .loop iter_count body
              (← parseFrom vars depth (program.dropWhile (depth < tabs ·))) := by
  rw [parseFrom, firstToken_eq hcontent, if_pos hdepth]
  dsimp only
  cases readFor (.kFor :: rest) with
  | error e => rfl
  | ok iter_count =>
    dsimp only
    split
    · rename_i e hbody
      rw [takeBody_eq hlines] at hbody
      cases hbody
    · rename_i subprogram rest' hbody
      rw [takeBody_eq hlines] at hbody
      cases hbody
      rewrite [if_neg hne]
      rfl

/-- What the first line of a program is. -/
theorem Accepted.head (h : Accepted vars depth (first :: program)) :
    tabs first = depth ∧ ((∃ var_name rest, content first = .kVar var_name :: rest)
      ∨ (∃ rest, content first = .kFor :: rest) ∨ ∃ rest, content first = .kNewLine :: rest) := by
  refine ⟨Nat.le_antisymm h.2.2.1 (h.2.1 first List.mem_cons_self), ?_⟩
  have htaken := h.1 first List.mem_cons_self
  rw [Taken] at htaken
  split at htaken
  · rename_i var_name rest hcontent
    exact Or.inl ⟨var_name, rest, hcontent⟩
  · rename_i rest hcontent
    exact Or.inr (Or.inl ⟨rest, hcontent⟩)
  · rename_i rest hcontent
    exact Or.inr (Or.inr ⟨rest, hcontent⟩)
  · exact htaken.elim

/-- A loop ends within the lines in front of a place, or they are all in it. -/
theorem split_before (p : Line → Bool) (before : List Line) :
    (∀ line ∈ before, p line = true)
      ∨ ∃ sub rest, rest.length ≤ before.length ∧ before = sub ++ rest
        ∧ ∀ after, (before ++ after).takeWhile p = sub ∧
          (before ++ after).dropWhile p = rest ++ after := by
  induction before with
  | nil => exact Or.inl (List.forall_mem_nil _)
  | cons line before ih =>
    by_cases hline : p line = true
    · obtain hall | ⟨sub, rest, hlen, rfl, hsplit⟩ := ih
      · exact Or.inl (List.forall_mem_cons.2 ⟨hline, hall⟩)
      · refine Or.inr ⟨line :: sub, rest, Nat.le_succ_of_le hlen, rfl, fun after ↦ ?_⟩
        obtain ⟨htake, hdrop⟩ := hsplit after
        rw [List.cons_append, List.takeWhile_cons, List.dropWhile_cons, if_pos hline, if_pos hline,
          htake, hdrop]
        exact ⟨rfl, rfl⟩
    · refine Or.inr ⟨[], line :: before, Nat.le_refl _, rfl, fun after ↦ ?_⟩
      rw [List.cons_append, List.takeWhile_cons, List.dropWhile_cons, if_neg hline, if_neg hline]
      exact ⟨rfl, rfl⟩

/-- Lines outside a loop are not in it. -/
theorem outside_of_accepted {lines : List Line} (h : Accepted vars depth lines) :
    lines.takeWhile (depth < tabs ·) = [] ∧ lines.dropWhile (depth < tabs ·) = lines := by
  cases lines with
  | nil => exact ⟨rfl, rfl⟩
  | cons line lines =>
    have hneg : ¬ decide (depth < tabs line) = true := by
      rw [h.head.1]
      simp
    rw [List.takeWhile_cons, List.dropWhile_cons, if_neg hneg, if_neg hneg]
    exact ⟨rfl, rfl⟩

/-- A blank line changes nothing in the lines of a program, where it may stand in them. -/
def Insertable (vars : List Name) (blank : Line) (depth : ℕ) (before after : List Line) : Prop :=
  (∀ line ∈ before ++ after, content line ≠ []) → Accepted vars depth (before ++ after) →
    Accepted vars depth (before ++ blank :: after) →
      parseFrom vars depth (before ++ blank :: after) = parseFrom vars depth (before ++ after)

/-- Behind the head of a loop, the line is in the loop or after it. -/
theorem insertable_for {before after : List Line} {blank rest end_ : Line}
    (hblank : content blank = .kNewLine :: end_) (hdepth : tabs first = depth)
    (hcontent : content first = .kFor :: rest)
    (ih : ∀ depth before' after', before'.length ≤ before.length →
      Insertable vars blank depth before' after') :
    Insertable vars blank depth (first :: before) after := by
  intro hlines hwithout hwith
  rw [List.cons_append] at hlines hwithout hwith ⊢
  rw [List.cons_append]
  obtain ⟨-, hlines⟩ := List.forall_mem_cons.1 hlines
  have hlines' : ∀ line ∈ before ++ blank :: after, content line ≠ [] := by
    intro line hline
    obtain hline | rfl | hline := List.mem_append.1 hline |>.imp_right List.mem_cons.1
    · exact hlines line (List.mem_append_left _ hline)
    · rw [hblank]
      exact List.cons_ne_nil _ _
    · exact hlines line (List.mem_append_right _ hline)
  obtain ⟨-, hne, hbody, hafter⟩ := (accepted_loop hdepth (isLoop_eq hcontent)).1 hwithout
  obtain ⟨-, hne', hbody', hafter'⟩ := (accepted_loop hdepth (isLoop_eq hcontent)).1 hwith
  rw [parseFrom_for hdepth hcontent hlines' hne', parseFrom_for hdepth hcontent hlines hne]
  obtain hall | ⟨sub, outside, hlen, rfl, hsplit⟩ := split_before (depth < tabs ·) before
  · rw [List.takeWhile_append_of_pos hall] at hbody hbody'
    rw [List.dropWhile_append_of_pos hall] at hafter'
    rw [List.takeWhile_append_of_pos hall, List.takeWhile_append_of_pos hall,
      List.dropWhile_append_of_pos hall, List.dropWhile_append_of_pos hall]
    by_cases hin : depth < tabs blank
    · have hpos : decide (depth < tabs blank) = true := decide_eq_true hin
      have hlines : ∀ line ∈ before ++ after.takeWhile (depth < tabs ·), content line ≠ [] := by
        intro line hline
        refine hlines line (List.mem_append.2 ?_)
        exact (List.mem_append.1 hline).imp_right fun h ↦ (List.takeWhile_sublist _).subset h
      rw [List.takeWhile_cons, if_pos hpos] at hbody'
      rw [List.takeWhile_cons, List.dropWhile_cons, if_pos hpos, if_pos hpos,
        ih (depth + 1) before _ (Nat.le_refl _) hlines hbody hbody']
    · have hneg : ¬ decide (depth < tabs blank) = true := by simpa using hin
      rw [List.dropWhile_cons, if_neg hneg] at hafter'
      obtain ⟨htake, hdrop⟩ := outside_of_accepted
        ((accepted_cons hafter'.head.1 (isLoop_eq hblank)).1 hafter').2
      rw [List.takeWhile_cons, List.dropWhile_cons, if_neg hneg, if_neg hneg, htake, hdrop,
        parseFrom_newLine hafter'.head.1 hblank]
  · obtain ⟨htake, hdrop⟩ := hsplit after
    obtain ⟨htake', hdrop'⟩ := hsplit (blank :: after)
    rw [hdrop] at hafter
    rw [hdrop'] at hafter'
    have hlines : ∀ line ∈ outside ++ after, content line ≠ [] := by
      rw [List.append_assoc] at hlines
      exact fun line hline ↦ hlines line (List.mem_append_right sub hline)
    rw [htake, hdrop, htake', hdrop', ih depth outside after hlen hlines hafter hafter']

/-- **A blank line changes nothing**, where it may stand. -/
theorem parseFrom_insert {before after : List Line} {blank : Line} {end_ : Line}
    (hblank : content blank = .kNewLine :: end_) : Insertable vars blank depth before after := by
  induction hn : before.length using Nat.strong_induction_on generalizing before depth after with
  | _ n ih =>
    subst hn
    cases before with
    | nil => exact fun _ _ hwith ↦ parseFrom_newLine hwith.head.1 hblank
    | cons first before =>
      replace ih depth before' after' (hlen : before'.length ≤ before.length) :
          Insertable vars blank depth before' after' := ih _ (Nat.lt_succ_of_le hlen) rfl
      intro hlines hwithout hwith
      obtain ⟨hdepth, hvar | ⟨rest, hcontent⟩ | hnl⟩ := Accepted.head hwith
      · obtain ⟨var_name, rest, hcontent⟩ := hvar
        have hcons (lines : List Line) : Accepted vars depth (first :: lines)
            ↔ Taken vars first ∧ Accepted vars depth lines :=
          accepted_cons hdepth (isLoop_eq hcontent)
        rw [List.cons_append, List.cons_append, parseFrom_var hdepth hcontent,
          parseFrom_var hdepth hcontent, ih depth before after (Nat.le_refl _)
            (List.forall_mem_cons.1 hlines).2 ((hcons _).1 hwithout).2 ((hcons _).1 hwith).2]
      · exact insertable_for hblank hdepth hcontent ih hlines hwithout hwith
      · obtain ⟨rest, hcontent⟩ := hnl
        have hcons (lines : List Line) : Accepted vars depth (first :: lines)
            ↔ Taken vars first ∧ Accepted vars depth lines :=
          accepted_cons hdepth (isLoop_eq hcontent)
        rw [List.cons_append, List.cons_append, parseFrom_newLine hdepth hcontent,
          parseFrom_newLine hdepth hcontent, ih depth before after (Nat.le_refl _)
            (List.forall_mem_cons.1 hlines).2 ((hcons _).1 hwithout).2 ((hcons _).1 hwith).2]

end

/-! ## A place between two lines -/

/-- The slot after lines. -/
def Slot.run (slot : Slot) : List (ℕ × Bool) → Slot
  | [] => slot
  | (tab_count, isLoop) :: lines => (Slot.after tab_count isLoop).run lines

/-- Lines may follow one another, as far as they go. -/
def Steps : Slot → List (ℕ × Bool) → Prop
  | _, [] => True
  | slot, (tab_count, isLoop) :: lines =>
    slot.admits tab_count ∧ Steps (.after tab_count isLoop) lines

/-- The next line may stand here, or the end. -/
def Slot.admitsNext (slot : Slot) : List (ℕ × Bool) → Prop
  | [] => slot.done
  | (tab_count, _) :: _ => slot.admits tab_count

/-- The lines after the next one are nested. -/
def NestedAfter : List (ℕ × Bool) → Prop
  | [] => True
  | (tab_count, isLoop) :: lines => Nested (.after tab_count isLoop) lines

theorem nested_iff (slot : Slot) (lines : List (ℕ × Bool)) :
    Nested slot lines ↔ slot.admitsNext lines ∧ NestedAfter lines := by
  cases lines with
  | nil => exact (and_true _).symm.to_iff
  | cons x lines => exact Iff.rfl

theorem nested_append_iff (slot : Slot) (before after : List (ℕ × Bool)) :
    Nested slot (before ++ after) ↔ Steps slot before ∧ Nested (slot.run before) after := by
  induction before generalizing slot with
  | nil => exact (true_and _).symm.to_iff
  | cons x before ih =>
    rw [List.cons_append, Nested, ih, Steps, Slot.run, and_assoc]

/-! ## Blank lines -/

/-- A line of blanks is put between two lines. -/
def insertBlanks (before : List UInt8) (k : ℕ) (after : List UInt8) : List UInt8 :=
  before ++ '\n'.toUInt8 :: (List.replicate k ' '.toUInt8 ++ '\n'.toUInt8 :: after)

/-- The line changes neither whether `Run` throws nor what it returns. -/
def Unchanged (before : List UInt8) (k : ℕ) (after : List UInt8) : Prop :=
  (run (insertBlanks before k after)).toOption = (run (before ++ '\n'.toUInt8 :: after)).toOption

/-- There is nothing wrong with the program, unless the two lines may not follow one another. -/
def RightElsewhere (before after : List UInt8) : Prop :=
  (∀ line ∈ tokenize (before ++ '\n'.toUInt8 :: after),
      Taken (gatherVars (tokenize (before ++ '\n'.toUInt8 :: after))) line)
    ∧ Steps (.upTo 0) ((tokenize before).map shape) ∧ NestedAfter ((tokenize after).map shape)

/-- The slot between the two lines. -/
def place (before : List UInt8) : Slot := Slot.run (.upTo 0) ((tokenize before).map shape)

/-- The next line may stand there just if a line of this depth may, and the next line after it. -/
def Harmless (before : List UInt8) (depth : ℕ) (after : List UInt8) : Prop :=
  (place before).admitsNext ((tokenize after).map shape)
    ↔ (place before).admits depth ∧ (Slot.upTo depth).admitsNext ((tokenize after).map shape)

/-- What the tokenizer makes of blanks. -/
def blankLine (depth : ℕ) : Line := List.replicate depth .kTab ++ [.kNewLine]

section

variable {before after : List UInt8} {k depth : ℕ}

theorem sourceLine_blanks (k : ℕ) : sourceLine (List.replicate k ' '.toUInt8) = ⟨k, []⟩ := by
  induction k with
  | zero =>
    rw [List.replicate_zero, sourceLine, lexemes]
    rfl
  | succ k ih =>
    rw [List.replicate_succ, sourceLine, indent_blank, lexemes_blank]
    exact congrArg₂ SourceLine.mk (congrArg (SourceLine.indent · + 1) ih)
      (congrArg SourceLine.lexemes ih)

theorem tokenize_blanks (k : ℕ) : tokenize (List.replicate k ' '.toUInt8)
    = if k < 4 then [] else [blankLine (k / 4)] := by
  have hline : '\n'.toUInt8 ∉ List.replicate k ' '.toUInt8 :=
    fun hmem ↦ absurd (List.eq_of_mem_replicate hmem) (by decide)
  have hempty : List.replicate (k / 4) Token.kTab ++ tokensOf [] = [] ↔ k < 4 := by
    rw [tokensOf, List.flatMap_nil, List.append_nil, List.replicate_eq_nil_iff]
    omega
  rw [tokenize_last hline, sourceLine_blanks, SourceLine.tokens, closeLine]
  simp only [hempty]
  rw [blankLine, tokensOf, List.flatMap_nil, List.append_nil]

theorem content_blankLine (depth : ℕ) : content (blankLine depth) = [.kNewLine] := by
  rw [content, blankLine, List.dropWhile_append_of_pos]
  · rfl
  · intro token htoken
    rw [List.eq_of_mem_replicate htoken]
    rfl

theorem shape_blankLine (depth : ℕ) : shape (blankLine depth) = (depth, false) := by
  have htabs : tabs (blankLine depth) = depth := by
    rw [tabs, blankLine, List.takeWhile_append_of_pos]
    · exact (List.length_append.trans (congrArg (· + 0) List.length_replicate))
    · intro token htoken
      rw [List.eq_of_mem_replicate htoken]
      rfl
  rw [shape, htabs, isLoop_eq (content_blankLine depth)]
  rfl

theorem gatherVars_blankLine (lines more : List (List Token)) :
    gatherVars (lines ++ blankLine depth :: more) = gatherVars (lines ++ more) := by
  have hblank (depth : ℕ) (vars : List Name) : (blankLine depth).foldl addVar vars = vars := by
    induction depth with
    | zero => rfl
    | succ depth ih => exact ih
  rw [gatherVars, gatherVars, List.foldl_append, List.foldl_append, List.foldl_cons, hblank]

/-- What the tokenizer makes of the program with the line. -/
theorem tokenize_insertBlanks (before after : List UInt8) (hk : ¬ k < 4) :
    tokenize (insertBlanks before k after)
      = tokenize before ++ blankLine (k / 4) :: tokenize after := by
  rw [insertBlanks, tokenize_append, tokenize_append, tokenize_blanks, if_neg hk]
  rfl

/-- A line of fewer than four blanks is nothing. -/
theorem unchanged_of_lt (before after : List UInt8) (hk : k < 4) : Unchanged before k after := by
  have htokens : tokenize (insertBlanks before k after)
      = tokenize (before ++ '\n'.toUInt8 :: after) := by
    rw [insertBlanks, tokenize_append, tokenize_append, tokenize_append, tokenize_blanks, if_pos hk]
    rfl
  rw [Unchanged, run, run, htokens]

/-- With the line, the program is accepted if the line may stand in its place. -/
theorem run_insertBlanks_ok_iff (hk : ¬ k < 4) :
    (∃ result, run (insertBlanks before k after) = .ok result)
      ↔ RightElsewhere before after ∧ (place before).admits (k / 4)
        ∧ (Slot.upTo (k / 4)).admitsNext ((tokenize after).map shape) := by
  have htaken (vars : List Name) : Taken vars (blankLine (k / 4)) :=
    taken_newLine (content_blankLine _)
  rw [run_ok_iff, tokenize_insertBlanks before after hk, gatherVars_blankLine, RightElsewhere,
    tokenize_append, List.map_append, List.map_cons, shape_blankLine, nested_append_iff,
    List.forall_mem_append, List.forall_mem_append, List.forall_mem_cons, Nested, place]
  change _ ∧ _ ∧ _ ∧ Nested (.upTo (k / 4)) _ ↔ _
  rw [nested_iff]
  constructor
  · rintro ⟨⟨hbefore, -, hafter⟩, hsteps, hadmits, hnext, hnested⟩
    exact ⟨⟨⟨hbefore, hafter⟩, hsteps, hnested⟩, hadmits, hnext⟩
  · rintro ⟨⟨⟨hbefore, hafter⟩, hsteps, hnested⟩, hadmits, hnext⟩
    exact ⟨⟨hbefore, htaken _, hafter⟩, hsteps, hadmits, hnext, hnested⟩

theorem run_between_ok_iff :
    (∃ result, run (before ++ '\n'.toUInt8 :: after) = .ok result)
      ↔ RightElsewhere before after ∧ (place before).admitsNext ((tokenize after).map shape) := by
  rw [run_ok_iff, RightElsewhere, tokenize_append, List.map_append, nested_append_iff, nested_iff,
    place]
  constructor
  · rintro ⟨htaken, hsteps, hnext, hnested⟩
    exact ⟨⟨htaken, hsteps, hnested⟩, hnext⟩
  · rintro ⟨⟨htaken, hsteps, hnested⟩, hnext⟩
    exact ⟨htaken, hsteps, hnext, hnested⟩

/-- Where both programs are accepted, they do the same. -/
theorem run_insertBlanks_eq (hk : ¬ k < 4) {result result' : Name → Option UInt64}
    (h : run (before ++ '\n'.toUInt8 :: after) = .ok result)
    (h' : run (insertBlanks before k after) = .ok result') : result' = result := by
  have hwithout := accepted_zero.2 ((run_ok_iff _).1 ⟨result, h⟩)
  have hwith := accepted_zero.2 ((run_ok_iff _).1 ⟨result', h'⟩)
  have hlines : ∀ line ∈ tokenize before ++ tokenize after, content line ≠ [] := by
    rw [← tokenize_append]
    exact fun line hline ↦ content_ne_nil hline
  rw [tokenize_append] at hwithout
  rw [tokenize_insertBlanks before after hk, gatherVars_blankLine] at hwith
  have hdirect : runDirect (insertBlanks before k after)
      = runDirect (before ++ '\n'.toUInt8 :: after) := by
    rw [runDirect, runDirect, tokenize_insertBlanks before after hk, tokenize_append,
      gatherVars_blankLine, parseFrom_insert (content_blankLine _) hlines hwithout hwith]
  exact Except.ok.inj ((run_eq_runDirect _ _ h').symm.trans
    (hdirect.trans (run_eq_runDirect _ _ h)))

end

/-- **A blank line does not matter** if it is short, or the program is rejected for something else,
or the line may be counted as one that is indented like it. -/
theorem unchanged_iff (before : List UInt8) (k : ℕ) (after : List UInt8) :
    Unchanged before k after
      ↔ k < 4 ∨ ¬ RightElsewhere before after ∨ Harmless before (k / 4) after := by
  by_cases hk : k < 4
  · exact iff_of_true (unchanged_of_lt before after hk) (Or.inl hk)
  rw [Unchanged, Lib.toOption_eq_iff fun result' result h' h ↦ run_insertBlanks_eq hk h h',
    run_insertBlanks_ok_iff hk, run_between_ok_iff, Harmless, or_iff_right hk]
  by_cases hright : RightElsewhere before after
  · rw [and_iff_right hright, and_iff_right hright, or_iff_right (not_not.2 hright)]
    exact Iff.comm
  · exact iff_of_true (iff_of_false (fun h ↦ hright h.1) fun h ↦ hright h.1) (Or.inl hright)

/-- Four blanks between `a=1` and `b=1` are an error. -/
theorem not_unchanged_four : ¬ Unchanged [97, 61, 49] 4 [98, 61, 49] := by
  intro h
  have hsome : ((run ([97, 61, 49] ++ '\n'.toUInt8 :: [98, 61, 49])).toOption).isSome = true := by
    decide +kernel
  have hnone : ((run (insertBlanks [97, 61, 49] 4 [98, 61, 49])).toOption).isSome = false := by
    decide +kernel
  rw [Unchanged] at h
  rw [h, hsome] at hnone
  cases hnone

end Matrix3
end ManyTasks
