import ManyTasks.Matrix3.Counts

/-!
# Loops that count

A body that hands a `1` on from one variable to the next tells how often it is executed: after `n`
times the first `n` variables are `1`.  With enough variables it tells any number from any smaller
one, and therefore a loop `for N` is executed `N` times in every program only if `N` is less than
`2 ^ 64` (`countsExactly_iff`).
-/

set_option autoImplicit false

namespace ManyTasks
namespace Matrix3

/-- A loop `for N` is executed `N` times, in every program that is not rejected; the other loops
may be executed as `Run` does it. -/
def CountsExactly (N : ℕ) : Prop :=
  ∀ text, match run text with
    | .ok result => result = outcome (Function.update (· % 2 ^ 64) N N) text
    | .error e => e.isException = true

/-! ## The delaying body -/

/-- The names `a`, `aa`, `aaa`, … -/
def delayName (j : ℕ) : Name := List.replicate (j + 1) 'a'.toUInt8

/-- What a variable is set to: the first one to `1`, the others to the one before. -/
def delayValue : ℕ → Expression
  | 0 => .number 1
  | j + 1 => .var (delayName j)

/-- The body, with `k + 1` variables, the last one first. -/
def delayBody : ℕ → Written
  | 0 => .assign (delayName 0) .set (delayValue 0) .done
  | k + 1 => .assign (delayName (k + 1)) .set (delayValue (k + 1)) (delayBody k)

theorem delayName_inj {i j : ℕ} : delayName i = delayName j ↔ i = j := by
  constructor
  · intro h
    have hlength := congrArg List.length h
    rw [delayName, delayName, List.length_replicate, List.length_replicate] at hlength
    exact Nat.succ_inj.1 hlength
  · rintro rfl
    rfl

/-- Executing the body once. -/
theorem delayBody_exec (count : ℕ → ℕ) (k : ℕ) (env : Env) (j : ℕ) :
    (delayBody k).execWith count env (delayName j)
      = if j ≤ k then value env (delayValue j) else env (delayName j) := by
  induction k generalizing env with
  | zero =>
    by_cases hj : j = 0
    · subst hj
      rw [if_pos (Nat.le_refl 0), delayBody, Written.execWith, Written.execWith,
        Function.update_self]
      rfl
    · have hne : delayName j ≠ delayName 0 := fun heq ↦ hj (delayName_inj.1 heq)
      rw [if_neg fun hle ↦ hj (Nat.le_zero.1 hle), delayBody, Written.execWith, Written.execWith,
        Function.update_of_ne hne]
  | succ k ih =>
    have hstep := ih (Function.update env (delayName (k + 1)) (value env (delayValue (k + 1))))
    rw [delayBody, Written.execWith]
    refine hstep.trans ?_
    by_cases hj : j ≤ k
    · rw [if_pos hj, if_pos (Nat.le_succ_of_le hj)]
      cases j with
      | zero => rfl
      | succ j =>
        have hne : delayName j ≠ delayName (k + 1) := by
          intro heq
          have hindex := delayName_inj.1 heq
          omega
        have hvalue (env : Env) : value env (delayValue (j + 1)) = env (delayName j) := rfl
        rw [hvalue, hvalue, Function.update_of_ne hne]
    · rw [if_neg hj]
      by_cases hlast : j = k + 1
      · subst hlast
        rw [if_pos (Nat.le_refl _), Function.update_self]
      · have hne : delayName j ≠ delayName (k + 1) := fun heq ↦ hlast (delayName_inj.1 heq)
        rw [if_neg fun hle ↦ hlast (Nat.le_antisymm hle (Nat.lt_of_not_le hj)),
          Function.update_of_ne hne]

/-- **The body counts.** -/
theorem delayBody_iterate (count : ℕ → ℕ) (k n : ℕ) {j : ℕ} (hj : j ≤ k) :
    ((delayBody k).execWith count)^[n] (fun _ ↦ 0) (delayName j) = if j < n then 1 else 0 := by
  induction n generalizing j with
  | zero => rfl
  | succ n ih =>
    rw [Function.iterate_succ_apply', delayBody_exec, if_pos hj]
    cases j with
    | zero =>
      rw [if_pos (Nat.zero_lt_succ n)]
      rfl
    | succ j =>
      rw [delayValue, value, ih (Nat.le_of_succ_le hj)]
      simp only [Nat.succ_lt_succ_iff]

/-! ## Its text -/

/-- What stands behind the `=`. -/
def delayExpr : ℕ → List UInt8
  | 0 => [49]
  | j + 1 => delayName j

def delayLexeme : ℕ → Lexeme
  | 0 => .number [49]
  | j + 1 => .word (delayName j)

/-- One line of the body. -/
def delayLine (j : ℕ) : List UInt8 :=
  List.replicate 4 ' '.toUInt8 ++ (delayName j ++ '='.toUInt8 :: delayExpr j)

def delayLines : ℕ → List UInt8
  | 0 => delayLine 0
  | k + 1 => delayLine (k + 1) ++ '\n'.toUInt8 :: delayLines k

def delaySource (j : ℕ) : SourceLine :=
  ⟨4, [.word (delayName j), .assign .set, delayLexeme j]⟩

def delaySources : ℕ → List SourceLine
  | 0 => [delaySource 0]
  | k + 1 => delaySource (k + 1) :: delaySources k

/-- The line `for N`. -/
def forLine (N : ℕ) : List UInt8 := forWord ++ ' '.toUInt8 :: Lib.printNat N

def forSource (N : ℕ) : SourceLine := ⟨0, [.word forWord, .number (Lib.printNat N)]⟩

/-- The body behind `for N`. -/
def delayText (N k : ℕ) : List UInt8 := forLine N ++ '\n'.toUInt8 :: delayLines k

section

variable {N k j : ℕ} {vars : List Name}

theorem lexemes_name {rest : List UInt8} (hrest : ∀ b ∈ rest.head?, isNameByte b = false) :
    lexemes (delayName j ++ rest) = .word (delayName j) :: lexemes rest := by
  refine lexemes_word (by decide) (fun b hb ↦ ?_) hrest
  rw [List.eq_of_mem_replicate hb]
  decide

theorem lexemes_delayExpr (j : ℕ) : lexemes (delayExpr j) = [delayLexeme j] := by
  cases j with
  | zero => exact lexemes_number (List.cons_ne_nil _ _) (List.forall_mem_singleton.2 (by decide))
  | succ j =>
    have hname : lexemes (delayName j ++ []) = .word (delayName j) :: lexemes [] :=
      lexemes_name nofun
    rw [List.append_nil, lexemes] at hname
    exact hname

theorem sourceLine_delayLine (j : ℕ) : sourceLine (delayLine j) = delaySource j := by
  have hset (rest : List UInt8) :
      lexemes ('='.toUInt8 :: rest) = .assign .set :: lexemes rest := by
    rw [lexemes, if_neg (by decide), if_neg (by decide), if_pos rfl]
    intro op _ hop
    rw [compound_of_not_mem (by decide)] at hop
    cases hop
  have hlexemes : lexemes (delayLine j) = (delaySource j).lexemes := by
    have hnext : ∀ b ∈ ('='.toUInt8 :: delayExpr j).head?, isNameByte b = false := by
      intro b hb
      cases hb
      decide
    rw [delayLine, List.replicate_succ, List.replicate_succ, List.replicate_succ,
      List.replicate_succ, List.replicate_zero]
    simp only [List.cons_append, List.nil_append, lexemes_blank]
    rw [lexemes_name hnext, hset, lexemes_delayExpr]
    rfl
  have hindent : indent (delayLine j) = 4 := by
    have hhead : (delayName j ++ '='.toUInt8 :: delayExpr j).head? ≠ some ' '.toUInt8 := by
      rw [delayName, List.replicate_succ]
      exact fun h ↦ absurd (Option.some.inj h) (by decide)
    rw [delayLine, List.replicate_succ, List.replicate_succ, List.replicate_succ,
      List.replicate_succ, List.replicate_zero]
    simp only [List.cons_append, List.nil_append, indent_blank, indent_of_head hhead]
  exact congrArg₂ SourceLine.mk hindent hlexemes

theorem sourceLine_forLine (N : ℕ) : sourceLine (forLine N) = forSource N := by
  have hnext : ∀ b ∈ (' '.toUInt8 :: Lib.printNat N).head?, isNameByte b = false := by
    intro b hb
    cases hb
    decide
  have hword : lexemes (forLine N) = .word forWord :: lexemes (' '.toUInt8 :: Lib.printNat N) :=
    lexemes_word rfl (List.forall_mem_cons.2 ⟨rfl, List.forall_mem_singleton.2 rfl⟩) hnext
  have hlexemes : lexemes (forLine N) = (forSource N).lexemes := by
    rw [hword, lexemes_blank, lexemes_number (Lib.printNat_ne_nil N)]
    · rfl
    · exact fun digit hmem ↦ Lib.isDigit_of_mem_printNat hmem
  exact congrArg₂ SourceLine.mk rfl hlexemes

theorem not_mem_delayName (j : ℕ) : '\n'.toUInt8 ∉ delayName j :=
  fun hmem ↦ absurd (List.eq_of_mem_replicate hmem) (by decide)

theorem not_mem_delayLine (j : ℕ) : '\n'.toUInt8 ∉ delayLine j := by
  have hexpr : '\n'.toUInt8 ∉ delayExpr j := by
    cases j with
    | zero => decide
    | succ j => exact not_mem_delayName j
  intro hmem
  obtain hmem | hmem := List.mem_append.1 hmem
  · exact absurd (List.eq_of_mem_replicate hmem) (by decide)
  · obtain hmem | hmem := List.mem_append.1 hmem
    · exact not_mem_delayName j hmem
    · obtain heq | hmem := List.mem_cons.1 hmem
      · exact absurd heq (by decide)
      · exact hexpr hmem

theorem not_mem_forLine (N : ℕ) : '\n'.toUInt8 ∉ forLine N := by
  intro hmem
  obtain hmem | hmem := List.mem_append.1 hmem
  · exact absurd hmem (by decide)
  · obtain heq | hmem := List.mem_cons.1 hmem
    · exact absurd heq (by decide)
    · exact absurd (Lib.isDigit_of_mem_printNat hmem) (by decide)

theorem sourceLines_delayLines (k : ℕ) : sourceLines (delayLines k) = delaySources k := by
  induction k with
  | zero =>
    rw [delayLines, sourceLines_last (not_mem_delayLine 0), sourceLine_delayLine, delaySources]
  | succ k ih =>
    rw [delayLines, sourceLines_cons (not_mem_delayLine (k + 1)), sourceLine_delayLine, ih,
      delaySources]

theorem mem_delaySources {source : SourceLine} (h : source ∈ delaySources k) :
    ∃ j, source = delaySource j := by
  induction k with
  | zero => exact ⟨0, List.mem_singleton.1 h⟩
  | succ k ih =>
    obtain rfl | h := List.mem_cons.1 h
    · exact ⟨k + 1, rfl⟩
    · exact ih h

theorem tokenLines_delayText (N k : ℕ) :
    tokenLines (delayText N k) = forSource N :: delaySources k := by
  rw [tokenLines, delayText, sourceLines_cons (not_mem_forLine N), sourceLine_forLine,
    sourceLines_delayLines, List.filter_eq_self]
  intro source hsource
  refine decide_eq_true (Or.inr ?_)
  obtain rfl | hsource := List.mem_cons.1 hsource
  · exact List.cons_ne_nil _ _
  · obtain ⟨j, rfl⟩ := mem_delaySources hsource
    exact List.cons_ne_nil _ _

/-! ## It is accepted -/

theorem delayName_ne (j : ℕ) : delayName j ≠ forWord := by
  intro heq
  have hmem : 'f'.toUInt8 ∈ delayName j := heq ▸ List.mem_cons_self
  exact absurd (List.eq_of_mem_replicate hmem) (by decide)

theorem derives_delayLexeme (j : ℕ) : Derives .sum [delayLexeme j] (delayValue j) := by
  cases j with
  | zero => exact .product (.factor (.number [49]))
  | succ j => exact .product (.factor (.var (delayName_ne j)))

theorem names_delayValue {j : ℕ} {name : Name} (h : name ∈ (delayValue j).names) :
    name ∈ names (lineOf (delaySource j).lexemes) := by
  obtain ⟨hfor, hmem⟩ := mem_names_lineOf.1 (names_of_derives (derives_delayLexeme j) name h)
  exact mem_names_lineOf.2 ⟨hfor, List.mem_cons_of_mem _ (List.mem_cons_of_mem _ hmem)⟩

theorem taken_delaySource
    (hknown : ∀ name ∈ names (lineOf (delaySource j).lexemes), name ∈ vars) :
    Taken vars (delaySource j).line := by
  have hseparated : (delayValue j).separated = true := by
    cases j with
    | _ => rfl
  obtain ⟨coeffs, hcoeffs, -⟩ :=
    evaluate_of_separated (fun name hname ↦ hknown name (names_delayValue hname)) hseparated
  have hset : AssignOp.set ≠ .times := nofun
  exact (taken_iff_of_derives rfl (delayName_ne j) hset (derives_delayLexeme j) hknown).2
    ⟨coeffs, hcoeffs⟩

theorem depth_delaySource (j : ℕ) : (delaySource j).indent / 4 = 1 :=
  Nat.div_self (Nat.zero_lt_succ 3)

theorem shape_forSource (N : ℕ) : (forSource N).shape = (0, true) :=
  congrArg₂ Prod.mk (Nat.zero_div 4) (beq_self_eq_true _)

theorem shape_delaySource (j : ℕ) : (delaySource j).shape = (1, false) := by
  have hloop : (some (Lexeme.word (delayName j)) == some (.word forWord)) = false :=
    beq_eq_false_iff_ne.2 fun heq ↦ delayName_ne j (Lexeme.word.inj (Option.some.inj heq))
  exact congrArg₂ Prod.mk (depth_delaySource j) hloop

theorem nested_delaySources (k : ℕ) :
    Nested (.exactly 1) ((delaySources k).map SourceLine.shape) := by
  have hbelow (k : ℕ) : Nested (.upTo 1) ((delaySources k).map SourceLine.shape) := by
    induction k with
    | zero =>
      rw [delaySources, List.map_singleton, shape_delaySource]
      exact ⟨Nat.le_refl 1, trivial⟩
    | succ k ih =>
      rw [delaySources, List.map_cons, shape_delaySource]
      exact ⟨Nat.le_refl 1, ih⟩
  cases k with
  | zero =>
    rw [delaySources, List.map_singleton, shape_delaySource]
    exact ⟨rfl, trivial⟩
  | succ k =>
    rw [delaySources, List.map_cons, shape_delaySource]
    exact ⟨rfl, hbelow k⟩

theorem run_delayText (N k : ℕ) : ∃ result, run (delayText N k) = .ok result := by
  rw [run_ok_iff_tokenLines]
  constructor
  · intro source hsource
    have hknown := known_of_mem hsource
    rw [tokenLines_delayText] at hsource
    obtain rfl | hsource := List.mem_cons.1 hsource
    · have hcontent : content (forSource N).line = .kFor :: lineOf [.number (Lib.printNat N)] := by
        rw [content_line]
        rfl
      exact (taken_for hcontent).2 ⟨_, rfl⟩
    · obtain ⟨j, rfl⟩ := mem_delaySources hsource
      exact taken_delaySource hknown
  · rw [tokenLines_delayText, List.map_cons, shape_forSource]
    exact ⟨Nat.le_refl 0, nested_delaySources k⟩

/-! ## What it tells -/

theorem written_delaySources
    (hknown : ∀ source ∈ delaySources k, ∀ name ∈ names (lineOf source.lexemes), name ∈ vars) :
    written vars (delaySources k) = delayBody k := by
  have hstatement {j : ℕ} (hknown : ∀ name ∈ names (lineOf (delaySource j).lexemes), name ∈ vars) :
      statement vars (delaySource j).lexemes
        = some (.assign (delayName j) .set (delayValue j)) :=
    statement_assign (delayName_ne j) rfl (parseExpr_of_derives (derives_delayLexeme j)
      fun name hname ↦ hknown name (names_delayValue hname))
  induction k with
  | zero =>
    rw [delaySources, written, hstatement (hknown _ (List.mem_singleton_self _))]
    dsimp only
    rw [written, delayBody]
  | succ k ih =>
    obtain ⟨hfirst, hknown⟩ := List.forall_mem_cons.1 hknown
    rw [delaySources, written, hstatement hfirst]
    dsimp only
    rw [ih hknown, delayBody]

/-- The last variable is `1` if the body has been executed more than `k` times. -/
theorem outcome_delayText (count : ℕ → ℕ) (N k : ℕ) :
    outcome count (delayText N k) (delayName k) = some (if k < count N then 1 else 0) := by
  have hlines := tokenLines_delayText N k
  have hknown : ∀ source ∈ tokenLines (delayText N k), ∀ name ∈ names (lineOf source.lexemes),
      name ∈ gatherVars (tokenize (delayText N k)) := fun source hsource ↦ known_of_mem hsource
  rw [hlines] at hknown
  obtain ⟨-, hknown⟩ := List.forall_mem_cons.1 hknown
  have hlast : delayName k ∈ gatherVars (tokenize (delayText N k)) := by
    have hmem : delaySource k ∈ delaySources k := by
      cases k with
      | zero => exact List.mem_singleton_self _
      | succ k => exact List.mem_cons_self
    exact hknown _ hmem _ (mem_names_lineOf.2 ⟨delayName_ne k, List.mem_cons_self⟩)
  have hinside : ∀ source ∈ delaySources k, decide (0 < source.indent / 4) = true := by
    intro source hsource
    obtain ⟨j, rfl⟩ := mem_delaySources hsource
    rw [depth_delaySource]
    rfl
  have hwritten : written (gatherVars (tokenize (delayText N k))) (forSource N :: delaySources k)
      = .loop (Lib.printNat N) (delayBody k) .done := by
    have hzero : (forSource N).indent / 4 = 0 := Nat.zero_div 4
    rw [written, forSource, statement_loop, ← forSource, hzero]
    dsimp only
    rw [List.takeWhile_eq_self_iff.2 hinside, List.dropWhile_eq_nil_iff.2 hinside,
      written_delaySources hknown, written]
  rw [outcome, if_pos hlast, hlines, hwritten, Written.execWith, Written.execWith,
    Lib.numeral_printNat, delayBody_iterate count k _ (Nat.le_refl k)]

end

/-- **The loops that count exactly** are those with a number below `2 ^ 64`. -/
theorem countsExactly_iff (N : ℕ) : CountsExactly N ↔ N < 2 ^ 64 := by
  constructor
  · intro h
    by_contra hge
    obtain ⟨result, hrun⟩ := run_delayText N (N % 2 ^ 64)
    have hexact := h (delayText N (N % 2 ^ 64))
    rw [hrun] at hexact
    dsimp only at hexact
    rw [run_eq_outcome hrun] at hexact
    have hlast := congrFun hexact (delayName (N % 2 ^ 64))
    have hlt : N % 2 ^ 64 < N :=
      (Nat.mod_lt N (by decide)).trans_le (Nat.le_of_not_lt hge)
    rw [outcome_delayText, outcome_delayText, if_neg (Nat.lt_irrefl _), Function.update_self,
      if_pos hlt] at hlast
    exact absurd (Option.some.inj hlast) (by decide)
  · intro hlt text
    cases hrun : run text with
    | error e =>
      obtain ⟨msg, rfl⟩ := run_throws text e hrun
      rfl
    | ok result =>
      have hcount : Function.update (· % 2 ^ 64) N N = (· % 2 ^ 64) := by
        have hself := Function.update_eq_self N (· % 2 ^ 64)
        rwa [Nat.mod_eq_of_lt hlt] at hself
      dsimp only
      rw [hcount]
      exact run_eq_outcome hrun

/-- The text of `for 18446744073709551616` with the body `a=1`. -/
def wrapText : List UInt8 :=
  [102, 111, 114, 32, 49, 56, 52, 52, 54, 55, 52, 52, 48, 55, 51, 55, 48, 57, 53, 53, 49, 54, 49,
    54, 10, 32, 32, 32, 32, 97, 61, 49]

/-- The body is to be executed `2 ^ 64` times, and is not executed at all. -/
theorem not_countsExactly_wrapText :
    (∃ result, run wrapText = .ok result ∧ result [97] = some 0
        ∧ outcome (Function.update (· % 2 ^ 64) (2 ^ 64) (2 ^ 64)) wrapText [97] = some 1)
      ∧ ¬ CountsExactly (2 ^ 64) := by
  have htext : wrapText = delayText (2 ^ 64) 0 := by decide +kernel
  obtain ⟨result, hrun⟩ := run_delayText (2 ^ 64) 0
  have hzero : result (delayName 0) = some 0 := by
    rw [run_eq_outcome hrun, outcome_delayText, if_neg (by decide)]
  have hone : outcome (Function.update (· % 2 ^ 64) (2 ^ 64) (2 ^ 64)) (delayText (2 ^ 64) 0)
      (delayName 0) = some 1 := by
    rw [outcome_delayText, Function.update_self, if_pos (by decide)]
  refine ⟨⟨result, htext ▸ hrun, hzero, htext ▸ hone⟩, fun h ↦ ?_⟩
  have hexact := h (delayText (2 ^ 64) 0)
  rw [hrun] at hexact
  have hlast := congrFun hexact (delayName 0)
  rw [hzero, hone] at hlast
  exact absurd (Option.some.inj hlast) (by decide)

end Matrix3
end ManyTasks
