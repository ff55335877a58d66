import ManyTasks.Lib.Pattern
import ManyTasks.ClangFun.Words

/-!
# Patterns of names

A name of a type is matched against `kTypeNamePattern`, and one of a constant against
`kConstPattern`.  What is meant is a rule about the runs of capitals in the name (`TypeName`).  The
last capital of a run begins the word after it, so a run before a small letter is one capital or at
least four, and one at the end is at least three.

A name that matches consists of words, which are capitals and then small letters, and maybe capitals
at the end (`Tail`).  What the rule says of a name it says of what comes after the first word, so
the two go along from word to word (`runs_append_iff`).

`std::regex_match` is about the whole name, so `^` and `$` do not say more.
-/

set_option autoImplicit false

namespace ManyTasks
namespace ClangFun

open RegularExpression Lib.Pattern

/-- `c >= 'a' && c <= 'z'` -/
def isSmall (c : UInt8) : Bool := 97 ≤ c && c ≤ 122

/-! ## The patterns -/

/-- The bytes from `lo` to `hi`. -/
def charRange (lo hi : UInt8) : Str :=
  ((List.range 256).map UInt8.ofNat).filter fun c ↦ lo ≤ c && c ≤ hi

/-- `[A-Z]` -/
def capital : RegularExpression UInt8 := oneOf (charRange 65 90)

/-- `[a-z]` -/
def small : RegularExpression UInt8 := oneOf (charRange 97 122)

/-- `[A-Z]([A-Z]{3,})?[a-z]+` -/
def firstWord : RegularExpression UInt8 := capital * opt (atLeast 3 capital) * many small

/-- `[A-Z][a-z]+|[A-Z]{4,}[a-z]+` -/
def nextWord : RegularExpression UInt8 := capital * many small + atLeast 4 capital * many small

/-- `[A-Z][a-z]+|[A-Z]{3,}` -/
def lastWord : RegularExpression UInt8 := capital * many small + atLeast 3 capital

def kTypeNamePattern : RegularExpression UInt8 := firstWord * nextWord.star * opt lastWord

def kConstPattern : RegularExpression UInt8 := char 107 * firstWord * nextWord.star * opt lastWord

/-- `std::regex_match` -/
def regexMatch (name : Str) (pattern : RegularExpression UInt8) : Bool := pattern.rmatch name

/-! ## The rule -/

/-- There is a small letter at this position. -/
def SmallAt (name : Str) (i : ℕ) : Prop := name[i]?.any isSmall = true

/-- A maximal run of capitals, from `a` to `b`. -/
structure CapitalRun (name : Str) (a b : ℕ) : Prop where
  lt : a < b
  capital : ∀ i, a ≤ i → i < b → CapitalAt name i
  before : ∀ i, i + 1 = a → ¬CapitalAt name i
  after : ¬CapitalAt name b

/-- The runs of capitals are as long as they have to be, and there are letters only. -/
structure Runs (name : Str) : Prop where
  letters : ∀ c ∈ name, isCapital c = true ∨ isSmall c = true
  followed : ∀ a b, CapitalRun name a b → SmallAt name b → b - a = 1 ∨ 4 ≤ b - a
  last : ∀ a, CapitalRun name a name.length → 3 ≤ name.length - a

/-- What is meant by a name of a type. -/
structure TypeName (name : Str) : Prop extends Runs name where
  first : CapitalAt name 0
  small : ∃ i, SmallAt name i

variable {name caps smalls rest : Str} {a b i n : ℕ} {c : UInt8}

theorem not_isSmall_of_isCapital (h : isCapital c = true) : isSmall c = false := by
  simp only [isCapital, isSmall, Bool.and_eq_true, decide_eq_true_eq, Bool.and_eq_false_iff,
    decide_eq_false_iff_not, UInt8.le_iff_toNat_le, UInt8.reduceToNat] at h ⊢
  omega

theorem capitalAt_iff : CapitalAt name i ↔ ∃ c, name[i]? = some c ∧ isCapital c = true :=
  Option.any_eq_true _ _

theorem smallAt_iff : SmallAt name i ↔ ∃ c, name[i]? = some c ∧ isSmall c = true :=
  Option.any_eq_true _ _

theorem SmallAt.not_capitalAt (h : SmallAt name i) : ¬CapitalAt name i := by
  intro hcapital
  obtain ⟨c, hc, hsmall⟩ := smallAt_iff.mp h
  obtain ⟨d, hd, hdcapital⟩ := capitalAt_iff.mp hcapital
  obtain rfl : c = d := Option.some.inj (hc.symm.trans hd)
  rw [not_isSmall_of_isCapital hdcapital] at hsmall
  exact Bool.noConfusion hsmall

theorem not_capitalAt_length : ¬CapitalAt name name.length :=
  fun h ↦ Nat.lt_irrefl _ (capitalAt_lt h)

theorem capitalAt_of_all (h : ∀ c ∈ name, isCapital c = true) (hi : i < name.length) :
    CapitalAt name i :=
  capitalAt_iff.mpr ⟨name[i], List.getElem?_eq_getElem hi, h _ (List.getElem_mem hi)⟩

/-! ## Words of a name -/

/-- Capitals and then small letters, at least one of both. -/
structure Word (caps smalls : Str) : Prop where
  all_capital : ∀ c ∈ caps, isCapital c = true
  all_small : ∀ c ∈ smalls, isSmall c = true
  caps_ne : caps ≠ []
  smalls_ne : smalls ≠ []

/-- As many capitals as there may be before a small letter. -/
def Allowed (caps : Str) : Prop := caps.length = 1 ∨ 4 ≤ caps.length

/-- What there may be after a word: more words, and maybe capitals at the end. -/
inductive Tail : Str → Prop
  | nil : Tail []
  | capitals (run : Str) : 3 ≤ run.length → (∀ c ∈ run, isCapital c = true) → Tail run
  | word (caps smalls rest : Str) : Word caps smalls → Allowed caps → Tail rest →
      Tail (caps ++ smalls ++ rest)

theorem getElem?_append_add (x : Str) : (x ++ rest)[i + x.length]? = rest[i]? := by
  rw [List.getElem?_append_right (Nat.le_add_left _ _), Nat.add_sub_cancel]

theorem capitalAt_append (x : Str) : CapitalAt (x ++ rest) (i + x.length) ↔ CapitalAt rest i := by
  rw [CapitalAt, CapitalAt, getElem?_append_add]

theorem smallAt_append (x : Str) : SmallAt (x ++ rest) (i + x.length) ↔ SmallAt rest i := by
  rw [SmallAt, SmallAt, getElem?_append_add]

namespace Word

theorem caps_pos (h : Word caps smalls) : 0 < caps.length := List.length_pos_of_ne_nil h.caps_ne

theorem smalls_pos (h : Word caps smalls) : 0 < smalls.length :=
  List.length_pos_of_ne_nil h.smalls_ne

theorem capitalAt (h : Word caps smalls) (hi : i < caps.length) :
    CapitalAt (caps ++ smalls ++ rest) i := by
  rw [CapitalAt, List.append_assoc, List.getElem?_append_left hi]
  exact capitalAt_of_all h.all_capital hi

theorem smallAt (h : Word caps smalls) (hi : caps.length ≤ i)
    (hi' : i < caps.length + smalls.length) :
    SmallAt (caps ++ smalls ++ rest) i := by
  have hlt : i - caps.length < smalls.length := by omega
  rw [SmallAt, List.append_assoc, List.getElem?_append_right hi, List.getElem?_append_left hlt]
  exact smallAt_iff.mpr ⟨_, List.getElem?_eq_getElem hlt, h.all_small _ (List.getElem_mem hlt)⟩

theorem letters (h : Word caps smalls) :
    ∀ c ∈ caps ++ smalls, isCapital c = true ∨ isSmall c = true := by
  intro c hc
  exact (List.mem_append.mp hc).imp (h.all_capital c) (h.all_small c)

/-- The first run of capitals is that of the word. -/
theorem run_first (h : Word caps smalls) : CapitalRun (caps ++ smalls ++ rest) 0 caps.length where
  lt := h.caps_pos
  capital i _ hi := h.capitalAt hi
  before i hi := by omega
  after := (h.smallAt le_rfl (Nat.lt_add_of_pos_right h.smalls_pos)).not_capitalAt

/-- The runs of what comes after the word are runs of the name. -/
theorem run_append (h : Word caps smalls) (hrun : CapitalRun rest a b) :
    CapitalRun (caps ++ smalls ++ rest) (a + (caps ++ smalls).length)
      (b + (caps ++ smalls).length) where
  lt := Nat.add_lt_add_right hrun.lt _
  capital i hi hi' := by
    obtain ⟨j, rfl⟩ := Nat.exists_eq_add_of_le' (Nat.le_of_add_left_le hi)
    exact (capitalAt_append _).mpr (hrun.capital j (by omega) (by omega))
  before i hi := by
    have hlength : (caps ++ smalls).length = caps.length + smalls.length := List.length_append
    have hpos := h.smalls_pos
    rcases Nat.eq_zero_or_pos a with rfl | ha
    · exact (h.smallAt (by omega) (by omega)).not_capitalAt
    · obtain ⟨j, rfl⟩ : ∃ j, i = j + (caps ++ smalls).length := ⟨a - 1, by omega⟩
      exact fun hcapital ↦ hrun.before j (by omega) ((capitalAt_append _).mp hcapital)
  after := fun hcapital ↦ hrun.after ((capitalAt_append _).mp hcapital)

/-- There are no other runs in the name. -/
theorem run_cases (h : Word caps smalls) (hrun : CapitalRun (caps ++ smalls ++ rest) a b) :
    a = 0 ∧ b = caps.length ∨ ∃ a' b', a = a' + (caps ++ smalls).length ∧
      b = b' + (caps ++ smalls).length ∧
      CapitalRun rest a' b' := by
  have hlength : (caps ++ smalls).length = caps.length + smalls.length := List.length_append
  have hpos := h.smalls_pos
  have hlt := hrun.lt
  have hnot (i : ℕ) (hi : a ≤ i) (hi' : i < b) :
      i < caps.length ∨ caps.length + smalls.length ≤ i := by
    by_contra hbetween
    have hsmall : SmallAt (caps ++ smalls ++ rest) i := h.smallAt (by omega) (by omega)
    exact hsmall.not_capitalAt (hrun.capital i hi hi')
  rcases hnot a le_rfl hlt with ha | ha
  · left
    have hzero : a = 0 := by
      by_contra hne
      exact hrun.before (a - 1) (by omega) (h.capitalAt (by omega))
    refine ⟨hzero, ?_⟩
    rcases Nat.lt_trichotomy b caps.length with hb | hb | hb
    · exact absurd (h.capitalAt hb) hrun.after
    · exact hb
    · have hend := hnot caps.length (by omega) hb
      omega
  · right
    refine ⟨a - (caps ++ smalls).length, b - (caps ++ smalls).length, by omega, by omega, ?_⟩
    refine ⟨by omega, fun i hi hi' ↦ ?_, fun i hi hcapital ↦ ?_, fun hcapital ↦ ?_⟩
    · exact (capitalAt_append (caps ++ smalls)).mp (hrun.capital _ (by omega) (by omega))
    · exact hrun.before _ (by omega) ((capitalAt_append (caps ++ smalls)).mpr hcapital)
    · refine hrun.after ?_
      have hcapital' := (capitalAt_append (caps ++ smalls)).mpr hcapital
      rwa [show b - (caps ++ smalls).length + (caps ++ smalls).length = b by omega] at hcapital'

/-- **One word.**  The rule for the name is the rule for what comes after the word. -/
theorem runs_append_iff (h : Word caps smalls) :
    Runs (caps ++ smalls ++ rest) ↔ Allowed caps ∧ Runs rest := by
  have hlength : (caps ++ smalls ++ rest).length = rest.length + (caps ++ smalls).length := by
    rw [List.length_append, Nat.add_comm]
  constructor
  · intro hruns
    have hfollowed := hruns.followed 0 caps.length h.run_first
      (h.smallAt le_rfl (Nat.lt_add_of_pos_right h.smalls_pos))
    refine ⟨hfollowed, fun c hc ↦ hruns.letters c (List.mem_append_right _ hc),
      fun a b hrun hsmall ↦ ?_, fun a hrun ↦ ?_⟩
    · have hlong := hruns.followed _ _ (h.run_append hrun) ((smallAt_append _).mpr hsmall)
      omega
    · have hrun' := h.run_append hrun
      rw [← hlength] at hrun'
      have hlong := hruns.last _ hrun'
      omega
  · rintro ⟨hallowed, hruns⟩
    refine ⟨fun c hc ↦ ?_, fun a b hrun hsmall ↦ ?_, fun a hrun ↦ ?_⟩
    · exact (List.mem_append.mp hc).elim (h.letters c) (hruns.letters c)
    · rcases h.run_cases hrun with ⟨rfl, rfl⟩ | ⟨a', b', rfl, rfl, hrun'⟩
      · exact hallowed
      · have hlong := hruns.followed a' b' hrun' ((smallAt_append _).mp hsmall)
        omega
    · rcases h.run_cases hrun with ⟨-, hb⟩ | ⟨a', b', rfl, hb, hrun'⟩
      · have hpos := h.smalls_pos
        rw [List.length_append, List.length_append] at hb
        omega
      · obtain rfl : b' = rest.length := by omega
        have hlong := hruns.last a' hrun'
        omega

end Word

/-! ## The rule from word to word -/

theorem Tail.runs (h : Tail rest) : Runs rest := by
  induction h with
  | nil =>
    refine ⟨fun c hc ↦ absurd hc List.not_mem_nil, fun a b hrun ↦ ?_, fun a hrun ↦ ?_⟩
    · exact absurd (capitalAt_lt (hrun.capital a le_rfl hrun.lt)) (Nat.not_lt_zero _)
    · exact absurd hrun.lt (Nat.not_lt_zero _)
  | capitals run hlength hcapitals =>
    refine ⟨fun c hc ↦ .inl (hcapitals c hc), fun a b hrun hsmall ↦ ?_, fun a hrun ↦ ?_⟩
    · obtain ⟨c, hc, hcsmall⟩ := smallAt_iff.mp hsmall
      obtain ⟨hlt, -⟩ := List.getElem?_eq_some_iff.mp hc
      exact absurd (capitalAt_of_all hcapitals hlt) hrun.after
    · have ha : a = 0 := by
        by_contra hne
        have hlt := hrun.lt
        exact hrun.before (a - 1) (by omega) (capitalAt_of_all hcapitals (by omega))
      rwa [ha]
  | word caps smalls rest hword hallowed _ ih => exact hword.runs_append_iff.mpr ⟨hallowed, ih⟩

/-- What a list begins with that is `p`. -/
theorem exists_span (p : UInt8 → Bool) (x : Str) : ∃ y z, x = y ++ z ∧ (∀ c ∈ y, p c = true) ∧
    ∀ c ∈ z.head?, p c = false := by
  refine ⟨x.takeWhile p, x.dropWhile p, List.takeWhile_append_dropWhile.symm,
    fun c hc ↦ List.all_eq_true.mp List.all_takeWhile c hc,
    fun c hc ↦ ?_⟩
  have hhead := List.head?_dropWhile_not p x
  rwa [show (x.dropWhile p).head? = some c from hc] at hhead

/-- A name that begins with a capital and has a small letter begins with a word. -/
theorem exists_word (hletters : ∀ c ∈ name, isCapital c = true ∨ isSmall c = true)
    (hfirst : CapitalAt name 0) (hsmall : ∃ c ∈ name, isSmall c = true) :
    ∃ caps smalls rest, name = caps ++ smalls ++ rest ∧ Word caps smalls ∧
      (rest = [] ∨ CapitalAt rest 0) := by
  obtain ⟨caps, rest, rfl, hcaps, hrest⟩ := exists_span isCapital name
  obtain ⟨smalls, rest, rfl, hsmalls, hrest'⟩ := exists_span isSmall rest
  refine ⟨caps, smalls, rest, (List.append_assoc _ _ _).symm, ⟨hcaps, hsmalls, ?_, ?_⟩, ?_⟩
  · rintro rfl
    obtain ⟨c, hc, hcapital⟩ := capitalAt_iff.mp hfirst
    rw [List.nil_append, ← List.head?_eq_getElem?] at hc
    rw [hrest c hc] at hcapital
    exact Bool.noConfusion hcapital
  · rintro rfl
    cases rest with
    | nil =>
      obtain ⟨c, hc, hcsmall⟩ := hsmall
      rw [List.append_nil, List.append_nil] at hc
      rw [not_isSmall_of_isCapital (hcaps c hc)] at hcsmall
      exact Bool.noConfusion hcsmall
    | cons c rest =>
      have hc := hletters c (List.mem_append_right _ List.mem_cons_self)
      rw [hrest c rfl, hrest' c rfl] at hc
      exact hc.elim Bool.noConfusion Bool.noConfusion
  · cases rest with
    | nil => exact .inl rfl
    | cons c rest =>
      have hc := hletters c (List.mem_append_right _ (List.mem_append_right _ List.mem_cons_self))
      rw [hrest' c rfl] at hc
      exact .inr (capitalAt_iff.mpr ⟨c, rfl, hc.resolve_right Bool.noConfusion⟩)

/-- The induction is on the length: the rule goes on to what comes after the first word. -/
theorem tail_of_runs : ∀ (k : ℕ) (rest : Str), rest.length = k → Runs rest →
    (rest = [] ∨ CapitalAt rest 0) →
    Tail rest := by
  intro k
  induction k using Nat.strong_induction_on with
  | _ k ih =>
    rintro rest rfl hruns (rfl | hfirst)
    · exact .nil
    · by_cases hsmall : ∃ c ∈ rest, isSmall c = true
      · obtain ⟨caps, smalls, rest, rfl, hword, hrest⟩ := exists_word hruns.letters hfirst hsmall
        obtain ⟨hallowed, hruns'⟩ := hword.runs_append_iff.mp hruns
        have hpos := hword.caps_pos
        refine .word caps smalls rest hword hallowed (ih rest.length ?_ rest rfl hruns' hrest)
        rw [List.length_append, List.length_append]
        omega
      · have hcapitals (c : UInt8) (hc : c ∈ rest) : isCapital c = true :=
          (hruns.letters c hc).resolve_right fun h ↦ hsmall ⟨c, hc, h⟩
        have hpos : 0 < rest.length := capitalAt_lt hfirst
        refine .capitals rest (hruns.last 0 ⟨hpos, fun i _ hi ↦ ?_, fun i hi ↦ by omega, ?_⟩)
          hcapitals
        · exact capitalAt_of_all hcapitals hi
        · exact not_capitalAt_length

/-- **The rule by words.** -/
theorem typeName_iff : TypeName name ↔
    ∃ caps smalls rest, name = caps ++ smalls ++ rest ∧ Word caps smalls ∧ Allowed caps ∧
      Tail rest := by
  constructor
  · intro h
    obtain ⟨i, hi⟩ := h.small
    obtain ⟨c, hc, hsmall⟩ := smallAt_iff.mp hi
    obtain ⟨caps, smalls, rest, rfl, hword, hrest⟩ :=
      exists_word h.letters h.first ⟨c, List.mem_of_getElem? hc, hsmall⟩
    obtain ⟨hallowed, hruns⟩ := hword.runs_append_iff.mp h.toRuns
    exact ⟨caps, smalls, rest, rfl, hword, hallowed, tail_of_runs _ rest rfl hruns hrest⟩
  · rintro ⟨caps, smalls, rest, rfl, hword, hallowed, htail⟩
    exact ⟨hword.runs_append_iff.mpr ⟨hallowed, htail.runs⟩, hword.capitalAt hword.caps_pos,
      caps.length, hword.smallAt le_rfl (Nat.lt_add_of_pos_right hword.smalls_pos)⟩

/-! ## What the patterns match -/

theorem mem_charRange {lo hi : UInt8} : c ∈ charRange lo hi ↔
    (decide (lo ≤ c) && decide (c ≤ hi)) = true := by
  rw [charRange, List.mem_filter, and_iff_right_iff_imp]
  exact fun _ ↦ List.mem_map.mpr ⟨c.toNat, List.mem_range.mpr c.toNat_lt, UInt8.ofNat_toNat⟩

theorem mem_capitals :
    name ∈ (atLeast n capital).matches' ↔ n ≤ name.length ∧ ∀ c ∈ name, isCapital c = true := by
  rw [capital, mem_atLeast_oneOf]
  exact and_congr_right fun _ ↦ forall₂_congr fun _ _ ↦ mem_charRange

theorem mem_smalls : name ∈ (many small).matches' ↔ name ≠ [] ∧ ∀ c ∈ name, isSmall c = true := by
  rw [small, mem_many_oneOf]
  exact and_congr_right fun _ ↦ forall₂_congr fun _ _ ↦ mem_charRange

theorem mem_capital : name ∈ capital.matches' ↔ ∃ c, isCapital c = true ∧ name = [c] := by
  rw [capital, mem_oneOf]
  exact exists_congr fun c ↦ and_congr_left fun _ ↦ mem_charRange

theorem mem_firstWord : name ∈ firstWord.matches' ↔
    ∃ caps smalls, name = caps ++ smalls ∧ Word caps smalls ∧ Allowed caps := by
  rw [firstWord, matches'_mul, matches'_mul, Language.mem_mul]
  constructor
  · rintro ⟨caps, hcaps, smalls, hsmalls, rfl⟩
    obtain ⟨x, hx, more, hmore, rfl⟩ := Language.mem_mul.mp hcaps
    obtain ⟨c, hc, rfl⟩ := mem_capital.mp hx
    obtain ⟨hne, hsmalls⟩ := mem_smalls.mp hsmalls
    refine ⟨[c] ++ more, smalls, rfl, ?_⟩
    rcases mem_opt.mp hmore with rfl | hmore
    · exact ⟨⟨fun d hd ↦ List.mem_singleton.mp hd ▸ hc, hsmalls, List.cons_ne_nil _ _, hne⟩,
        .inl rfl⟩
    · obtain ⟨hlength, hmore⟩ := mem_capitals.mp hmore
      refine ⟨⟨List.forall_mem_cons.mpr ⟨hc, hmore⟩, hsmalls, List.cons_ne_nil _ _, hne⟩, .inr ?_⟩
      rw [List.length_append, List.length_singleton]
      omega
  · rintro ⟨caps, smalls, rfl, hword, hallowed⟩
    refine ⟨caps, ?_, smalls, mem_smalls.mpr ⟨hword.smalls_ne, hword.all_small⟩, rfl⟩
    cases hcaps : caps with
    | nil => exact absurd hcaps hword.caps_ne
    | cons c more =>
      obtain ⟨hc, hmore⟩ := List.forall_mem_cons.mp (hcaps ▸ hword.all_capital)
      refine Language.mem_mul.mpr ⟨[c], mem_capital.mpr ⟨c, hc, rfl⟩, more, mem_opt.mpr ?_, rfl⟩
      rw [Allowed, hcaps, List.length_cons] at hallowed
      rcases hallowed with hone | hfour
      · exact .inl (List.eq_nil_of_length_eq_zero (Nat.succ.inj hone))
      · exact .inr (mem_capitals.mpr ⟨by omega, hmore⟩)

theorem mem_nextWord : name ∈ nextWord.matches' ↔
    ∃ caps smalls, name = caps ++ smalls ∧ Word caps smalls ∧ Allowed caps := by
  rw [nextWord, matches'_add, Language.mem_add, matches'_mul, matches'_mul, Language.mem_mul,
    Language.mem_mul]
  constructor
  · rintro (⟨x, hx, smalls, hsmalls, rfl⟩ | ⟨caps, hcaps, smalls, hsmalls, rfl⟩)
    · obtain ⟨c, hc, rfl⟩ := mem_capital.mp hx
      obtain ⟨hne, hsmalls⟩ := mem_smalls.mp hsmalls
      exact ⟨[c], smalls, rfl,
        ⟨fun d hd ↦ List.mem_singleton.mp hd ▸ hc, hsmalls, List.cons_ne_nil _ _, hne⟩, .inl rfl⟩
    · obtain ⟨hlength, hcaps⟩ := mem_capitals.mp hcaps
      obtain ⟨hne, hsmalls⟩ := mem_smalls.mp hsmalls
      exact ⟨caps, smalls, rfl, ⟨hcaps, hsmalls, List.ne_nil_of_length_pos (by omega), hne⟩,
        .inr hlength⟩
  · rintro ⟨caps, smalls, rfl, hword, hone | hfour⟩
    · obtain ⟨c, rfl⟩ := List.length_eq_one_iff.mp hone
      exact .inl ⟨[c], mem_capital.mpr ⟨c, hword.all_capital c List.mem_cons_self, rfl⟩, smalls,
        mem_smalls.mpr ⟨hword.smalls_ne, hword.all_small⟩, rfl⟩
    · exact .inr ⟨caps, mem_capitals.mpr ⟨hfour, hword.all_capital⟩, smalls,
        mem_smalls.mpr ⟨hword.smalls_ne, hword.all_small⟩, rfl⟩

/-- What may come last is a tail by itself. -/
theorem tail_of_mem_lastWord (h : name ∈ (opt lastWord).matches') : Tail name := by
  rcases mem_opt.mp h with rfl | h
  · exact .nil
  rw [lastWord, matches'_add, Language.mem_add] at h
  rcases h with hword | hcapitals
  · have hnext : name ∈ nextWord.matches' := by
      rw [nextWord, matches'_add, Language.mem_add]
      exact .inl hword
    obtain ⟨caps, smalls, rfl, hword, hallowed⟩ := mem_nextWord.mp hnext
    rw [← List.append_nil (caps ++ smalls)]
    exact .word caps smalls [] hword hallowed .nil
  · obtain ⟨hlength, hcapitals⟩ := mem_capitals.mp hcapitals
    exact .capitals name hlength hcapitals

/-- **What comes after the first word.** -/
theorem mem_tail : rest ∈ (nextWord.star * opt lastWord).matches' ↔ Tail rest := by
  rw [matches'_mul, matches'_star, Language.mem_mul]
  constructor
  · rintro ⟨x, hx, last, hlast, rfl⟩
    obtain ⟨words, rfl, hwords⟩ := Language.mem_kstar.mp hx
    clear hx
    induction words with
    | nil => exact tail_of_mem_lastWord hlast
    | cons y words ih =>
      obtain ⟨hy, hwords'⟩ := List.forall_mem_cons.mp hwords
      obtain ⟨caps, smalls, rfl, hword, hallowed⟩ := mem_nextWord.mp hy
      rw [List.flatten_cons, List.append_assoc]
      exact .word caps smalls _ hword hallowed (ih hwords')
  · intro h
    induction h with
    | nil => exact ⟨[], Language.nil_mem_kstar _, [], mem_opt.mpr (.inl rfl), rfl⟩
    | capitals run hlength hcapitals =>
      have hrun : run ∈ lastWord.matches' := by
        rw [lastWord, matches'_add, Language.mem_add]
        exact .inr (mem_capitals.mpr ⟨hlength, hcapitals⟩)
      exact ⟨[], Language.nil_mem_kstar _, run, mem_opt.mpr (.inr hrun), rfl⟩
    | word caps smalls rest hword hallowed _ ih =>
      obtain ⟨x, hx, last, hlast, rfl⟩ := ih
      obtain ⟨words, rfl, hwords⟩ := Language.mem_kstar.mp hx
      refine ⟨((caps ++ smalls) :: words).flatten,
        Language.join_mem_kstar (List.forall_mem_cons.mpr ⟨?_, hwords⟩), last, hlast, ?_⟩
      · exact mem_nextWord.mpr ⟨caps, smalls, rfl, hword, hallowed⟩
      · rw [List.flatten_cons, List.append_assoc]

theorem mem_kTypeNamePattern : name ∈ kTypeNamePattern.matches' ↔ TypeName name := by
  rw [typeName_iff, kTypeNamePattern, matches'_mul, matches'_mul, mul_assoc, ← matches'_mul,
    Language.mem_mul]
  constructor
  · rintro ⟨x, hx, rest, hrest, rfl⟩
    obtain ⟨caps, smalls, rfl, hword, hallowed⟩ := mem_firstWord.mp hx
    exact ⟨caps, smalls, rest, rfl, hword, hallowed, mem_tail.mp hrest⟩
  · rintro ⟨caps, smalls, rest, rfl, hword, hallowed, htail⟩
    exact ⟨caps ++ smalls, mem_firstWord.mpr ⟨caps, smalls, rfl, hword, hallowed⟩, rest,
      mem_tail.mpr htail, rfl⟩

theorem mem_kConstPattern : 107 :: name ∈ kConstPattern.matches' ↔ TypeName name := by
  rw [← mem_kTypeNamePattern, kConstPattern, kTypeNamePattern]
  simp only [matches'_mul, matches'_char, mul_assoc]
  rw [Language.mem_mul]
  constructor
  · rintro ⟨x, rfl, rest, hrest, heq⟩
    exact (List.cons.inj heq).2 ▸ hrest
  · exact fun h ↦ ⟨[107], rfl, name, h, rfl⟩

/-- **The patterns are the rule.** -/
theorem regexMatch_iff (s : Str) : (regexMatch s kTypeNamePattern = true ↔ TypeName s) ∧
    (regexMatch (107 :: s) kConstPattern = true ↔ TypeName s) := by
  rw [regexMatch, regexMatch, rmatch_iff_matches', rmatch_iff_matches', mem_kTypeNamePattern]
  exact ⟨Iff.rfl, mem_kConstPattern⟩

end ClangFun
end ManyTasks
