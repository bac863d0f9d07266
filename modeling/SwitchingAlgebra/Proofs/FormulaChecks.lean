import Mathlib
import SwitchingAlgebra.FormulaList
import SwitchingAlgebra.Proofs.EvaluatedReading
import SwitchingAlgebra.Proofs.OperandOrder

/-!
# The first failure of a list of formulas

A list is read to its end before any of its formulas is checked. So a line without a semicolon where
a formula should be hides every failure of the check, also one on an earlier line. The check itself
goes from formula to formula: it notes those that hold, and the first that fails ends it, by the
first of its own three failures.

The two sides of a formula are compared as evaluated expressions. Reading with evaluation keeps the
value of what is written, and equal expressions have one value. So a list that passes holds nothing
but identities of the sides as they are written.

Main statement: what is read from a text, how its check ends and what has been noted until then
(`first_failure_reported`).
-/

set_option autoImplicit false
set_option relaxedAutoImplicit false

namespace SwitchingAlgebra.FormulaList

open Reading

/-! ### Lines -/

/-- Trimmed, the line is neither empty nor a comment. -/
def Carries (line : List Char) : Prop :=
  Text.trim line ≠ [] ∧ (Text.trim line).head? ≠ some '#'

instance : DecidablePred Carries :=
  fun _ ↦ inferInstanceAs (Decidable (_ ∧ _))

/-- The line should carry a formula and has no semicolon. -/
def LacksSeparator (line : List Char) : Prop :=
  Carries line ∧ ';' ∉ Text.trim line

/-- The formula has this number and, trimmed, the text before and the text after the first semicolon
of the line. -/
def IsOn (number : Nat) (line : List Char) (formula : Formula) : Prop :=
  ∃ before after, Text.trim line = before ++ ';' :: after ∧ ';' ∉ before ∧
    formula = ⟨number, String.ofList (Text.trim before), String.ofList (Text.trim after)⟩

/-- The first line that lacks its semicolon has this number. The lines are numbered from `first`
on. -/
def FirstLacking (first : Nat) (lines : List (List Char)) (number : Nat) : Prop :=
  ∃ before line after, lines = before ++ line :: after ∧
    (∀ earlier ∈ before, ¬ LacksSeparator earlier) ∧ LacksSeparator line ∧
    number = first + before.length

/-- The lines that carry a formula, with their numbers from `first` on. -/
def carrying (first : Nat) (lines : List (List Char)) : List (List Char × Nat) :=
  (lines.zipIdx first).filter fun numbered ↦ Carries numbered.1

variable {number first : Nat} {line : List Char} {rest : List (List Char)} {formula : Formula}
  {formulas : List Formula}

theorem isSkipped_trim_iff : isSkipped (Text.trim line) = true ↔ ¬ Carries line := by
  rw [isSkipped, Carries, Bool.or_eq_true, List.isEmpty_iff, beq_iff_eq, not_and_or, not_not,
    not_not]

theorem formula?_trim_eq_none_iff :
    formula? number (Text.trim line) = none ↔ ';' ∉ Text.trim line := by
  rw [formula?]
  split_ifs with hmem <;> simp [hmem]

/-- The part of a list before its first semicolon, and what follows that. -/
theorem split_at_separator {cs before after : List Char} (hcs : cs = before ++ ';' :: after)
    (hbefore : ';' ∉ before) :
    cs.takeWhile (· != ';') = before ∧ (cs.dropWhile (· != ';')).tail = after := by
  have hkept : ∀ c ∈ before, (c != ';') = true :=
    fun c hc ↦ bne_iff_ne.mpr fun hsame ↦ hbefore (hsame ▸ hc)
  subst hcs
  rw [List.takeWhile_append_of_pos hkept, List.dropWhile_append_of_pos hkept]
  simp

theorem formula?_trim_eq_some_iff :
    formula? number (Text.trim line) = some formula ↔ IsOn number line formula := by
  rw [formula?]
  constructor
  · split_ifs with hmem
    · rintro ⟨⟩
      obtain ⟨before, after, hline, hbefore⟩ := List.eq_append_cons_of_mem hmem
      obtain ⟨htake, hdrop⟩ := split_at_separator hline hbefore
      exact ⟨before, after, hline, hbefore, by rw [htake, hdrop]⟩
    · rintro ⟨⟩
  · rintro ⟨before, after, hline, hbefore, rfl⟩
    obtain ⟨htake, hdrop⟩ := split_at_separator hline hbefore
    rw [if_pos (by simp [hline]), htake, hdrop]

/-! ### Reading a list -/

theorem ofLines_cons_of_not_carries (hline : ¬ Carries line) :
    ofLines number (line :: rest) = ofLines (number + 1) rest := by
  rw [ofLines, if_pos (isSkipped_trim_iff.mpr hline)]

theorem ofLines_cons_of_lacks (hline : LacksSeparator line) :
    ofLines number (line :: rest) = .error number := by
  rw [ofLines, if_neg fun hskipped ↦ isSkipped_trim_iff.mp hskipped hline.1,
    formula?_trim_eq_none_iff.mpr hline.2]

theorem ofLines_cons_of_isOn (hline : Carries line) (hformula : IsOn number line formula) :
    ofLines number (line :: rest) = (ofLines (number + 1) rest).map (formula :: ·) := by
  rw [ofLines, if_neg fun hskipped ↦ isSkipped_trim_iff.mp hskipped hline,
    formula?_trim_eq_some_iff.mpr hformula]

/-- A line is passed over, lacks its semicolon or carries a formula. -/
theorem line_cases (number : Nat) (line : List Char) :
    ¬ Carries line ∨ LacksSeparator line ∨
      (Carries line ∧ ¬ LacksSeparator line ∧ ∃ formula, IsOn number line formula) := by
  by_cases hcarries : Carries line
  · cases hformula : formula? number (Text.trim line) with
    | none => exact .inr (.inl ⟨hcarries, formula?_trim_eq_none_iff.mp hformula⟩)
    | some formula =>
      refine .inr (.inr ⟨hcarries, fun hlacks ↦ ?_, formula, formula?_trim_eq_some_iff.mp hformula⟩)
      rw [formula?_trim_eq_none_iff.mpr hlacks.2] at hformula
      cases hformula
  · exact .inl hcarries

theorem not_firstLacking_nil : ¬ FirstLacking first [] number := by
  rintro ⟨before, line, after, hlines, -⟩
  simp at hlines

theorem firstLacking_cons_of_lacks (hline : LacksSeparator line) :
    FirstLacking first (line :: rest) number ↔ number = first := by
  constructor
  · rintro ⟨before, found, after, hlines, hbefore, -, rfl⟩
    cases before with
    | nil => rfl
    | cons earlier before =>
      obtain ⟨rfl, -⟩ := List.cons.inj hlines
      exact absurd hline (hbefore line List.mem_cons_self)
  · rintro rfl
    exact ⟨[], line, rest, rfl, by simp, hline, rfl⟩

theorem firstLacking_cons (hline : ¬ LacksSeparator line) :
    FirstLacking first (line :: rest) number ↔ FirstLacking (first + 1) rest number := by
  constructor
  · rintro ⟨before, found, after, hlines, hbefore, hfound, rfl⟩
    cases before with
    | nil =>
      obtain ⟨rfl, -⟩ := List.cons.inj hlines
      exact absurd hfound hline
    | cons earlier before =>
      obtain ⟨rfl, hrest⟩ := List.cons.inj hlines
      exact ⟨before, found, after, hrest, (List.forall_mem_cons.mp hbefore).2, hfound,
        by rw [List.length_cons]; omega⟩
  · rintro ⟨before, found, after, rfl, hbefore, hfound, rfl⟩
    exact ⟨line :: before, found, after, rfl, List.forall_mem_cons.mpr ⟨hline, hbefore⟩, hfound,
      by rw [List.length_cons]; omega⟩

theorem carrying_cons_of_not_carries (hline : ¬ Carries line) :
    carrying first (line :: rest) = carrying (first + 1) rest := by
  rw [carrying, List.zipIdx_cons, List.filter_cons_of_neg (by simpa using hline), carrying]

theorem carrying_cons (hline : Carries line) :
    carrying first (line :: rest) = (line, first) :: carrying (first + 1) rest := by
  rw [carrying, List.zipIdx_cons, List.filter_cons_of_pos (by simpa using hline), carrying]

/-- Reading fails for the first line that lacks its semicolon. -/
theorem ofLines_eq_error_iff (lines : List (List Char)) (first : Nat) :
    ofLines first lines = .error number ↔ FirstLacking first lines number := by
  induction lines generalizing first with
  | nil => simp [ofLines, not_firstLacking_nil]
  | cons line rest ih =>
    obtain hskipped | hlacks | ⟨hcarries, hlacks, formula, hformula⟩ := line_cases first line
    · rw [ofLines_cons_of_not_carries hskipped, ih,
        firstLacking_cons fun hlacks ↦ hskipped hlacks.1]
    · rw [ofLines_cons_of_lacks hlacks, firstLacking_cons_of_lacks hlacks, Except.error.injEq,
        eq_comm]
    · rw [ofLines_cons_of_isOn hcarries hformula, firstLacking_cons hlacks, ← ih]
      cases ofLines (first + 1) rest <;> simp [Except.map]

theorem IsOn.eq {other : Formula} (hformula : IsOn number line formula)
    (hother : IsOn number line other) : formula = other :=
  Option.some.inj ((formula?_trim_eq_some_iff.mpr hformula).symm.trans
    (formula?_trim_eq_some_iff.mpr hother))

/-- Reading succeeds with the formulas of the lines that carry one, in their order. -/
theorem ofLines_eq_ok_iff (lines : List (List Char)) (first : Nat) (formulas : List Formula) :
    ofLines first lines = .ok formulas ↔ (∀ line ∈ lines, ¬ LacksSeparator line) ∧
      List.Forall₂ (fun numbered formula ↦ IsOn numbered.2 numbered.1 formula)
        (carrying first lines) formulas := by
  induction lines generalizing first formulas with
  | nil => simp [ofLines, carrying, eq_comm]
  | cons line rest ih =>
    rw [List.forall_mem_cons]
    -- A line passed over counts for the numbers of those after it, but has no formula.
    obtain hskipped | hlacks | ⟨hcarries, hlacks, formula, hformula⟩ := line_cases first line
    · rw [ofLines_cons_of_not_carries hskipped, ih, carrying_cons_of_not_carries hskipped,
        and_iff_right fun hlacks ↦ hskipped hlacks.1]
    · rw [ofLines_cons_of_lacks hlacks]
      exact ⟨nofun, fun h ↦ absurd hlacks h.1.1⟩
    · rw [ofLines_cons_of_isOn hcarries hformula, carrying_cons hcarries, and_iff_right hlacks,
        List.forall₂_cons_left_iff]
      constructor
      · intro hread
        cases hrest : ofLines (first + 1) rest with
        | error number => simp [hrest, Except.map] at hread
        | ok others =>
          obtain ⟨hnone, hall⟩ := (ih (first + 1) others).mp hrest
          obtain rfl : formula :: others = formulas := by simpa [hrest, Except.map] using hread
          exact ⟨hnone, formula, others, hformula, hall, rfl⟩
      · rintro ⟨hnone, found, others, hfound, hall, rfl⟩
        rw [(ih (first + 1) others).mpr ⟨hnone, hall⟩, hformula.eq hfound]
        rfl

/-! ### Checking a list -/

/-- Both sides of the formula are read and evaluated, the first one to `actual`, and they are
equal. -/
def Holds (formula : Formula) (actual : Expr) : Prop :=
  readEvaluated formula.input = .ok actual ∧
    ∃ expected, readEvaluated formula.expected = .ok expected ∧ (actual == expected) = true

/-- The first failure of a formula. -/
inductive Fails (formula : Formula) : Failure → Prop
  | input {error : Reading.Error} (hinput : readEvaluated formula.input = .error error) :
      Fails formula (.unreadable formula.line .input error)
  | expected {actual : Expr} {error : Reading.Error}
      (hinput : readEvaluated formula.input = .ok actual)
      (hexpected : readEvaluated formula.expected = .error error) :
      Fails formula (.unreadable formula.line .expected error)
  | mismatch {actual expected : Expr} (hinput : readEvaluated formula.input = .ok actual)
      (hexpected : readEvaluated formula.expected = .ok expected)
      (hdiffer : ¬ (actual == expected) = true) :
      Fails formula (.mismatch formula actual expected)

theorem Holds.checkFormula_eq {actual : Expr} (hholds : Holds formula actual) :
    checkFormula formula = .ok actual := by
  obtain ⟨hinput, expected, hexpected, hequal⟩ := hholds
  rw [checkFormula, hinput, hexpected]
  exact if_pos hequal

theorem Fails.checkFormula_eq {failure : Failure} (hfails : Fails formula failure) :
    checkFormula formula = .error failure := by
  cases hfails with
  | input hinput => rw [checkFormula, hinput]; rfl
  | expected hinput hexpected => rw [checkFormula, hinput, hexpected]; rfl
  | mismatch hinput hexpected hdiffer =>
    rw [checkFormula, hinput, hexpected]
    exact if_neg hdiffer

/-- A formula holds or fails. -/
theorem holds_or_fails (formula : Formula) :
    (∃ actual, Holds formula actual) ∨ ∃ failure, Fails formula failure := by
  cases hinput : readEvaluated formula.input with
  | error error => exact .inr ⟨_, .input hinput⟩
  | ok actual =>
    cases hexpected : readEvaluated formula.expected with
    | error error => exact .inr ⟨_, .expected hinput hexpected⟩
    | ok expected =>
      by_cases hequal : (actual == expected) = true
      · exact .inl ⟨actual, hinput, expected, hexpected, hequal⟩
      · exact .inr ⟨_, .mismatch hinput hexpected hequal⟩

/-- All formulas of a list hold, or there is a first one that fails. -/
theorem all_hold_or_first_fails (formulas : List Formula) :
    (∃ actuals, List.Forall₂ Holds formulas actuals) ∨
      ∃ before formula after actuals failure, formulas = before ++ formula :: after ∧
        List.Forall₂ Holds before actuals ∧ Fails formula failure := by
  induction formulas with
  | nil => exact .inl ⟨[], .nil⟩
  | cons formula formulas ih =>
    obtain ⟨actual, hholds⟩ | ⟨failure, hfails⟩ := holds_or_fails formula
    · obtain ⟨actuals, hall⟩ | ⟨before, found, after, actuals, failure, rfl, hbefore, hfails⟩ := ih
      · exact .inl ⟨actual :: actuals, .cons hholds hall⟩
      · exact .inr ⟨formula :: before, found, after, actual :: actuals, failure, rfl,
          .cons hholds hbefore, hfails⟩
    · exact .inr ⟨[], formula, formulas, [], failure, rfl, .nil, hfails⟩

/-- Formulas that hold are noted one by one, and the check goes on behind them. -/
theorem checkAll_append {before : List Formula} {actuals : List Expr}
    (hbefore : List.Forall₂ Holds before actuals) (after : List Formula) :
    checkAll (before ++ after) =
      ⟨List.zipWith .holds before actuals ++ (checkAll after).log, (checkAll after).failure⟩ := by
  induction hbefore with
  | nil => rfl
  | cons hholds _ ih => rw [List.cons_append, checkAll, hholds.checkFormula_eq, ih]; rfl

theorem checkAll_of_holds {actuals : List Expr} (hall : List.Forall₂ Holds formulas actuals) :
    checkAll formulas = ⟨List.zipWith .holds formulas actuals, none⟩ := by
  simpa [checkAll] using checkAll_append hall []

theorem checkAll_of_fails {before after : List Formula} {actuals : List Expr} {failure : Failure}
    (hbefore : List.Forall₂ Holds before actuals) (hfails : Fails formula failure) :
    checkAll (before ++ formula :: after) =
      ⟨List.zipWith .holds before actuals, some failure⟩ := by
  simp [checkAll_append hbefore, checkAll, hfails.checkFormula_eq]

/-! ### What a passed check says -/

/-- Both sides of the formula are expressions as they are written, with the same value under every
assignment. -/
def IsIdentity (formula : Formula) : Prop :=
  ∃ input expected, readRaw formula.input = .ok input ∧ readRaw formula.expected = .ok expected ∧
    ∀ assignment, input.holds assignment = expected.holds assignment

theorem Holds.isIdentity {actual : Expr} (hholds : Holds formula actual) : IsIdentity formula := by
  obtain ⟨hinput, expected, hexpected, hequal⟩ := hholds
  obtain ⟨left, hleft, hleftValue⟩ := exists_readRaw_eq_ok hinput
  obtain ⟨right, hright, hrightValue⟩ := exists_readRaw_eq_ok hexpected
  refine ⟨left, right, hleft, hright, fun assignment ↦ ?_⟩
  calc left.holds assignment = actual.holds assignment := (hleftValue assignment).symm
    _ = expected.holds assignment :=
      Expr.holds_eq_of_shape_eq actual expected (Expr.beq_iff_shape_eq.mp hequal)
    _ = right.holds assignment := hrightValue assignment

/-! ### The check of a text -/

/-- How the check of formulas ends: all hold and are noted one by one, with two notes for the whole,
or the formulas before the first that fails are noted one by one, and its failure ends the check. -/
inductive Ends (formulas : List Formula) : Report → Prop
  | passed {actuals : List Expr} (hall : List.Forall₂ Holds formulas actuals) :
      Ends formulas ⟨List.zipWith .holds formulas actuals ++
        [.allHold formulas.length, .generatedSound 0], none⟩
  | failed {before after : List Formula} {formula : Formula} {actuals : List Expr}
      {failure : Failure} (hsplit : formulas = before ++ formula :: after)
      (hbefore : List.Forall₂ Holds before actuals) (hfails : Fails formula failure) :
      Ends formulas ⟨List.zipWith .holds before actuals, some failure⟩

variable {content : String}

theorem check_of_error (hread : ofText content = .error number) :
    check content = ⟨[], some (.missingSeparator number)⟩ := by
  rw [check, hread]

theorem ends_check (hread : ofText content = .ok formulas) : Ends formulas (check content) := by
  simp only [check, hread]
  obtain ⟨actuals, hall⟩ | ⟨before, formula, after, actuals, failure, hsplit, hbefore, hfails⟩ :=
    all_hold_or_first_fails formulas
  · rw [checkAll_of_holds hall]
    exact .passed hall
  · simp only [hsplit, checkAll_of_fails hbefore hfails]
    exact .failed rfl hbefore hfails

/-- A check without a failure ends with all formulas noted, each of which holds. -/
theorem Ends.isIdentity {report : Report} (hends : Ends formulas report)
    (hpassed : report.failure = none) : ∀ formula ∈ formulas, IsIdentity formula := by
  cases hends with
  | passed hall =>
    have hidentities : List.Forall₂ (fun formula actual ↦
        IsIdentity formula ∧ Holds formula actual) formulas _ :=
      hall.imp fun _ _ hholds ↦ ⟨hholds.isIdentity, hholds⟩
    exact ((List.forall₂_and_left _ _).mp hidentities).1
  | failed => cases hpassed

/-- A text is read unless a line that should carry a formula has no semicolon, and the first such
line is reported. What is read are the formulas of all lines that carry one, numbered and in order.
The check reports the line without anything noted; otherwise it notes the formulas that hold until
the first that fails and reports that one's first failure. If nothing fails, the formulas are
identities of their written sides. -/
theorem first_failure_reported (content : String) :
    (∀ number, ofText content = .error number ↔ FirstLacking 1 (lines content.toList) number) ∧
    (∀ formulas, ofText content = .ok formulas ↔
      (∀ line ∈ lines content.toList, ¬ LacksSeparator line) ∧
        List.Forall₂ (fun numbered formula ↦ IsOn numbered.2 numbered.1 formula)
          (carrying 1 (lines content.toList)) formulas) ∧
    (∀ number, ofText content = .error number →
      check content = ⟨[], some (.missingSeparator number)⟩) ∧
    (∀ formulas, ofText content = .ok formulas → Ends formulas (check content)) ∧
    ((check content).failure = none → ∃ formulas, ofText content = .ok formulas ∧
      ∀ formula ∈ formulas, IsIdentity formula) := by
  refine ⟨fun number ↦ ofLines_eq_error_iff _ 1, ofLines_eq_ok_iff _ 1,
    fun number ↦ check_of_error, fun formulas ↦ ends_check, fun hpassed ↦ ?_⟩
  cases hread : ofText content with
  | error number =>
    rw [check_of_error hread] at hpassed
    cases hpassed
  | ok formulas => exact ⟨formulas, rfl, (ends_check hread).isIdentity hpassed⟩

/-- The formula on the first line is wrong, but the second line is the one that is reported. The
excluded middle passes behind a comment, so it is an identity. -/
theorem first_failure_reported_excludedMiddle :
    ofText "0;1\n1" = .error 2 ∧ check "0;1\n1" = ⟨[], some (.missingSeparator 2)⟩ ∧
      ofText "# always\na+a' ; 1" = .ok [⟨2, "a+a'", "1"⟩] ∧
      Ends [⟨2, "a+a'", "1"⟩] (check "# always\na+a' ; 1") ∧
      (check "# always\na+a' ; 1").failure = none ∧ IsIdentity ⟨2, "a+a'", "1"⟩ := by
  have hunread : ofText "0;1\n1" = .error 2 := rfl
  have hread : ofText "# always\na+a' ; 1" = .ok [⟨2, "a+a'", "1"⟩] := rfl
  have hpassed : (check "# always\na+a' ; 1").failure = none := by cbv
  obtain ⟨-, -, hreport, -⟩ := first_failure_reported "0;1\n1"
  obtain ⟨-, -, -, hends, hidentities⟩ := first_failure_reported "# always\na+a' ; 1"
  obtain ⟨formulas, hformulas, hidentity⟩ := hidentities hpassed
  obtain rfl : [⟨2, "a+a'", "1"⟩] = formulas := Except.ok.inj (hread.symm.trans hformulas)
  exact ⟨hunread, hreport 2 hunread, hread, hends _ hread, hpassed,
    hidentity _ List.mem_cons_self⟩

end SwitchingAlgebra.FormulaList
