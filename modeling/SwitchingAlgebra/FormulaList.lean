import SwitchingAlgebra.Expr.Printer
import SwitchingAlgebra.Reading.Parse

/-!
# Lists of formulas

A file of formulas holds on each line an expression and, after a semicolon, the expression that it
must evaluate to. Empty lines and lines that start with a number sign are passed over. The check
reads and evaluates both sides of the formulas in turn, ends at the first that fails, and keeps a
log of those that held.
-/

set_option autoImplicit false
set_option relaxedAutoImplicit false

namespace SwitchingAlgebra

/-- An expression with the expression that it must evaluate to. -/
structure Formula where
  /-- The number of the line, counted from one. -/
  line : Nat
  /-- The expression as it is written. -/
  input : String
  /-- What it must evaluate to, as it is written. -/
  expected : String
  deriving DecidableEq, Repr

namespace FormulaList

/-! ### Reading -/

/-- The pieces of a text between line feeds. -/
def pieces : List Char → List (List Char)
  | [] => [[]]
  | c :: rest =>
    if c = '\n' then [] :: pieces rest
    else
      match pieces rest with
      | [] => [[c]]
      | piece :: others => (c :: piece) :: others

/-- A piece without a carriage return at its end. -/
def withoutReturn (piece : List Char) : List Char :=
  if piece.getLast? = some '\r' then piece.dropLast else piece

/-- The lines that pieces stand for: every piece but the last ended with a line feed, before which a
carriage return is dropped, and the last is a line only if it is not empty. -/
def linesOfPieces : List (List Char) → List (List Char)
  | [] => []
  | [last] => if last.isEmpty then [] else [last]
  | piece :: next :: others => withoutReturn piece :: linesOfPieces (next :: others)

/-- The lines of a text. -/
def lines (cs : List Char) : List (List Char) :=
  linesOfPieces (pieces cs)

/-- A line carries no formula. -/
def isSkipped (line : List Char) : Bool :=
  line.isEmpty || line.head? == some '#'

/-- The formula on a trimmed line, if there is a semicolon. -/
def formula? (number : Nat) (line : List Char) : Option Formula :=
  if ';' ∈ line then
    some ⟨number, String.ofList (Text.trim (line.takeWhile (· != ';'))),
      String.ofList (Text.trim (line.dropWhile (· != ';')).tail)⟩
  else none

/-- The formulas of lines that are numbered from `number` on, or the number of the first line that
has none where there should be one. -/
def ofLines (number : Nat) : List (List Char) → Except Nat (List Formula)
  | [] => .ok []
  | line :: rest =>
    let line := Text.trim line
    if isSkipped line then ofLines (number + 1) rest
    else
      match formula? number line with
      | none => .error number
      | some formula => (ofLines (number + 1) rest).map (formula :: ·)

/-- The formulas of a text, or the number of the first line that has none where there should be
one. -/
def ofText (content : String) : Except Nat (List Formula) :=
  ofLines 1 (lines content.toList)

/-! ### Checking -/

/-- One of the two sides of a formula. -/
inductive Side where
  /-- The expression. -/
  | input
  /-- What it must evaluate to. -/
  | expected
  deriving DecidableEq, Repr

/-- Why a list of formulas does not pass the check. -/
inductive Failure where
  /-- A line has no semicolon. -/
  | missingSeparator (line : Nat)
  /-- A side of a formula is not an expression. -/
  | unreadable (line : Nat) (side : Side) (error : Reading.Error)
  /-- The expression evaluates to something else. -/
  | mismatch (formula : Formula) (actual expected : Expr)

/-- What is noted while formulas are checked. -/
inductive LogEntry where
  /-- A formula holds, with the evaluated expression. -/
  | holds (formula : Formula) (actual : Expr)
  /-- All formulas of the list hold. -/
  | allHold (count : Nat)
  /-- All generated formulas keep their meaning when they are evaluated. -/
  | generatedSound (count : Nat)

/-- How the check of a list ended, with what was noted until then. -/
structure Report where
  /-- What was noted, the earliest first. -/
  log : List LogEntry
  /-- Why the check failed, if it did. -/
  failure : Option Failure

/-- A formula holds, with the evaluated expression, or the reason why it does not. -/
def checkFormula (formula : Formula) : Except Failure Expr := do
  let actual ← (Reading.readEvaluated formula.input).mapError
    (.unreadable formula.line .input)
  let expected ← (Reading.readEvaluated formula.expected).mapError
    (.unreadable formula.line .expected)
  if actual == expected then return actual
  else throw (.mismatch formula actual expected)

/-- The check of the formulas of a list. -/
def checkAll : List Formula → Report
  | [] => ⟨[], none⟩
  | formula :: rest =>
    match checkFormula formula with
    | .error failure => ⟨[], some failure⟩
    | .ok actual =>
      let report := checkAll rest
      ⟨.holds formula actual :: report.log, report.failure⟩

/-- The check of the formulas of a text, without any generated formulas. -/
def check (content : String) : Report :=
  match ofText content with
  | .error line => ⟨[], some (.missingSeparator line)⟩
  | .ok formulas =>
    let report := checkAll formulas
    match report.failure with
    | some failure => ⟨report.log, some failure⟩
    | none => ⟨report.log ++ [.allHold formulas.length, .generatedSound 0], none⟩

/-! ### Wording -/

/-- The name of a side of a formula. -/
def Side.text : Side → String
  | input => "input"
  | expected => "expected"

/-- The wording of a failure, from the outermost message to its cause. -/
def Failure.messages (path : String) : Failure → List String
  | missingSeparator line => [path ++ ":" ++ toString line ++ ": missing ';' separator"]
  | unreadable line side error =>
    ["line " ++ toString line ++ ": failed to parse " ++ side.text, error.message]
  | mismatch formula actual expected =>
    ["line " ++ toString formula.line ++ ": " ++ formula.input ++ " evaluated to " ++ actual.text
      ++ ", expected " ++ expected.text]

/-- The wording of a note, with its level in front. -/
def LogEntry.message : LogEntry → String
  | holds formula actual =>
    "DEBUG line " ++ toString formula.line ++ ": " ++ formula.input ++ " => " ++ actual.text
  | allHold count => "INFO " ++ toString count ++ " checked-in formulas evaluate as expected"
  | generatedSound count => "INFO " ++ toString count ++ " generated formulas evaluate soundly"

end FormulaList

end SwitchingAlgebra
