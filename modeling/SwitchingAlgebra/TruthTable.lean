import SwitchingAlgebra.Expr.Leaves
import SwitchingAlgebra.Operand
import SwitchingAlgebra.Substitution

/-!
# Truth tables

The truth table of an expression has a row for every assignment of truth values to its symbols, with
the value that the expression takes when the symbols are replaced by the constants. The symbols
stand in increasing order; the first one changes slowest, and false comes before true. The table of
a constant has one row, in which the constant stands for itself.

The rows are counted in a machine word, and room is made for all of them before the first one is
found. A number of rows that does not fit in a word is an error. One that does, but asks for more
memory than a list may take up, stops the program.
-/

set_option autoImplicit false
set_option relaxedAutoImplicit false

namespace SwitchingAlgebra

/-- An assignment of constants to symbols with the value of an expression under it. -/
structure TruthRow where
  /-- The symbols with their constants. -/
  assignment : Substitution
  /-- The value of the expression. -/
  value : Expr

namespace TruthRow

/-- The row with every part in functional form. -/
def functionalTexts (row : TruthRow) : List (String × String) × String :=
  (row.assignment.map fun (s, value) => (s.functionalText, value.functionalText),
    row.value.functionalText)

/-- The row with every part in algebraic form. -/
def texts (row : TruthRow) : List (String × String) × String :=
  (row.assignment.map fun (s, value) => (s.text, value.text), row.value.text)

end TruthRow

/-- All assignments to the symbols of a list. -/
def assignments : List Symbol → List Substitution
  | [] => [[]]
  | s :: rest =>
    let others := assignments rest
    others.map ((.symbol s, .truth false) :: ·) ++ others.map ((.symbol s, .truth true) :: ·)

/-- The rows of a table are counted in words of this many bits. -/
def countBits : Nat := 64

/-- The bytes that a row takes up in a list: three words for the map and one for the value. -/
def rowBytes : Nat := 32

/-- The most bytes that a list may take up. -/
def maxListBytes : Nat := 0x7fffffffffffffff

/-- Why there is no truth table. -/
inductive TableFailure where
  /-- The value stands for no expression, or its rows cannot be counted. -/
  | rejected (error : Error)
  /-- A list has no room for the rows, and the program stops. -/
  | capacityOverflow

/-- The value of an expression under an assignment. -/
def Expr.valueUnder (e : Expr) (assignment : Substitution) : Expr :=
  (e.substitute assignment).eval

/-- The truth table of an expression. -/
def Expr.truthTable (e : Expr) : Except TableFailure (List TruthRow) :=
  match e with
  | .truth value => .ok [⟨[(.truth value, .truth value)], .truth value⟩]
  | e =>
    if countBits ≤ e.symbols.length then
      .error (.rejected (.tooManySymbols e.symbols.length))
    else if maxListBytes < (1 <<< e.symbols.length) * rowBytes then .error .capacityOverflow
    else .ok ((assignments e.symbols).map fun assignment => ⟨assignment, e.valueUnder assignment⟩)

/-- The truth table of the expression that a value stands for. -/
def Operand.truthTable (value : Operand) : Except TableFailure (List TruthRow) := do
  (← value.toExpr.mapError .rejected).truthTable

end SwitchingAlgebra
