import SwitchingAlgebra.Expr.Printer
import SwitchingAlgebra.Reading.Parse

/-!
# Operands and errors

An operand is a value that may stand for an expression: an expression, a truth value, an integer or
a text. Zero and one stand for the constants and no other integer stands for anything; a text stands
for the evaluated expression that it is read as.
-/

set_option autoImplicit false
set_option relaxedAutoImplicit false

namespace SwitchingAlgebra

/-- A value that may stand for an expression. -/
inductive Operand where
  /-- An expression stands for itself. -/
  | expr (e : Expr)
  /-- A truth value. -/
  | truth (value : Bool)
  /-- An integer. -/
  | int (value : Int)
  /-- A text. -/
  | text (written : String)

/-- The text by which an error names the value. -/
def Operand.description : Operand → String
  | expr e => e.functionalText
  | truth value => (Expr.truth value).functionalText
  | int value => toString value
  | text written => Text.quote written

/-- Why an expression or a table cannot be built. -/
inductive Error where
  /-- A connective has nothing to join. -/
  | noOperands (op : Connective)
  /-- A value stands for no expression, or for no constant where one is needed. -/
  | notCoercible (value : Operand)
  /-- A table would have too many rows. -/
  | tooManySymbols (count : Nat)
  /-- A text is not an expression. -/
  | unreadable (error : Reading.Error)

/-- The wording of an error. -/
def Error.message : Error → String
  | noOperands op => op.text ++ " requires at least one operand"
  | notCoercible value =>
    "value " ++ value.description ++ " cannot be converted to an expression"
  | tooManySymbols count => toString count ++ " symbols are too many to enumerate"
  | unreadable error => error.message

namespace Operand

/-- The constant that a value stands for. -/
def toConstant : Operand → Except Error Expr
  | truth value => .ok (.truth value)
  | int 0 => .ok (.truth false)
  | int 1 => .ok (.truth true)
  | expr (.truth value) => .ok (.truth value)
  | value => .error (.notCoercible value)

/-- The expression that a value stands for. -/
def toExpr : Operand → Except Error Expr
  | expr e => .ok e
  | text written => (Reading.readEvaluated written).mapError .unreadable
  | value => value.toConstant

end Operand

/-- A join of operands, of which there must be at least one. -/
def Policy.join? (p : Policy) (mode : Mode) (op : Connective) (operands : List Expr) :
    Except Error Expr :=
  if operands.isEmpty then .error (.noOperands op)
  else .ok (p.join mode op operands)

end SwitchingAlgebra
