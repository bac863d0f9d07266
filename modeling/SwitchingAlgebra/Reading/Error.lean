import SwitchingAlgebra.Text.Quoted

/-!
# Errors in written expressions

Why a text is not an expression, and where. Positions count the bytes of the text in UTF-8.
-/

set_option autoImplicit false
set_option relaxedAutoImplicit false

namespace SwitchingAlgebra.Reading

/-- Why a text is not an expression. -/
inductive Cause where
  /-- There is nothing in the text. -/
  | empty
  /-- A parenthesis lacks its partner. -/
  | unbalancedParenthesis
  /-- An operator lacks an operand. -/
  | danglingOperator
  /-- A character starts nothing that can stand in an expression. -/
  | unexpectedCharacter (c : Char)
  /-- Something that can stand in an expression, but not here. -/
  | unexpectedToken (text : String)
  deriving DecidableEq, Repr

/-- A cause with the position at which it was found. -/
structure Error where
  /-- Why the text is not an expression. -/
  cause : Cause
  /-- The number of bytes before the place. -/
  position : Nat
  deriving DecidableEq, Repr

/-- The wording of a cause. -/
def Cause.message : Cause → String
  | empty => "empty expression"
  | unbalancedParenthesis => "unbalanced parenthesis"
  | danglingOperator => "operator without operand"
  | unexpectedCharacter c => "unexpected character " ++ Text.quoteChar c
  | unexpectedToken text => "unexpected token " ++ Text.quote text

/-- The wording of an error. -/
def Error.message (e : Error) : String :=
  "syntax error at offset " ++ toString e.position ++ ": " ++ e.cause.message

end SwitchingAlgebra.Reading
