import SwitchingAlgebra.Expr.Basic

/-!
# Written forms of expressions

The algebraic form is written with signs between operands and an apostrophe after what is negated;
an OR below an AND and every negated join stand in parentheses. The functional form spells out every
node and its operands in their order.
-/

set_option autoImplicit false
set_option relaxedAutoImplicit false

namespace SwitchingAlgebra

/-- A text in parentheses, where they are needed. -/
def parenthesizedIf (needed : Bool) (text : String) : String :=
  if needed then "(" ++ text ++ ")" else text

/-- Symbols spelled out: names stand in apostrophes. -/
def Symbol.functionalText : Symbol → String
  | .name text => "Symbol('" ++ text ++ "')"
  | s => "Symbol(" ++ s.text ++ ")"

namespace Expr

/-- AND binds more tightly than OR. -/
def needsParentheses (op : Connective) (operand : Expr) : Bool :=
  op = .and && operand.connective? = some .or

mutual

/-- The algebraic form. -/
def text : Expr → String
  | truth true => "1"
  | truth false => "0"
  | symbol name => name.text
  | not _ operand => parenthesizedIf operand.connective?.isSome operand.text ++ "'"
  | join _ op operands => joinedText op operands

/-- The algebraic forms of operands with the sign of a connective between them. -/
def joinedText (op : Connective) : List Expr → String
  | [] => ""
  | [e] => parenthesizedIf (needsParentheses op e) e.text
  | e :: f :: rest =>
    parenthesizedIf (needsParentheses op e) e.text ++ op.sign ++ joinedText op (f :: rest)

end

mutual

/-- The functional form. -/
def functionalText : Expr → String
  | truth true => "TRUE"
  | truth false => "FALSE"
  | symbol name => name.functionalText
  | not _ operand => "NOT(" ++ operand.functionalText ++ ")"
  | join _ op operands => op.text ++ "(" ++ listedText operands ++ ")"

/-- The functional forms of operands with commas between them. -/
def listedText : List Expr → String
  | [] => ""
  | [e] => e.functionalText
  | e :: f :: rest => e.functionalText ++ ", " ++ listedText (f :: rest)

end

end Expr

end SwitchingAlgebra
