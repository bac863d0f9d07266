import SwitchingAlgebra.Expr.Shape

/-!
# Symbols and literals of an expression

The symbols of an expression are what its value can depend on. Its literals are those symbols with
the negations that stand directly on them.
-/

set_option autoImplicit false
set_option relaxedAutoImplicit false

namespace SwitchingAlgebra.Expr

mutual

/-- The symbols of an expression, from left to right. -/
def symbolLeaves : Expr → List Symbol
  | truth _ => []
  | symbol name => [name]
  | not _ operand => operand.symbolLeaves
  | join _ _ operands => symbolLeavesAll operands

/-- The symbols of a list of expressions, from left to right. -/
def symbolLeavesAll : List Expr → List Symbol
  | [] => []
  | e :: rest => e.symbolLeaves ++ symbolLeavesAll rest

end

theorem symbolLeavesAll_eq_flatMap (es : List Expr) :
    symbolLeavesAll es = es.flatMap symbolLeaves := by
  induction es with
  | nil => rw [symbolLeavesAll, List.flatMap_nil]
  | cons e rest ih => rw [symbolLeavesAll, ih, List.flatMap_cons]

/-- The distinct symbols of an expression in increasing order. -/
def symbols (e : Expr) : List Symbol :=
  sortDistinct compare e.symbolLeaves

mutual

/-- The symbols of an expression, from left to right, each with the negation applied to it directly.
A negation of anything but a symbol is passed over. -/
def literalLeaves : Expr → List Expr
  | truth _ => []
  | symbol name => [symbol name]
  | not mode (symbol name) => [not mode (symbol name)]
  | not _ operand => operand.literalLeaves
  | join _ _ operands => literalLeavesAll operands

/-- The literals of a list of expressions, from left to right. -/
def literalLeavesAll : List Expr → List Expr
  | [] => []
  | e :: rest => e.literalLeaves ++ literalLeavesAll rest

end

/-- The distinct symbols and negated symbols of an expression in canonical order. -/
def literals (e : Expr) : List Expr :=
  distinct e.literalLeaves

end SwitchingAlgebra.Expr
