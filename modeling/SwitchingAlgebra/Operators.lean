import SwitchingAlgebra.Evaluation

/-!
# Operators on expressions

Negation, AND and OR of expressions as operators. All of them build evaluated nodes: `x * y` and `x
&&& y` are the AND of two expressions, `x + y` and `x ||| y` their OR, and `~~~x` is the negation.
-/

set_option autoImplicit false
set_option relaxedAutoImplicit false

namespace SwitchingAlgebra.Expr

/-- The evaluated AND of two expressions. -/
def product (x y : Expr) : Expr :=
  Policy.standard.join .evaluated .and [x, y]

/-- The evaluated OR of two expressions. -/
def sum (x y : Expr) : Expr :=
  Policy.standard.join .evaluated .or [x, y]

/-- The evaluated negation of an expression. -/
def complement (x : Expr) : Expr :=
  Policy.standard.negation .evaluated x

instance : Mul Expr := ⟨product⟩

instance : AndOp Expr := ⟨product⟩

instance : Add Expr := ⟨sum⟩

instance : OrOp Expr := ⟨sum⟩

instance : Complement Expr := ⟨complement⟩

end SwitchingAlgebra.Expr
