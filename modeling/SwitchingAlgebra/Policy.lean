import SwitchingAlgebra.Expr.Basic

/-!
# Construction policies

Every node that evaluation, the transformations, substitution and reading build is built as a policy
says: which constant stands for a truth value, which symbol for a written one, in which mode
negations and joins are built, and with which connective operands are joined.
-/

set_option autoImplicit false
set_option relaxedAutoImplicit false

namespace SwitchingAlgebra

/-- How new nodes are built. -/
structure Policy where
  /-- The constant for a truth value. -/
  truth : Bool → Bool := id
  /-- The symbol for a written symbol. -/
  symbol : Symbol → Symbol := id
  /-- The mode of a negation for which a mode is asked for. -/
  negationMode : Mode → Mode := id
  /-- The mode of a join for which a mode is asked for. -/
  joinMode : Mode → Mode := id
  /-- The connective of a join for which a connective is asked for. -/
  connective : Connective → Connective := id

namespace Policy

/-- Everything is built as asked for. -/
def standard : Policy := {}

/-- Written names get the beginning `x_` and written integers are raised by a hundred. -/
def prefixed : Policy where
  symbol
    | .name text => .name ("x_" ++ text)
    | .int value => .int (value + 100)
    | .anonymous serial => .anonymous serial

/-- Nothing is simplified as it is built. -/
def lazy : Policy where
  negationMode _ := .raw
  joinMode _ := .raw

/-- Joins are always simplified as they are built. -/
def eager : Policy where
  joinMode _ := .evaluated

/-- AND and OR change places. -/
def swapped : Policy where
  connective := Connective.dual

/-- The constants change places. -/
def flipped : Policy where
  truth value := !value

/-- The literal of a symbol. -/
def literal (p : Policy) (s : Symbol) (positive : Bool) : Expr :=
  if positive then .symbol s else .not (p.negationMode .evaluated) (.symbol s)

/-- Literals of distinct symbols as an operand of a connective: joined with the dual connective
where there are several. Such a join has nothing to simplify. Without literals the operand is the
annihilator. -/
def term (p : Policy) (op : Connective) : List Expr → Expr
  | [] => .truth (p.truth op.annihilator)
  | [l] => l
  | ls => .join (p.joinMode .evaluated) (p.connective op.dual) ls

end Policy

end SwitchingAlgebra
