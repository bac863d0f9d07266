import SwitchingAlgebra.Evaluation

/-!
# Flattening

Operands that are joins of the same connective are spliced into the join above them, in the order in
which they are written. The nodes of the result are raw.
-/

set_option autoImplicit false
set_option relaxedAutoImplicit false

namespace SwitchingAlgebra.Policy

mutual

/-- The expression without joins directly below joins of the same connective. -/
def flatten (p : Policy) : Expr → Expr
  | .truth value => .truth value
  | .symbol s => .symbol s
  | .not _ operand => p.negation .raw (flatten p operand)
  | .join _ op operands => p.join .raw op (flattenAll p op operands)

/-- The operands of a join flattened, with those of the same connective spliced in. -/
def flattenAll (p : Policy) (op : Connective) : List Expr → List Expr
  | [] => []
  | e :: rest => (flatten p e).splice op ++ flattenAll p op rest

end

end SwitchingAlgebra.Policy
