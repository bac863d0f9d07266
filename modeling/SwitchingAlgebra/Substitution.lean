import SwitchingAlgebra.Evaluation

/-!
# Substitution

A substitution replaces parts of an expression, from the outside in: a part that equals a key
becomes its value and is not searched again. Nodes above a replaced part are built anew in their own
mode, so that evaluated nodes are simplified again. A part in which nothing is replaced is left as
it is, and a constant that is replaced by itself counts as not replaced.
-/

set_option autoImplicit false
set_option relaxedAutoImplicit false

namespace SwitchingAlgebra

/-- Keys with their values. Of equal keys the last one counts. -/
abbrev Substitution := List (Expr × Expr)

namespace Substitution

/-- The value of the key that the expression equals. -/
def find? (m : Substitution) (e : Expr) : Option Expr :=
  let shape := e.shape
  (m.reverse.find? fun (key, _) => compare key.shape shape == .eq).map (·.2)

end Substitution

/-- Two expressions are the same constant. -/
def Expr.sameConstant : Expr → Expr → Bool
  | .truth b, .truth c => b == c
  | _, _ => false

namespace Policy

mutual

/-- The expression with its parts replaced, or nothing if no part is. -/
def replace? (p : Policy) (m : Substitution) : Expr → Option Expr
  | .truth value => (m.find? (.truth value)).filter fun v => !v.sameConstant (.truth value)
  | .symbol s => m.find? (.symbol s)
  | .not mode operand =>
    (m.find? (.not mode operand)).or ((replace? p m operand).map (p.negation mode))
  | .join mode op operands =>
    (m.find? (.join mode op operands)).or
      ((replaceAll? p m operands).map (p.join mode op))

/-- The expressions of a list with their parts replaced, or nothing if no part of any is. -/
def replaceAll? (p : Policy) (m : Substitution) : List Expr → Option (List Expr)
  | [] => none
  | e :: rest =>
    match replace? p m e, replaceAll? p m rest with
    | none, none => none
    | change, changes => some (change.getD e :: changes.getD rest)

end

/-- The expression with its parts replaced. -/
def substitute (p : Policy) (m : Substitution) (e : Expr) : Expr :=
  (p.replace? m e).getD e

end Policy

/-- The expression with its parts replaced. -/
def Expr.substitute (e : Expr) (m : Substitution) : Expr :=
  Policy.standard.substitute m e

end SwitchingAlgebra
