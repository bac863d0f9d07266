import SwitchingAlgebra.Evaluation

/-!
# Normal forms

The normal form of an expression with respect to a connective is a list of expressions, each a
literal or a join of literals of distinct symbols with the dual connective, that joined with the
connective have the meaning of the expression: a conjunctive normal form for AND, a disjunctive one
for OR. Of the terms of the expression those are left out that hold all literals of a shorter one.
-/

set_option autoImplicit false
set_option relaxedAutoImplicit false

namespace SwitchingAlgebra

/-- The terms that no shorter term of the list subsumes. -/
def Term.minimal (ts : List Term) : List Term :=
  ts.filter fun t => !ts.any fun u => u.length < t.length && u.subsumes t

/-- The normal form of an expression with respect to a connective, in canonical order. -/
def Policy.normalForm (p : Policy) (op : Connective) (e : Expr) : List Expr :=
  match Term.minimal (Term.distinct (e.terms op false)) with
  | [] => [.truth (p.truth op.identity)]
  | ts => Expr.distinct (ts.map fun t => p.term op (t.map fun l => p.literal l.symbol l.positive))

end SwitchingAlgebra
