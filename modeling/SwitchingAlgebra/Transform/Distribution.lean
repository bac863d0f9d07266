import SwitchingAlgebra.Evaluation

/-!
# Distribution

A join over joins of the dual connective is turned around: from each of them one operand is chosen
in every way, each choice is joined with the outer connective, and the results with the dual one.
The number of choices is the product of the numbers of operands.
-/

set_option autoImplicit false
set_option relaxedAutoImplicit false

namespace SwitchingAlgebra

/-- All ways to choose one element of each list, the last choice varying fastest. -/
def choices {α : Type} : List (List α) → List (List α)
  | [] => [[]]
  | xs :: rest => xs.flatMap fun x => (choices rest).map (x :: ·)

/-- The ways to choose from an operand: its own operands, if it is a join of the given connective.
-/
def Expr.alternatives (op : Connective) : Expr → List Expr
  | .join mode child operands => if child = op then operands else [.join mode child operands]
  | e => [e]

namespace Policy

/-- Distribution, cut off at a depth. -/
def distributeWithin (p : Policy) : Nat → Expr → Expr
  | 0, e => e
  | depth + 1, .join mode op operands =>
    if operands.any fun e => e.connective? == some op.dual then
      p.join .evaluated op.dual
        ((choices (operands.map (Expr.alternatives op.dual))).map fun choice =>
          p.distributeWithin depth (p.join .evaluated op choice))
    else .join mode op operands
  | _ + 1, e => e

theorem distributeWithin_truth (p : Policy) (depth : Nat) (value : Bool) :
    p.distributeWithin depth (.truth value) = .truth value := by
  cases depth <;> rfl

theorem distributeWithin_symbol (p : Policy) (depth : Nat) (name : Symbol) :
    p.distributeWithin depth (.symbol name) = .symbol name := by
  cases depth <;> rfl

theorem distributeWithin_not (p : Policy) (depth : Nat) (mode : Mode) (operand : Expr) :
    p.distributeWithin depth (.not mode operand) = .not mode operand := by
  cases depth <;> rfl

/-- A depth that is always enough. A choice is smaller than the join it is taken from, and where the
policy simplifies it, it becomes one of its parts or a two-level form. -/
def distributionDepth (e : Expr) : Nat :=
  e.size + 4

/-- The expression with its outermost connective distributed over the dual one. -/
def distribute (p : Policy) (e : Expr) : Expr :=
  p.distributeWithin (distributionDepth e) e

end Policy

end SwitchingAlgebra
