import SwitchingAlgebra.Cover.Minimum
import SwitchingAlgebra.Policy
import SwitchingAlgebra.Term

/-!
# Evaluation

An evaluated join is a minimum two-level form. Its operands are expanded into terms over their
symbols, each term becomes a cube with one column for each symbol, and the cubes of a minimum cover
are turned back into operands. So the result depends on the connective and the function alone, and
not on how the operands were written or grouped.

An operand that is left alone is the result as it stands, and a negation is only applied on the
outside of an evaluated operand: neither is brought into two-level form anew.
-/

set_option autoImplicit false
set_option relaxedAutoImplicit false

namespace SwitchingAlgebra

/-! ### Two-level forms -/

/-- A list of terms over the columns of a list of symbols. -/
structure TwoLevel where
  /-- The symbols of the columns, in increasing order. -/
  symbols : List Symbol
  /-- The terms. -/
  terms : List Term

namespace TwoLevel

/-- The terms of a list of operands with respect to the connective that joins them. -/
def ofOperands (op : Connective) (operands : List Expr) : TwoLevel :=
  let terms := Term.distinct (operands.flatMap fun e => e.terms op false)
  ⟨sortDistinct compare (terms.flatMap fun t => t.map Literal.symbol), terms⟩

/-- The cube of a term. -/
def cube (form : TwoLevel) (t : Term) : Cube :=
  ⟨form.symbols.map t.polarity?⟩

/-- The cubes of all terms. -/
def cover (form : TwoLevel) : Cover :=
  .ofList form.symbols.length (form.terms.map form.cube)

/-- The literals of a cube, in the order of the columns. -/
def literals (p : Policy) (form : TwoLevel) (c : Cube) : List Expr :=
  (form.symbols.zip c.columns).filterMap fun (s, column) => column.map (p.literal s)

end TwoLevel

/-! ### Building evaluated nodes -/

namespace Expr

/-- An expression is the given constant. -/
def isTruth (value : Bool) : Expr → Bool
  | truth b => b == value
  | _ => false

/-- The operands that an evaluated operand contributes to a join: its own operands, if it is a join
of the same connective. -/
def splice (op : Connective) : Expr → List Expr
  | join mode child operands => if child = op then operands else [join mode child operands]
  | e => [e]

end Expr

namespace Policy

/-- The negation of an evaluated operand. -/
def complement (p : Policy) : Expr → Expr
  | .truth value => .truth (p.truth !value)
  | .not _ inner => inner
  | .symbol s => .not .evaluated (.symbol s)
  | .join mode op operands => .not .evaluated (.join mode op operands)

/-- Evaluated operands joined with a connective where none, one or several are left. -/
def joinLeft (op : Connective) (identity : Expr) : List Expr → Expr
  | [] => identity
  | [e] => e
  | es => .join .evaluated op es

/-- Operands as the operands of a minimum two-level form. -/
def minimize (p : Policy) (op : Connective) (operands : List Expr) : Expr :=
  let form := TwoLevel.ofOperands op operands
  let cover := form.cover.minimum
  if cover.containsWhole then .truth (p.truth op.annihilator)
  else joinLeft op (.truth (p.truth op.identity))
    (Expr.distinct (cover.cubes.map fun c => p.term op (form.literals p c)))

/-- What is left of evaluated operands of a connective. Operands of the same connective are spliced
in, and repeated ones and the identity are dropped. -/
def parts (p : Policy) (op : Connective) (operands : List Expr) : List Expr :=
  (Expr.distinct (operands.flatMap (Expr.splice op))).filter
    fun e => !e.isTruth (p.truth op.identity)

/-- Evaluated operands joined with a connective. Of the parts that are left the annihilator decides
the result. If there are two or more, they are brought into two-level form. -/
def combine (p : Policy) (op : Connective) (operands : List Expr) : Expr :=
  if (p.parts op operands).any (Expr.isTruth (p.truth op.annihilator)) then
    .truth (p.truth op.annihilator)
  else
    match p.parts op operands with
    | [] => .truth (p.truth op.identity)
    | [e] => e
    | es => p.minimize op es

mutual

/-- The evaluated form of an expression. Nodes that are marked as evaluated stay as they are. -/
def eval (p : Policy) : Expr → Expr
  | .truth value => .truth value
  | .symbol s => .symbol s
  | .not .evaluated operand => .not .evaluated operand
  | .not .raw operand => p.complement (eval p operand)
  | .join .evaluated op operands => .join .evaluated op operands
  | .join .raw op operands => p.combine op (evalAll p operands)

/-- The evaluated forms of a list of expressions. -/
def evalAll (p : Policy) : List Expr → List Expr
  | [] => []
  | e :: rest => eval p e :: evalAll p rest

end

theorem evalAll_eq_map (p : Policy) (es : List Expr) : p.evalAll es = es.map p.eval := by
  induction es with
  | nil => simp [evalAll]
  | cons e rest ih => simp [evalAll, ih]

/-- A negation, built in the given mode as far as the policy follows it. -/
def negation (p : Policy) (mode : Mode) (operand : Expr) : Expr :=
  match p.negationMode mode with
  | .evaluated => p.complement (p.eval operand)
  | .raw => .not .raw operand

/-- A join, built with the given connective and in the given mode as far as the policy follows
them. -/
def join (p : Policy) (mode : Mode) (op : Connective) (operands : List Expr) : Expr :=
  match p.joinMode mode with
  | .evaluated => p.combine (p.connective op) (operands.map p.eval)
  | .raw => .join .raw (p.connective op) operands

end Policy

/-- The evaluated form of an expression. -/
def Expr.eval (e : Expr) : Expr :=
  Policy.standard.eval e

end SwitchingAlgebra
