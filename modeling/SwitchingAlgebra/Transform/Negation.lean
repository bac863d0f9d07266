import SwitchingAlgebra.Evaluation

/-!
# Moving negations

Runs of negations collapse by their parity (`cancel`), a negated join is turned into the dual join
of negated operands (`deMorgan`), and both together push all negations down to the symbols
(`literalize`). A part in which there is nothing to move is left as it is, marks included.
-/

set_option autoImplicit false
set_option relaxedAutoImplicit false

namespace SwitchingAlgebra

namespace Policy

/-- A run of two or more negations collapsed to one, which is raw, or none. -/
def cancel (p : Policy) (e : Expr) : Expr :=
  if e.negations ≤ 1 then e
  else if e.negations % 2 = 0 then e.core
  else p.negation .raw e.core

/-- De Morgan's law for a negated join. Anything else stays as it is. -/
def deMorgan (p : Policy) : Expr → Expr
  | .not _ (.join _ op operands) =>
    p.join .evaluated op.dual (operands.map (p.negation .evaluated))
  | e => e

/-- The expression with all negations pushed down to constants and symbols, or nothing if they are
there already. The recursion is cut off at a depth. -/
def literalizeWithin (p : Policy) : Nat → Expr → Option Expr
  | 0, _ => none
  | _ + 1, .truth _ => none
  | _ + 1, .symbol _ => none
  | depth + 1, .not mode operand =>
    match p.cancel (.not mode operand) with
    | .not mode' (.join mode'' op operands) =>
      let moved := p.deMorgan (.not mode' (.join mode'' op operands))
      some ((p.literalizeWithin depth moved).getD moved)
    | .not mode' inner => if operand.negations = 0 then none else some (.not mode' inner)
    | core => some ((p.literalizeWithin depth core).getD core)
  | depth + 1, .join mode op operands =>
    let changes := operands.map (p.literalizeWithin depth)
    if changes.all Option.isNone then none
    else some (p.join mode op (changes.zipWith (fun change e => change.getD e) operands))

theorem literalizeWithin_zero (p : Policy) (e : Expr) : p.literalizeWithin 0 e = none := rfl

theorem literalizeWithin_truth (p : Policy) (depth : Nat) (value : Bool) :
    p.literalizeWithin depth (.truth value) = none := by
  cases depth <;> rfl

theorem literalizeWithin_symbol (p : Policy) (depth : Nat) (s : Symbol) :
    p.literalizeWithin depth (.symbol s) = none := by
  cases depth <;> rfl

/-- What is left of a run of negations decides what is pushed. -/
theorem literalizeWithin_not (p : Policy) (depth : Nat) (mode : Mode) (operand : Expr) :
    p.literalizeWithin (depth + 1) (.not mode operand) =
      match p.cancel (.not mode operand) with
      | .not mode' (.join mode'' op operands) =>
        let moved := p.deMorgan (.not mode' (.join mode'' op operands))
        some ((p.literalizeWithin depth moved).getD moved)
      | .not mode' inner => if operand.negations = 0 then none else some (.not mode' inner)
      | core => some ((p.literalizeWithin depth core).getD core) := rfl

/-- In a join every operand is replaced by what is pushed in it. -/
theorem literalizeWithin_join (p : Policy) (depth : Nat) (mode : Mode) (op : Connective)
    (operands : List Expr) :
    p.literalizeWithin (depth + 1) (.join mode op operands) =
      if (operands.map (p.literalizeWithin depth)).all Option.isNone then none
      else some (p.join mode op (operands.map fun e => (p.literalizeWithin depth e).getD e)) := by
  have hchanged : (operands.map (p.literalizeWithin depth)).zipWith (fun change e => change.getD e)
      operands = operands.map fun e => (p.literalizeWithin depth e).getD e := by
    rw [List.zipWith_map_left, List.zipWith_self]
  rw [← hchanged]
  rfl

/-- A depth that is always enough. De Morgan's law takes one negation away and puts it on the
smaller operands, where two steps of recursion reach it; only where the policy simplifies a join can
the result be of another size, and then it is a two-level form, which a few steps walk through. -/
def literalizeDepth (e : Expr) : Nat :=
  2 * e.size + 8

/-- The expression with all negations pushed down to constants and symbols. A join in which
something changes is built anew in its own mode. -/
def literalize (p : Policy) (e : Expr) : Expr :=
  (p.literalizeWithin (literalizeDepth e) e).getD e

end Policy

end SwitchingAlgebra
