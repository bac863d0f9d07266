/-!
# Connectives

AND and OR, each the dual of the other. The identity of a connective changes nothing when joined
with it; its annihilator, the opposite constant, decides the result alone.
-/

set_option autoImplicit false
set_option relaxedAutoImplicit false

namespace SwitchingAlgebra

/-- An operator that joins a list of operands in which order and grouping do not matter. -/
inductive Connective where
  /-- True when every operand is. -/
  | and
  /-- True when some operand is. -/
  | or
  deriving DecidableEq, Inhabited, Repr, Hashable

namespace Connective

/-- The connective with the roles of the constants exchanged. -/
def dual : Connective → Connective
  | and => or
  | or => and

/-- The constant that changes nothing when joined: true for AND and false for OR. -/
def identity : Connective → Bool
  | and => true
  | or => false

/-- The constant that decides the result alone: false for AND and true for OR. -/
def annihilator (op : Connective) : Bool :=
  !op.identity

/-- AND comes before OR. -/
def order : Connective → Connective → Ordering
  | and, or => .lt
  | or, and => .gt
  | and, and => .eq
  | or, or => .eq

instance : Ord Connective := ⟨order⟩

/-- The capital name of a connective. -/
def text : Connective → String
  | and => "AND"
  | or => "OR"

/-- The sign written between the operands of a connective. -/
def sign : Connective → String
  | and => "∙"
  | or => "+"

@[simp]
theorem dual_dual (op : Connective) : op.dual.dual = op := by cases op <;> rfl

@[simp]
theorem identity_dual (op : Connective) : op.dual.identity = !op.identity := by cases op <;> rfl

end Connective

end SwitchingAlgebra
