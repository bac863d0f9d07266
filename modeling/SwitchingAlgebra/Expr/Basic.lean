import SwitchingAlgebra.Connective
import SwitchingAlgebra.Symbol

/-!
# Expressions

An expression is a constant, a symbol, the negation of an expression, or a join of a list of
operands by AND or OR. A negation or join is marked with the mode it was built in: an evaluated node
has been simplified and is never simplified again, a raw node stands as it was written.

`Expr.holds` is the truth value of an expression under an assignment of truth values to the symbols.
The marks have no influence on it.

Main statements: `Expr.induct`, induction over an expression with the statement for every operand of
a join, and one equation for each constructor under `holds`.
-/

set_option autoImplicit false
set_option relaxedAutoImplicit false

namespace SwitchingAlgebra

/-- How a node is built. -/
inductive Mode where
  /-- The node is simplified as it is built. -/
  | evaluated
  /-- The node is kept as given. -/
  | raw
  deriving DecidableEq, Inhabited, Repr

/-- A Boolean expression. -/
inductive Expr where
  /-- A constant. -/
  | truth (value : Bool)
  /-- A variable. -/
  | symbol (name : Symbol)
  /-- The negation of an expression. -/
  | not (mode : Mode) (operand : Expr)
  /-- The operands joined by a connective, in the order they were given. -/
  | join (mode : Mode) (op : Connective) (operands : List Expr)
  deriving Inhabited, Repr

namespace Expr

/-! ### Parts -/

/-- The mode an expression was built in. Constants and symbols have nothing left to simplify. -/
def mode : Expr → Mode
  | truth _ => .evaluated
  | symbol _ => .evaluated
  | not mode _ => mode
  | join mode _ _ => mode

/-- The connective of a join. -/
def connective? : Expr → Option Connective
  | join _ op _ => some op
  | _ => none

/-- The expressions an expression is directly built from. -/
def operands : Expr → List Expr
  | truth _ => []
  | symbol _ => []
  | not _ operand => [operand]
  | join _ _ operands => operands

/-- The value of a constant. -/
def constant? : Expr → Option Bool
  | truth value => some value
  | _ => none

/-- Constants, symbols and their direct negations. -/
def isLiteral : Expr → Bool
  | truth _ => true
  | symbol _ => true
  | not _ (truth _) => true
  | not _ (symbol _) => true
  | _ => false

/-- What is left of an expression without its leading negations. -/
def core : Expr → Expr
  | not _ operand => operand.core
  | e => e

/-- The number of leading negations. -/
def negations : Expr → Nat
  | not _ operand => operand.negations + 1
  | _ => 0

mutual

/-- The number of nodes of an expression. -/
def size : Expr → Nat
  | truth _ => 1
  | symbol _ => 1
  | not _ operand => operand.size + 1
  | join _ _ operands => sizeAll operands + 1

/-- The number of nodes of a list of expressions. -/
def sizeAll : List Expr → Nat
  | [] => 0
  | e :: rest => e.size + sizeAll rest

end

mutual

/-- The marks of all nodes, each node before its operands. -/
def modes : Expr → List Mode
  | truth _ => [.evaluated]
  | symbol _ => [.evaluated]
  | not mode operand => mode :: operand.modes
  | join mode _ operands => mode :: modesAll operands

/-- The marks of all nodes of a list of expressions. -/
def modesAll : List Expr → List Mode
  | [] => []
  | e :: rest => e.modes ++ modesAll rest

end

/-! ### Meaning -/

mutual

/-- The truth value of an expression when each symbol has the value that the assignment gives it. -/
def holds (assignment : Symbol → Bool) : Expr → Bool
  | truth value => value
  | symbol name => assignment name
  | not _ operand => !operand.holds assignment
  | join _ .and operands => allHold assignment operands
  | join _ .or operands => anyHolds assignment operands

/-- Whether every expression of a list is true. -/
def allHold (assignment : Symbol → Bool) : List Expr → Bool
  | [] => true
  | e :: rest => e.holds assignment && allHold assignment rest

/-- Whether some expression of a list is true. -/
def anyHolds (assignment : Symbol → Bool) : List Expr → Bool
  | [] => false
  | e :: rest => e.holds assignment || anyHolds assignment rest

end

theorem allHold_eq_all (assignment : Symbol → Bool) (es : List Expr) :
    allHold assignment es = es.all (holds assignment) := by
  induction es with
  | nil => simp [allHold]
  | cons e rest ih => simp [allHold, ih]

theorem anyHolds_eq_any (assignment : Symbol → Bool) (es : List Expr) :
    anyHolds assignment es = es.any (holds assignment) := by
  induction es with
  | nil => simp [anyHolds]
  | cons e rest ih => simp [anyHolds, ih]

@[simp]
theorem holds_truth (assignment : Symbol → Bool) (value : Bool) :
    (truth value).holds assignment = value := by simp [holds]

@[simp]
theorem holds_symbol (assignment : Symbol → Bool) (name : Symbol) :
    (symbol name).holds assignment = assignment name := by simp [holds]

@[simp]
theorem holds_not (assignment : Symbol → Bool) (mode : Mode) (e : Expr) :
    (not mode e).holds assignment = !e.holds assignment := by simp [holds]

@[simp]
theorem holds_join_and (assignment : Symbol → Bool) (mode : Mode) (es : List Expr) :
    (join mode .and es).holds assignment = es.all (holds assignment) := by
  simp [holds, allHold_eq_all]

@[simp]
theorem holds_join_or (assignment : Symbol → Bool) (mode : Mode) (es : List Expr) :
    (join mode .or es).holds assignment = es.any (holds assignment) := by
  simp [holds, anyHolds_eq_any]

/-! ### Induction -/

/-- Induction over an expression: a statement that passes from the operands of every negation and
every join to the node holds of all expressions. -/
theorem induct {motive : Expr → Prop} (truth : ∀ value, motive (.truth value))
    (symbol : ∀ name, motive (.symbol name))
    (not : ∀ mode operand, motive operand → motive (.not mode operand))
    (join : ∀ mode op operands, (∀ e ∈ operands, motive e) → motive (.join mode op operands))
    (e : Expr) : motive e :=
  Expr.rec (motive_2 := fun es => ∀ e ∈ es, motive e) truth symbol not join
    (fun _ h => absurd h List.not_mem_nil)
    (fun _ _ hhead htail e he => (List.mem_cons.1 he).elim (fun h => h ▸ hhead) (htail e)) e

end Expr

end SwitchingAlgebra
