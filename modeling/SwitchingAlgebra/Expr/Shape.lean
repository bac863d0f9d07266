import SwitchingAlgebra.Expr.Basic
import SwitchingAlgebra.Sorting

/-!
# The canonical order on expressions

The order of the operands of a join carries no meaning, and neither do the marks of its nodes. The
shape of an expression forgets both: the operands of every join are sorted, and a run of leading
negations is kept as its length. Two expressions are equal when their shapes are, and they are
ordered and hashed by their shapes.

Shapes are ordered by what their negations are applied to: constants come first, then symbols, then
AND, then OR. Joins of one connective compare by the number of their operands, then operand by
operand. The number of leading negations decides last, so that a symbol comes directly before its
negation.
-/

set_option autoImplicit false
set_option relaxedAutoImplicit false

namespace SwitchingAlgebra

/-- An expression up to the order of operands and the marks of nodes. -/
inductive Shape where
  /-- A constant under a number of negations. -/
  | truth (value : Bool) (negations : Nat)
  /-- A symbol under a number of negations. -/
  | symbol (name : Symbol) (negations : Nat)
  /-- A join under a number of negations. -/
  | join (op : Connective) (operands : List Shape) (negations : Nat)
  deriving Inhabited, Repr

/-- One value of the sequence that an expression is hashed by. -/
inductive HashWord where
  /-- A number of negations or of operands. -/
  | count (n : Nat)
  /-- A constant. -/
  | truth (value : Bool)
  /-- A symbol. -/
  | symbol (name : Symbol)
  /-- The connective of a join. -/
  | connective (op : Connective)
  deriving DecidableEq, Hashable

namespace Shape

/-- The shape of the negation. -/
def negate : Shape → Shape
  | truth value n => truth value (n + 1)
  | symbol name n => symbol name (n + 1)
  | join op operands n => join op operands (n + 1)

mutual

/-- The canonical order on shapes. -/
def order : Shape → Shape → Ordering
  | truth x m, truth y n => (compare x y).then (compare m n)
  | truth _ _, _ => .lt
  | _, truth _ _ => .gt
  | symbol x m, symbol y n => (compare x y).then (compare m n)
  | symbol _ _, _ => .lt
  | _, symbol _ _ => .gt
  | join p xs m, join q ys n =>
    (compare p q).then
      ((compare xs.length ys.length).then ((orderAll xs ys).then (compare m n)))

/-- The lexicographic order on lists of shapes. -/
def orderAll : List Shape → List Shape → Ordering
  | [], [] => .eq
  | [], _ :: _ => .lt
  | _ :: _, [] => .gt
  | x :: xs, y :: ys => (order x y).then (orderAll xs ys)

end

instance : Ord Shape := ⟨order⟩

mutual

/-- The sequence of values that a shape is hashed by: the number of negations, then what they are
applied to. -/
def hashWords : Shape → List HashWord
  | truth value n => [.count n, .truth value]
  | symbol name n => [.count n, .symbol name]
  | join op operands n =>
    .count n :: .connective op :: .count operands.length :: hashWordsAll operands

/-- The sequences of a list of shapes, one after the other. -/
def hashWordsAll : List Shape → List HashWord
  | [] => []
  | x :: rest => x.hashWords ++ hashWordsAll rest

end

end Shape

namespace Expr

mutual

/-- The shape of an expression. -/
def shape : Expr → Shape
  | truth value => .truth value 0
  | symbol name => .symbol name 0
  | not _ operand => operand.shape.negate
  | join _ op operands => .join op ((shapes operands).mergeSort fun x y => (compare x y).isLE) 0

/-- The shapes of a list of expressions. -/
def shapes : List Expr → List Shape
  | [] => []
  | e :: rest => e.shape :: shapes rest

end

/-- Expressions are ordered by their shapes. -/
instance : Ord Expr := ⟨fun x y => compare x.shape y.shape⟩

/-- Expressions are equal when they differ in the order of operands and in marks alone. -/
instance : BEq Expr := ⟨fun x y => compare x y == .eq⟩

/-- The sequence of values that an expression is hashed by. -/
def hashWords (e : Expr) : List HashWord :=
  e.shape.hashWords

instance : Hashable Expr := ⟨fun e => hash e.hashWords⟩

/-- The distinct expressions of a list in canonical order. Of equal ones the first stays. -/
def distinct (es : List Expr) : List Expr :=
  sortDistinct compare es

/-- The distinct expressions of a list in canonical order. Of equal ones the last stays. -/
def latestDistinct (es : List Expr) : List Expr :=
  distinct es.reverse

end Expr

end SwitchingAlgebra
