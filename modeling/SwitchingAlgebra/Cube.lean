/-!
# Cubes

A cube over a number of columns asks for one value in some of them and leaves the others free. Read
as a product it is an AND of literals, read as a clause an OR of literals; the operations here are
the same for both readings. The points of a cube are the rows of truth values that have what it asks
for.

Operations on two cubes look at the columns that both have.
-/

set_option autoImplicit false
set_option relaxedAutoImplicit false

namespace SwitchingAlgebra

/-- What a cube asks for in one column: a value, or nothing. Free columns come first in the order,
then false, then true. -/
abbrev Column := Option Bool

namespace Column

/-- What two columns ask for together, if they do not ask for opposite values. -/
def meet? : Column → Column → Option Column
  | some x, some y => if x = y then some (some x) else none
  | some x, none => some (some x)
  | none, d => some d

/-- The first column asks for nothing that the second does not ask for. -/
def allows (c d : Column) : Bool :=
  c.isNone || c == d

/-- A value is what the column asks for. -/
def accepts (c : Column) (value : Bool) : Bool :=
  c.all (· == value)

end Column

/-- A row of columns, each free or fixed to a value. -/
structure Cube where
  /-- What each column asks for. -/
  columns : List Column
  deriving DecidableEq, Inhabited, Repr

namespace Cube

/-- Cubes compare column by column; a row that another row continues comes first. -/
instance : Ord Cube := ⟨fun c d => compare c.columns d.columns⟩

instance : Std.LawfulEqOrd Cube where
  compare_self {c} := @Std.ReflCmp.compare_self (List Column) compare _ c.columns
  eq_of_compare {c d} h := by
    cases c; cases d
    exact congrArg Cube.mk (Std.LawfulEqCmp.eq_of_compare h)

instance : Std.TransOrd Cube where
  eq_swap {c d} := @Std.OrientedCmp.eq_swap (List Column) compare _ c.columns d.columns
  isLE_trans {c d e} :=
    @Std.TransCmp.isLE_trans (List Column) compare _ c.columns d.columns e.columns

/-- The cube that asks for nothing. -/
def whole (width : Nat) : Cube :=
  ⟨List.replicate width none⟩

/-- The cube that asks for one value in one column. -/
def halfSpace (width column : Nat) (value : Bool) : Cube :=
  ⟨(List.replicate width none).set column (some value)⟩

/-- The half space of a column, if there is such a column. -/
def halfSpace? (width column : Nat) (value : Bool) : Option Cube :=
  if column < width then some (halfSpace width column value) else none

/-- The number of columns. -/
def width (c : Cube) : Nat :=
  c.columns.length

/-- The number of columns that ask for a value. -/
def literalCount (c : Cube) : Nat :=
  c.columns.countP Option.isSome

/-- The cube asks for nothing. -/
def isWhole (c : Cube) : Bool :=
  c.columns.all Option.isNone

/-- What the cube asks for in a column; columns it does not have are free. -/
def column (c : Cube) (index : Nat) : Column :=
  c.columns.getD index none

/-- A row of values has what the cube asks for. -/
def contains (c : Cube) (point : List Bool) : Bool :=
  (c.columns.zip point).all fun (column, value) => column.accepts value

/-! ### Comparing two cubes -/

/-- No column of the first list asks for what the second does not. -/
def allowsAll : List Column → List Column → Bool
  | c :: cs, d :: ds => c.allows d && allowsAll cs ds
  | _, _ => true

/-- Some column is free in the first list alone. -/
def freerSomewhere : List Column → List Column → Bool
  | c :: cs, d :: ds => (c.isNone && d.isSome) || freerSomewhere cs ds
  | _, _ => false

/-- The first cube holds all points of the second, and more. -/
def strictlyContains (c d : Cube) : Bool :=
  allowsAll c.columns d.columns && freerSomewhere c.columns d.columns

/-- The number of columns in which two lists ask for opposite values. -/
def conflicts : List Column → List Column → Nat
  | c :: cs, d :: ds => (if (c.meet? d).isNone then 1 else 0) + conflicts cs ds
  | _, _ => 0

/-- The number of columns in which two cubes ask for opposite values. -/
def distance (c d : Cube) : Nat :=
  conflicts c.columns d.columns

/-! ### Combining two cubes -/

/-- What two lists of columns ask for together. -/
def meetAll? : List Column → List Column → Option (List Column)
  | c :: cs, d :: ds =>
    match c.meet? d with
    | some column => (meetAll? cs ds).map (column :: ·)
    | none => none
  | _, _ => some []

/-- The cube of the common points, if there are any. -/
def intersection? (c d : Cube) : Option Cube :=
  (meetAll? c.columns d.columns).map Cube.mk

/-- What two lists of columns ask for together, with the columns in which they conflict free. -/
def meetDropping : List Column → List Column → List Column
  | c :: cs, d :: ds => (c.meet? d).getD none :: meetDropping cs ds
  | _, _ => []

/-- The cube that two cubes imply together: their intersection if they do not conflict, and if they
conflict in one column alone, what they ask for in the others. -/
def consensus? (c d : Cube) : Option Cube :=
  match c.distance d with
  | 0 => c.intersection? d
  | 1 => some ⟨meetDropping c.columns d.columns⟩
  | _ => none

/-- A list of columns restricted to the points of another: what the other asks for is granted and
need no longer be asked for. -/
def restrictAll? : List Column → List Column → Option (List Column)
  | c :: cs, p :: ps =>
    if (c.meet? p).isNone then none
    else (restrictAll? cs ps).map ((if p.isSome then none else c) :: ·)
  | _, _ => some []

/-- The cube within the subspace of `p`, if the two have a common point. -/
def cofactor? (c p : Cube) : Option Cube :=
  (restrictAll? c.columns p.columns).map Cube.mk

end Cube

end SwitchingAlgebra
