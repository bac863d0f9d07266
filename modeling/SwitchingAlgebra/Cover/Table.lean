import SwitchingAlgebra.Cube
import SwitchingAlgebra.Sorting

/-!
# Covering tables

To choose among cubes so that all their points stay covered, it is enough to know which cubes hold
each point. The covering table keeps every such set once, as an increasing list of the
positions of the cubes, together with the number of literals of each cube.
-/

set_option autoImplicit false
set_option relaxedAutoImplicit false

namespace SwitchingAlgebra

/-- A choice problem: from every row some position has to be chosen, at the cost of each position.
-/
structure CoveringTable where
  /-- The positions that satisfy each demand, in increasing order. -/
  rows : List (List Nat)
  /-- The cost of each position, a machine word. -/
  costs : Array UInt64
  deriving DecidableEq, Repr

namespace CoveringTable

/-- The most columns with literals for which all points are looked at. -/
def maxColumns : Nat := 16

/-- Numbered cubes, of which the columns from some point on are left to look at. -/
abbrev Candidates := List (Nat × List Column)

/-- The candidates that hold points with the given value in the next column. -/
def taking (value : Bool) (candidates : Candidates) : Candidates :=
  candidates.filterMap fun (index, columns) =>
    if (columns.headD none).accepts value || (columns.headD none).isNone then
      some (index, columns.tail)
    else none

/-- No candidate asks for a value in the next column. -/
def isFree (candidates : Candidates) : Bool :=
  candidates.all fun (_, columns) => (columns.headD none).isNone

/-- The numbers of the candidates that hold each point of the next columns, for all points that some
candidate holds. -/
def incidences : Nat → Candidates → List (List Nat)
  | 0, candidates => if candidates.isEmpty then [] else [candidates.map (·.1)]
  | columns + 1, candidates =>
    if candidates.isEmpty then []
    else if isFree candidates then incidences columns (taking true candidates)
    else incidences columns (taking false candidates) ++ incidences columns (taking true candidates)

/-- The columns in which some cube of a list has a literal. -/
def literalColumns (width : Nat) (cubes : List Cube) : List Nat :=
  (List.range width).filter fun column => cubes.any fun c => (c.column column).isSome

/-- The table of a list of cubes over a number of columns, if few enough columns have literals to
look at all points. -/
def ofCubes? (width : Nat) (cubes : List Cube) : Option CoveringTable :=
  if (literalColumns width cubes).length ≤ maxColumns then
    some {
      rows := sortDistinct compare
        (incidences width ((List.range cubes.length).zip (cubes.map Cube.columns)))
      costs := (cubes.map fun c => .ofNat c.literalCount).toArray }
  else none

end CoveringTable

end SwitchingAlgebra
