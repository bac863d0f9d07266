import SwitchingAlgebra.Cover.Basic

/-!
# Tautology and coverage

Whether a cover holds every point is decided by splitting it in a column in which both values are
asked for, until every cover left is empty, holds the cube that asks for nothing, or asks for one
value at most in each column. In the last case the point that has the other value everywhere lies in
none of its cubes.
-/

set_option autoImplicit false
set_option relaxedAutoImplicit false

namespace SwitchingAlgebra.Cover

/-- The test for all points with at most `splits` splits in a row. -/
def isTautologyWithin (splits : Nat) (f : Cover) : Bool :=
  if f.cubes.isEmpty then false
  else if f.containsWhole then true
  else
    match splits, f.splitColumn? with
    | splits + 1, some column =>
      (f.half column true).isTautologyWithin splits &&
        (f.half column false).isTautologyWithin splits
    | _, _ => false

/-- The cover holds every point. A split leaves no literal in its column, so there are never more
splits in a row than columns. -/
def isTautology (f : Cover) : Bool :=
  f.isTautologyWithin f.width

/-- Every point of the cube lies in the cover. -/
def covers (f : Cover) (c : Cube) : Bool :=
  (f.cofactor c).isTautology

end SwitchingAlgebra.Cover
