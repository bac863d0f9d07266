import SwitchingAlgebra.Cover.Primes
import SwitchingAlgebra.Cover.Search

/-!
# Minimum covers

A minimum cover of the points of a cover has as few cubes as possible and, with that number, as few
literals as possible. It is chosen from the primes. Where more columns have literals than all points
can be looked at for, the primes are only thinned out until none can be left out.
-/

set_option autoImplicit false
set_option relaxedAutoImplicit false

namespace SwitchingAlgebra.Cover

/-- The cubes at the given positions. -/
def select (f : Cover) (positions : List Nat) : Cover :=
  ofList f.width (positions.filterMap fun position => f.cubes[position]?)

/-- A minimum cover of the points of a cover, or for wide covers an irredundant one. -/
def minimum (f : Cover) : Cover :=
  let primes := f.primes
  if primes.containsWhole then ofList f.width [Cube.whole f.width]
  else
    match CoveringTable.ofCubes? primes.width primes.cubes with
    | some table => primes.select table.solve
    | none => primes.irredundant

end SwitchingAlgebra.Cover
