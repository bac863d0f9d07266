import SwitchingAlgebra.Cover.Tautology

/-!
# Prime implicants

A prime of a cover is a cube within its points that no larger such cube contains. The primes are
found by iterated consensus: what two cubes imply together is added, and cubes within larger ones
are dropped, until nothing changes. They depend on the points of the cover alone.
-/

set_option autoImplicit false
set_option relaxedAutoImplicit false

namespace SwitchingAlgebra.Cover

/-- One round of consensus: what two cubes of the cover imply together is added, and cubes within
larger ones are dropped. -/
def consensusRound (f : Cover) : Cover :=
  (f.union (f.consensus f)).maximal

/-- At most `rounds` rounds of consensus, ending with the first that changes nothing. -/
def consensusRounds : Nat → Cover → Cover
  | 0, f => f
  | rounds + 1, f =>
    let next := f.consensusRound
    if next = f then f else consensusRounds rounds next

/-- All primes of a cover. Each round that changes the cover brings in a cube that no cube of the
cover contained, so there are at most as many rounds as cubes of the width. -/
def primes (f : Cover) : Cover :=
  consensusRounds (Nat.pow 3 f.width) f.maximal

/-- The cover without the cubes that the others cover, tried in turn. -/
def dropCovered : List Cube → Cover → Cover
  | [], f => f
  | c :: rest, f =>
    let others := f.without c
    dropCovered rest (if others.covers c then others else f)

/-- A part of the cover with the same points from which no cube can be left out. The last cubes are
tried first. -/
def irredundant (f : Cover) : Cover :=
  dropCovered f.cubes.reverse f

end SwitchingAlgebra.Cover
