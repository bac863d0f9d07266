import SwitchingAlgebra.Cover.Table

/-!
# Covering tables from machine words

A row of values of the columns in which some cube has a literal is a word with one bit for each of
these columns, the first in the lowest bit. A cube becomes two such words: the columns in which it
asks for a value, and those in which it asks for true.

The rows of a cube are counted down from the largest: subtracting one from a part of the free
columns and keeping only free columns gives the next smaller part.
-/

set_option autoImplicit false
set_option relaxedAutoImplicit false

namespace SwitchingAlgebra

/-- A row of values, one bit for each column with a literal. -/
abbrev Word := BitVec 32

namespace Word

/-- The parts of some free columns that can be counted down to from one of them. -/
def partsFrom (free part : Word) : List Word :=
  if part = 0 then [0] else part :: partsFrom free ((part - 1) &&& free)
termination_by part.toNat
decreasing_by
  rw [BitVec.toNat_and]
  exact Nat.lt_of_le_of_lt Nat.and_le_left (by bv_omega)

/-- The word of a number of columns. -/
def firstColumns (count : Nat) : Word :=
  (1 : Word) <<< count - 1

end Word

/-- A cube over the columns with literals. -/
structure PackedCube where
  /-- The columns in which the cube asks for a value. -/
  mask : Word
  /-- The columns in which it asks for true. -/
  value : Word
  deriving DecidableEq, Repr

namespace PackedCube

/-- A cube that asks for something in one more column. -/
def fix (packed : PackedCube) (bit : Nat) : Column → PackedCube
  | none => packed
  | some value =>
    ⟨packed.mask ||| (1 : Word) <<< bit, packed.value ||| (if value then 1 else 0 : Word) <<< bit⟩

/-- A packed cube with what a cube asks for in further columns, from a bit on. -/
def fixAll (c : Cube) (packed : PackedCube) (bit : Nat) : List Nat → PackedCube
  | [] => packed
  | column :: rest => fixAll c (packed.fix bit (c.column column)) (bit + 1) rest

/-- The cube over some of its columns. -/
def ofCube (columns : List Nat) (c : Cube) : PackedCube :=
  fixAll c ⟨0, 0⟩ 0 columns

/-- A row of values has what the cube asks for. -/
def contains (packed : PackedCube) (row : Word) : Bool :=
  row &&& packed.mask == packed.value

/-- The rows of a cube over the given columns, the largest first. -/
def rows (packed : PackedCube) (columns : Word) : List Word :=
  let free := columns &&& ~~~packed.mask
  (Word.partsFrom free free).map (packed.value ||| ·)

end PackedCube

namespace CoveringTable

/-- The positions of the packed cubes that contain a row of values. -/
def packedHolders (packed : List PackedCube) (row : Word) : List Nat :=
  (((List.range packed.length).zip packed).filter fun (_, p) => p.contains row).map (·.1)

/-- The table of a list of cubes as wide as the first of them, from the rows of the packed cubes. -/
def ofPackedCubes? (cubes : List Cube) : Option CoveringTable :=
  let columns := literalColumns ((cubes.head?.map Cube.width).getD 0) cubes
  if columns.length ≤ maxColumns then
    let packed := cubes.map (PackedCube.ofCube columns)
    let words := sortDistinct compare
      (packed.flatMap (PackedCube.rows · (Word.firstColumns columns.length)))
    some {
      rows := sortDistinct compare (words.map (packedHolders packed))
      costs := (cubes.map fun c => .ofNat c.literalCount).toArray }
  else none

end CoveringTable

end SwitchingAlgebra
