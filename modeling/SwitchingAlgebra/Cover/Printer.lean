import SwitchingAlgebra.Cover.Basic

/-!
# Written forms of cubes and covers

The columns are named by letters, `a` to `z` and then `ba`, `bb` and so on. A cube is written as the
names of its columns with literals, an apostrophe after those that are false, and the cube that asks
for nothing as `1`. A cover is the sum of its cubes; in each column those that ask for true come
first, then those that ask for false.
-/

set_option autoImplicit false
set_option relaxedAutoImplicit false

namespace SwitchingAlgebra

/-- The letter with a number below 26. -/
def letter (index : Nat) : Char :=
  Char.ofNat ('a'.toNat + index)

/-- The name of a column: its index in base 26 with letters for digits. -/
def columnName (index : Nat) : String :=
  if index < 26 then String.singleton (letter index)
  else columnName (index / 26) ++ String.singleton (letter (index % 26))
termination_by index

/-- What a column asks for, written with its name. -/
def columnText (column : Column) (index : Nat) : String :=
  match column with
  | some true => columnName index
  | some false => columnName index ++ "'"
  | none => ""

/-- The literals of a cube one after the other. -/
def Cube.text (c : Cube) : String :=
  if c.isWhole then "1"
  else String.join ((c.columns.zip (List.range c.width)).map fun (column, index) =>
    columnText column index)

namespace Cover

/-- The place of a column in the written order: true, false, free. -/
def writtenRank (column : Column) : Nat :=
  match column with
  | some true => 0
  | some false => 1
  | none => 2

/-- The cubes in the order in which they are written. -/
def writtenCubes (f : Cover) : List Cube :=
  f.cubes.mergeSort fun c d =>
    (compare (c.columns.map writtenRank) (d.columns.map writtenRank)).isLE

/-- The sum of the cubes. -/
def text (f : Cover) : String :=
  if f.cubes.isEmpty then "(none)"
  else " + ".intercalate (f.writtenCubes.map Cube.text)

/-- The sum of the cubes, marked as a cover. -/
def functionalText (f : Cover) : String :=
  "Cover(" ++ f.text ++ ")"

end Cover

end SwitchingAlgebra
