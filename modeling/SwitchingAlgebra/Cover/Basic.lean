import SwitchingAlgebra.Cube
import SwitchingAlgebra.Sorting

/-!
# Covers

A cover is a finite set of cubes over a number of columns, kept in increasing order. Its points are
the points of its cubes: read as products, it is a sum of products, and read as clauses, a product
of clauses.

Main statements: the operations keep exactly the cubes that their descriptions name.
-/

set_option autoImplicit false
set_option relaxedAutoImplicit false

namespace SwitchingAlgebra

/-- A set of cubes over a number of columns. -/
structure Cover where
  /-- The number of columns. -/
  width : Nat
  /-- The cubes. -/
  cubes : List Cube
  /-- The cubes stand in increasing order, each once. -/
  increasing : cubes.Pairwise (fun c d => compare c d = .lt)
  deriving DecidableEq

namespace Cover

/-- The cover of the cubes of a list. -/
def ofList (width : Nat) (cubes : List Cube) : Cover :=
  ⟨width, sortDistinct compare cubes, pairwise_sortDistinct cubes⟩

instance : Inhabited Cover := ⟨ofList 0 []⟩

/-- The cover of the cubes that pass a test. -/
def filter (f : Cover) (keep : Cube → Bool) : Cover :=
  ⟨f.width, f.cubes.filter keep, f.increasing.filter keep⟩

/-- Every cube has the width of the cover. -/
def WellFormed (f : Cover) : Prop :=
  ∀ c ∈ f.cubes, c.width = f.width

/-- The point lies in some cube. -/
def contains (f : Cover) (point : List Bool) : Bool :=
  f.cubes.any fun c => c.contains point

/-- The total number of literals of the cubes. -/
def literalCount (f : Cover) : Nat :=
  f.cubes.foldr (fun c literals => c.literalCount + literals) 0

/-- Some cube asks for nothing. -/
def containsWhole (f : Cover) : Bool :=
  f.cubes.any Cube.isWhole

/-! ### Operations -/

/-- The cover within the subspace of a cube. -/
def cofactor (f : Cover) (p : Cube) : Cover :=
  ofList f.width (f.cubes.filterMap fun c => c.cofactor? p)

/-- The cover with one cube removed. -/
def without (f : Cover) (c : Cube) : Cover :=
  f.filter (· != c)

/-- The cubes of both covers. -/
def union (f g : Cover) : Cover :=
  ofList f.width (f.cubes ++ g.cubes)

/-- The cubes that no other cube strictly contains. -/
def maximal (f : Cover) : Cover :=
  f.filter fun c => !f.cubes.any fun d => d.strictlyContains c

/-- All that a cube of the one cover and a cube of the other imply together. -/
def consensus (f g : Cover) : Cover :=
  ofList f.width (f.cubes.flatMap fun c => g.cubes.filterMap fun d => c.consensus? d)

/-- The cover where a column has a value. -/
def half (f : Cover) (column : Nat) (value : Bool) : Cover :=
  f.cofactor (Cube.halfSpace f.width column value)

/-- Both halves of a cover in a column, first where it is true, if there is such a column. -/
def shannon? (f : Cover) (column : Nat) : Option (Cover × Cover) :=
  if column < f.width then some (f.half column true, f.half column false) else none

/-! ### Columns -/

/-- The number of cubes that ask for a value in a column. -/
def literalsIn (f : Cover) (column : Nat) (value : Bool) : Nat :=
  f.cubes.countP fun c => c.column column == some value

/-- Both values are asked for in the column. -/
def isBinate (f : Cover) (column : Nat) : Bool :=
  f.literalsIn column true != 0 && f.literalsIn column false != 0

/-- The first of the numbers with the greatest weight. -/
def heaviest? (weight : Nat → Nat) : List Nat → Option Nat
  | [] => none
  | n :: rest =>
    match heaviest? weight rest with
    | none => some n
    | some m => if weight n < weight m then some m else some n

/-- The column in which both values are asked for that has the most literals; of several the first.
There is none if in every column one value at most is asked for. -/
def splitColumn? (f : Cover) : Option Nat :=
  heaviest? (fun column => f.literalsIn column true + f.literalsIn column false)
    ((List.range f.width).filter f.isBinate)

/-! ### Membership -/

theorem mem_ofList {width : Nat} {cubes : List Cube} {c : Cube} :
    c ∈ (ofList width cubes).cubes ↔ c ∈ cubes :=
  mem_sortDistinct

@[simp]
theorem width_ofList (width : Nat) (cubes : List Cube) : (ofList width cubes).width = width := rfl

theorem mem_filter {f : Cover} {keep : Cube → Bool} {c : Cube} :
    c ∈ (f.filter keep).cubes ↔ c ∈ f.cubes ∧ keep c = true := by
  simp [filter]

theorem mem_cofactor {f : Cover} {p c : Cube} :
    c ∈ (f.cofactor p).cubes ↔ ∃ d ∈ f.cubes, d.cofactor? p = some c := by
  simp [cofactor, mem_ofList]

theorem mem_without {f : Cover} {c d : Cube} :
    d ∈ (f.without c).cubes ↔ d ∈ f.cubes ∧ d ≠ c := by
  simp [without, mem_filter]

theorem mem_union {f g : Cover} {c : Cube} :
    c ∈ (f.union g).cubes ↔ c ∈ f.cubes ∨ c ∈ g.cubes := by
  simp [union, mem_ofList]

theorem mem_maximal {f : Cover} {c : Cube} :
    c ∈ f.maximal.cubes ↔ c ∈ f.cubes ∧ ∀ d ∈ f.cubes, d.strictlyContains c = false := by
  simp [maximal, mem_filter]

theorem mem_consensus {f g : Cover} {c : Cube} :
    c ∈ (f.consensus g).cubes ↔ ∃ d ∈ f.cubes, ∃ e ∈ g.cubes, d.consensus? e = some c := by
  simp [consensus, mem_ofList]

end Cover

end SwitchingAlgebra
