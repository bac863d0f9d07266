import SwitchingAlgebra.Cover.Table

/-!
# Branch and bound

A cheapest choice for a covering table has the fewest positions and, among those, the lowest total
cost. The search takes a row with the fewest positions and tries each of them, those first that
satisfy the most rows; it turns back where no completion can be cheaper than the best choice found.
A later choice replaces the best one only if it is cheaper.

Costs are added up in machine words: a sum of `2 ^ 64` or more loses its upper bits.
-/

set_option autoImplicit false
set_option relaxedAutoImplicit false

namespace SwitchingAlgebra

/-- What has been added up for a choice: the number of positions counts first, their total cost
second. -/
structure Tally where
  /-- The number of positions. -/
  count : Nat
  /-- Their total cost, as far as it fits in a word. -/
  total : UInt64
  deriving DecidableEq, Repr

/-- One tally is below another. -/
def Tally.isBelow (s t : Tally) : Bool :=
  s.count < t.count || (s.count == t.count && s.total < t.total)

/-- A choice of positions with its tally. -/
structure Selection where
  /-- The chosen positions, the latest first. -/
  positions : List Nat
  /-- What has been added up for them. -/
  tally : Tally
  deriving DecidableEq, Repr

namespace CoveringTable

/-- The cost of a position. -/
def cost (table : CoveringTable) (position : Nat) : UInt64 :=
  table.costs.getD position 0

/-- The choice of nothing. -/
def nothing : Selection :=
  ⟨[], ⟨0, 0⟩⟩

/-- A choice with one more position. -/
def extend (table : CoveringTable) (chosen : Selection) (position : Nat) : Selection :=
  ⟨position :: chosen.positions,
    ⟨chosen.tally.count + 1, chosen.tally.total + table.cost position⟩⟩

/-- The lowest cost of the positions of a row. -/
def cheapest (table : CoveringTable) (row : List Nat) : UInt64 :=
  ((row.map table.cost).min?).getD 0

/-- The tally after a position has been added for each of the rows that share no position with the
rows added for before. -/
def boundBy (table : CoveringTable) : List Nat → Tally → List (List Nat) → Tally
  | _, tally, [] => tally
  | used, tally, row :: rest =>
    if row.any used.contains then table.boundBy used tally rest
    else table.boundBy (row ++ used) ⟨tally.count + 1, tally.total + table.cheapest row⟩ rest

/-- No completion of a choice to one that satisfies the remaining rows costs less: rows that share
no position need a position each. Short rows are looked at first. -/
def lowerBound (table : CoveringTable) (chosen : Selection) (remaining : List (List Nat)) : Tally :=
  table.boundBy [] chosen.tally (remaining.mergeSort fun r s => r.length ≤ s.length)

/-- The first of the shortest rows. -/
def shortest : List Nat → List (List Nat) → List Nat
  | row, [] => row
  | row, other :: rest => shortest (if other.length < row.length then other else row) rest

/-- How early a position is tried: the more remaining rows it satisfies the earlier, then the lower
its cost, then the lower the position itself. -/
def urgency (table : CoveringTable) (remaining : List (List Nat)) (position : Nat) :
    Nat × UInt64 × Nat :=
  (remaining.countP fun row => !row.contains position, table.cost position, position)

/-- The order of urgency. -/
def urgencyOrder (u v : Nat × UInt64 × Nat) : Bool :=
  ((compare u.1 v.1).then ((compare u.2.1 v.2.1).then (compare u.2.2 v.2.2))).isLE

/-- The positions of a row in the order in which they are tried. -/
def branches (table : CoveringTable) (remaining : List (List Nat)) (row : List Nat) : List Nat :=
  ((row.map (table.urgency remaining)).mergeSort urgencyOrder).map (·.2.2)

/-- The search among the completions of a choice, with at most `depth` further positions. The result
is the best choice so far or a completion that is cheaper. -/
def search (table : CoveringTable) (depth : Nat) (chosen : Selection)
    (remaining : List (List Nat)) (best : Option Selection) : Option Selection :=
  match remaining with
  | [] => if best.all fun b => chosen.tally.isBelow b.tally then some chosen else best
  | first :: rest =>
    if best.any fun b => !(table.lowerBound chosen remaining).isBelow b.tally then best
    else
      match depth with
      | 0 => best
      | depth + 1 =>
        (table.branches remaining (shortest first rest)).foldl
          (fun best position =>
            table.search depth (table.extend chosen position)
              (remaining.filter fun row => !row.contains position) best)
          best

/-- The positions that the search ends with, in increasing order. Every position that is tried
satisfies one of the remaining rows, so no more positions are needed than there are rows. -/
def solve (table : CoveringTable) : List Nat :=
  match table.search table.rows.length nothing table.rows none with
  | some best => best.positions.mergeSort fun m n => m ≤ n
  | none => []

end CoveringTable

end SwitchingAlgebra
