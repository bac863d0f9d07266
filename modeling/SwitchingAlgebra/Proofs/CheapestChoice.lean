import Mathlib
import SwitchingAlgebra.Proofs.Search

/-!
# The cheapest choice of any covering table

In a table every row of which has a position, all positions together are a complete choice. So the
course of the search, which has one result, ends with a complete choice of the fewest positions. No
smaller part of it is complete: it repeats no position and has no position outside the rows.

It is a cheapest one as long as the costs of all positions together fit in a word. Otherwise the sum
for a dear choice may lose its upper bits and pass for a cheap one (`not_cheapest_overflowing`).

Main statement: `solve_optimal`.
-/

set_option autoImplicit false
set_option relaxedAutoImplicit false

namespace SwitchingAlgebra.CoveringTable

variable {table : CoveringTable} {positions : List Nat}

/-- Every row is a non-empty, strictly increasing list of positions that have a cost. -/
structure WellFormed (table : CoveringTable) : Prop where
  ne_nil : ∀ row ∈ table.rows, row ≠ []
  increasing : ∀ row ∈ table.rows, row.Pairwise (· < ·)
  lt_size : ∀ row ∈ table.rows, ∀ position ∈ row, position < table.costs.size

/-! ### The course of the search -/

/-- A search has one course. -/
theorem Course.unique {task : Task} {best after other : Option Selection}
    (hcourse : Course table task best after) (hother : Course table task best other) :
    other = after := by
  induction hcourse generalizing other with
  | cheaper hcheaper =>
    cases hother with
    | cheaper => rfl
    | dearer hdearer => simp [hcheaper] at hdearer
  | dearer hdearer =>
    cases hother with
    | cheaper hcheaper => simp [hcheaper] at hdearer
    | dearer => rfl
  | bounded hbound =>
    cases hother with
    | bounded => rfl
    | branched hunbound => simp [hbound] at hunbound
  | branched hunbound _ ih =>
    cases hother with
    | bounded hbound => simp [hbound] at hunbound
    | branched _ hbranches => exact ih hbranches
  | done =>
    cases hother
    rfl
  | tried _ _ ihposition ihothers =>
    cases hother with
    | tried hposition hothers =>
      rw [ihposition hposition] at hothers
      exact ihothers hothers

/-- The search of a table ends with a result, and with no other one. -/
theorem course_iff {result : Option Selection} :
    Course table (.visit nothing table.rows) none result ↔
      result = table.search table.rows.length nothing table.rows none := by
  have hcourse : Course table (.visit nothing table.rows) none _ :=
    course_search table.rows.length none le_rfl
  refine ⟨hcourse.unique, ?_⟩
  rintro rfl
  exact hcourse

/-! ### The result -/

/-- All positions of all rows together satisfy every row that has one. -/
theorem WellFormed.hits_flatten (htable : table.WellFormed) :
    Hits table.rows.flatten table.rows := by
  intro row hrow
  obtain ⟨position, hposition⟩ := List.exists_mem_of_ne_nil row (htable.ne_nil row hrow)
  exact ⟨position, List.mem_flatten.mpr ⟨row, hrow, hposition⟩, hposition⟩

theorem pairwise_le_solve (hhits : Hits positions table.rows) :
    table.solve.Pairwise (· ≤ ·) := by
  obtain ⟨best, hsearch, -, -⟩ := exists_search_eq_some hhits
  rw [solve_eq_mergeSort hsearch]
  exact List.pairwise_mergeSort' (· ≤ ·) best

/-- No part of the result but all of it is complete. -/
theorem eq_solve_of_sublist (hsublist : positions.Sublist table.solve)
    (hhits : Hits positions table.rows) : positions = table.solve :=
  hsublist.eq_of_length_le (length_solve_le hhits)

/-- The result repeats no position. -/
theorem nodup_solve (hhits : Hits table.solve table.rows) : table.solve.Nodup := by
  have hdedup : Hits table.solve.dedup table.rows := fun row hrow ↦ by
    simpa only [List.mem_dedup] using hhits row hrow
  exact List.dedup_eq_self.mp (eq_solve_of_sublist (List.dedup_sublist _) hdedup)

/-- Every position of the result satisfies some row. -/
theorem exists_row_of_mem_solve (hhits : Hits table.solve table.rows) {position : Nat}
    (hposition : position ∈ table.solve) : ∃ row ∈ table.rows, position ∈ row := by
  have hneeded : Hits (table.solve.filter fun position ↦ table.rows.any fun row ↦
      row.contains position) table.rows := by
    intro row hrow
    obtain ⟨other, hother, hin⟩ := hhits row hrow
    exact ⟨other, List.mem_filter.mpr ⟨hother, by simpa using ⟨row, hrow, hin⟩⟩, hin⟩
  rw [← eq_solve_of_sublist List.filter_sublist hneeded] at hposition
  simpa using (List.mem_filter.mp hposition).2

theorem lt_size_of_mem_solve (htable : table.WellFormed) {position : Nat}
    (hposition : position ∈ table.solve) : position < table.costs.size := by
  obtain ⟨row, hrow, hin⟩ := exists_row_of_mem_solve (solve_hits htable.hits_flatten) hposition
  exact htable.lt_size row hrow position hin

/-- The cost of the result fits in a word if the costs of all positions together do. -/
theorem totalCost_solve_le (htable : table.WellFormed) : table.totalCost table.solve ≤
    ∑ position ∈ Finset.range table.costs.size, (table.cost position).toNat := by
  have hnodup := nodup_solve (solve_hits htable.hits_flatten)
  rw [totalCost, ← List.sum_toFinset _ hnodup]
  refine Finset.sum_le_sum_of_subset fun position hposition ↦ ?_
  exact Finset.mem_range.mpr (lt_size_of_mem_solve htable (List.mem_toFinset.mp hposition))

/-- In every table whose rows are non-empty, increasing lists of positions with a cost, the search
comes to an end, and to one only. The positions of the best choice that it has found are put in
increasing order, none of them twice. They satisfy every row, and no set of positions that does so
has fewer positions. If the costs of all positions add up to less than `2 ^ 64`, no such set has as
many positions and a lower total cost. -/
theorem solve_optimal (htable : table.WellFormed) :
    (∃ best : Selection, table.solve = best.positions.mergeSort (fun m n ↦ m ≤ n) ∧
      ∀ result, Course table (.visit nothing table.rows) none result ↔ result = some best) ∧
    table.solve.Pairwise (· < ·) ∧
    (∀ position ∈ table.solve, position < table.costs.size) ∧
    (∀ row ∈ table.rows, ∃ position ∈ table.solve, position ∈ row) ∧
    (∀ selected : Finset Nat, (∀ row ∈ table.rows, ∃ position ∈ selected, position ∈ row) →
      table.solve.length ≤ selected.card) ∧
    (∑ position ∈ Finset.range table.costs.size, (table.cost position).toNat < 2 ^ 64 →
      ∀ selected : Finset Nat, (∀ row ∈ table.rows, ∃ position ∈ selected, position ∈ row) →
        table.solve.length < selected.card ∨ table.solve.length = selected.card ∧
          (table.solve.map fun position ↦ (table.cost position).toNat).sum ≤
            ∑ position ∈ selected, (table.cost position).toNat) := by
  have hhits : Hits table.solve table.rows := solve_hits htable.hits_flatten
  have htoList : ∀ selected : Finset Nat,
      (∀ row ∈ table.rows, ∃ position ∈ selected, position ∈ row) →
        Hits selected.toList table.rows := fun selected hselected row hrow ↦ by
    simpa only [Finset.mem_toList] using hselected row hrow
  refine ⟨?_, ?_, fun _ ↦ lt_size_of_mem_solve htable, hhits, fun selected hselected ↦ ?_,
    fun hfits selected hselected ↦ ?_⟩
  · obtain ⟨best, hsearch, -, -⟩ := exists_search_eq_some hhits
    exact ⟨_, solve_eq_mergeSort hsearch, fun result ↦ hsearch ▸ course_iff⟩
  · exact (pairwise_le_solve hhits).imp₂ (fun _ _ hle hne ↦ lt_of_le_of_ne hle hne)
      (nodup_solve hhits)
  · simpa only [Finset.length_toList] using length_solve_le (htoList selected hselected)
  · have hprice := Price.le_iff.mp
      (solve_price_le ((totalCost_solve_le htable).trans_lt hfits) (htoList selected hselected))
    simpa only [priceOf, totalCost, Finset.length_toList, Finset.sum_map_toList] using hprice

/-- Five rows in a circle: neighbours share a position. -/
def circle : CoveringTable where
  rows := [[0, 1], [0, 4], [1, 2], [2, 3], [3, 4]]
  costs := #[3, 1, 2, 2, 1]

/-- Any two positions leave a row of the circle, and three of them cost four at least. -/
theorem solve_optimal_circle : circle.WellFormed ∧ circle.solve = [1, 2, 4] ∧
    (∃ best : Selection, best.tally = ⟨3, 4⟩ ∧
      Course circle (.visit nothing circle.rows) none (some best)) ∧
    ∀ selected : Finset Nat, (∀ row ∈ circle.rows, ∃ position ∈ selected, position ∈ row) →
      3 < selected.card ∨
        3 = selected.card ∧ 4 ≤ ∑ position ∈ selected, (circle.cost position).toNat := by
  have hcircle : circle.WellFormed := ⟨by decide, by decide, by decide⟩
  have hsearch : circle.search circle.rows.length nothing circle.rows none =
      some ⟨[2, 4, 1], ⟨3, 4⟩⟩ := by cbv
  have hsolve : circle.solve = [1, 2, 4] := by cbv
  have hfits : ∑ position ∈ Finset.range circle.costs.size, (circle.cost position).toNat < 2 ^ 64 :=
    by decide
  obtain ⟨⟨best, -, hends⟩, -, -, -, -, hcheapest⟩ := solve_optimal hcircle
  have hcheapest := hcheapest hfits
  rw [hsolve] at hcheapest
  refine ⟨hcircle, hsolve, ⟨best, ?_, (hends _).mpr rfl⟩, hcheapest⟩
  have hbest := course_iff.mp ((hends _).mpr rfl)
  rw [hsearch] at hbest
  rw [Option.some.inj hbest]

/-- Two rows, the second of which has a position that costs almost as much as fits in a word. -/
def overflowing : CoveringTable where
  rows := [[0, 1], [2]]
  costs := #[1, 2, 0xfffffffffffffffe]

/-- The dearer position of the first row is chosen, since the sum with it is zero in a word. -/
theorem not_cheapest_overflowing : overflowing.WellFormed ∧ overflowing.solve = [1, 2] ∧
    (∀ row ∈ overflowing.rows, ∃ position ∈ ({0, 2} : Finset Nat), position ∈ row) ∧
    ({0, 2} : Finset Nat).card = overflowing.solve.length ∧
    ∑ position ∈ ({0, 2} : Finset Nat), (overflowing.cost position).toNat <
      (overflowing.solve.map fun position ↦ (overflowing.cost position).toNat).sum := by
  have hsolve : overflowing.solve = [1, 2] := by cbv
  refine ⟨⟨by decide, by decide, by decide⟩, hsolve, by decide, ?_, ?_⟩
  · rw [hsolve]
    rfl
  · rw [hsolve, Finset.sum_pair (by decide)]
    decide +kernel

end SwitchingAlgebra.CoveringTable
