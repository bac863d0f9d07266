import Mathlib
import SwitchingAlgebra.Proofs.Primes

/-!
# Operations on cubes and their points

Two cubes of one width have a common point unless they ask for opposite values in some column, and
their intersection is then the cube of the common points. The distance counts the columns in which
they ask for opposite values. At distance one their points touch along a single column: a cube
within the union of their points either asks for a value in this column, and lies within the cube
that asks for the same one, or leaves it free, and then lies within their consensus.

Main statement: every operation on two cubes of one width is exact on their points
(`operations_exact_on_points`).
-/

set_option autoImplicit false
set_option relaxedAutoImplicit false

namespace SwitchingAlgebra

theorem Column.meet?_comm (c d : Column) : c.meet? d = d.meet? c := by
  rcases c with _ | _ | _ <;> rcases d with _ | _ | _ <;> rfl

namespace Cube

/-! ### Symmetry -/

theorem conflicts_comm (cs : List Column) :
    ∀ ds : List Column, conflicts cs ds = conflicts ds cs := by
  induction cs with
  | nil => intro ds; cases ds <;> rfl
  | cons c cs ih =>
    intro ds
    cases ds with
    | nil => rfl
    | cons d ds => rw [conflicts, conflicts, ih, Column.meet?_comm]

theorem meetDropping_comm (cs : List Column) :
    ∀ ds : List Column, meetDropping cs ds = meetDropping ds cs := by
  induction cs with
  | nil => intro ds; cases ds <;> rfl
  | cons c cs ih =>
    intro ds
    cases ds with
    | nil => rfl
    | cons d ds => rw [meetDropping, meetDropping, ih, Column.meet?_comm]

theorem distance_comm (a b : Cube) : a.distance b = b.distance a :=
  conflicts_comm a.columns b.columns

theorem consensus?_comm (a b : Cube) : a.consensus? b = b.consensus? a := by
  rw [consensus?_eq, consensus?_eq, distance_comm, meetDropping_comm]

theorem intersection?_eq (a b : Cube) : a.intersection? b =
    if a.distance b = 0 then some ⟨meetDropping a.columns b.columns⟩ else none := by
  rw [intersection?, meetAll?_eq, distance]
  split <;> rfl

theorem intersection?_comm (a b : Cube) : a.intersection? b = b.intersection? a := by
  rw [intersection?_eq, intersection?_eq, distance_comm, meetDropping_comm]

/-! ### Columns with opposite values -/

/-- The columns in which two cubes ask for opposite values. -/
def opposedColumns (a b : Cube) : Finset Nat :=
  (Finset.range a.width).filter fun i ↦
    ∃ value, a.column i = some value ∧ b.column i = some (!value)

theorem conflicts_eq_count (cs : List Column) : ∀ ds : List Column,
    conflicts cs ds =
      Nat.count (fun i ↦ (cs.getD i none).meet? (ds.getD i none) = none) cs.length := by
  induction cs with
  | nil => intro ds; rfl
  | cons c cs ih =>
    intro ds
    cases ds with
    | nil => simp [conflicts, Nat.count_eq_card_filter_range]
    | cons d ds =>
      rw [conflicts, List.length_cons, Nat.count_succ', ih, Nat.add_comm]
      simp

/-- The distance is the number of columns with opposite values. -/
theorem distance_eq_card (a b : Cube) : a.distance b = (a.opposedColumns b).card := by
  rw [distance, conflicts_eq_count, Nat.count_eq_card_filter_range, opposedColumns]
  simp only [Column.meet?_eq_none_iff]
  rfl

theorem consensus?_eq_none_iff {a b : Cube} :
    a.consensus? b = none ↔ 2 ≤ (a.opposedColumns b).card := by
  rw [consensus?_eq, ← distance_eq_card]
  by_cases hnear : a.distance b ≤ 1
  · simp only [hnear, if_true, reduceCtorEq, false_iff]
    omega
  · simp only [hnear, if_false, true_iff]
    omega

section TwoCubes

variable {a b c e : Cube}

/-! ### Common points -/

/-- The points of an intersection are the common points. -/
theorem points_of_intersection? (hwidth : a.width = b.width)
    (hintersection : a.intersection? b = some c) : c.points = a.points ∩ b.points := by
  have hdistance : a.distance b = 0 := by
    by_contra hdistance
    rw [intersection?_eq, if_neg hdistance] at hintersection
    cases hintersection
  have hconsensus : a.consensus? b = some c := by
    rw [consensus?, hdistance]
    exact hintersection
  have haccepts : ∀ (i : Nat) (value : Bool), (c.column i).accepts value = true ↔
      (a.column i).accepts value = true ∧ (b.column i).accepts value = true := by
    intro i value
    rw [accepts_column_of_consensus? hwidth hconsensus (conflicts_eq_zero_iff.mp hdistance i),
      Bool.and_eq_true]
  ext point
  simp only [Set.mem_inter_iff, mem_points_iff, width_of_consensus? hwidth hconsensus, haccepts,
    forall_and, ← hwidth]
  tauto

theorem intersection?_eq_none_iff (hwidth : a.width = b.width) :
    a.intersection? b = none ↔ a.points ∩ b.points = ∅ := by
  constructor
  · intro hnone
    have hdistance : a.distance b ≠ 0 := by
      intro hdistance
      rw [intersection?_eq, if_pos hdistance] at hnone
      cases hnone
    obtain ⟨i, hi⟩ := exists_conflict_of_distance_ne_zero hdistance
    exact Set.disjoint_iff_inter_eq_empty.mp (disjoint_points_of_conflict hi)
  · intro hempty
    rcases hintersection : a.intersection? b with _ | c
    · rfl
    · have hcorner := c.corner_mem fun _ ↦ false
      rw [points_of_intersection? hwidth hintersection, hempty] at hcorner
      exact absurd hcorner (Set.notMem_empty _)

/-- A cube is the intersection of two cubes exactly when its points are the common points. -/
theorem intersection?_eq_some_iff (hwidth : a.width = b.width) :
    a.intersection? b = some c ↔ c.points = a.points ∩ b.points := by
  refine ⟨points_of_intersection? hwidth, fun hpoints ↦ ?_⟩
  have hcorner := c.corner_mem fun _ ↦ false
  rcases hintersection : a.intersection? b with _ | d
  · rw [hpoints, (intersection?_eq_none_iff hwidth).mp hintersection] at hcorner
    exact absurd hcorner (Set.notMem_empty _)
  · have hsame : d.points = c.points :=
      (points_of_intersection? hwidth hintersection).trans hpoints.symm
    have hcornerd := hsame ▸ hcorner
    exact congrArg some (eq_of_points_eq (hcornerd.1.symm.trans hcorner.1) hsame)

/-! ### Cubes at distance one -/

/-- Within the union of two cubes, a cube that asks for what the second does not allow in some
column lies within the first. -/
theorem points_subset_of_conflict {k : Nat} (hsubset : c.points ⊆ a.points ∪ b.points)
    (hconflict : (c.column k).meet? (b.column k) = none) : c.points ⊆ a.points :=
  Disjoint.subset_left_of_subset_union hsubset (disjoint_points_of_conflict hconflict)

/-- A cube within the union of two cubes that conflict in a column lies within one of them if it
asks for a value there, and within their consensus if it does not. -/
theorem points_subset_of_subset_union {k : Nat} (hwidth : a.width = b.width)
    (hc : c.width = a.width) (hconsensus : a.consensus? b = some e)
    (hconflict : (a.column k).meet? (b.column k) = none)
    (hsubset : c.points ⊆ a.points ∪ b.points) :
    c.points ⊆ a.points ∨ c.points ⊆ b.points ∨ c.points ⊆ e.points := by
  obtain ⟨value, ha, hb⟩ := Column.meet?_eq_none_iff.mp hconflict
  have hleft : ∀ {d : Cube}, d.points ⊆ c.points → d.column k = some value →
      d.points ⊆ a.points := fun hdc hd ↦
    points_subset_of_conflict (hdc.trans hsubset) (by rw [hd, ← ha, hconflict])
  have hright : ∀ {d : Cube}, d.points ⊆ c.points → d.column k = some (!value) →
      d.points ⊆ b.points := fun hdc hd ↦
    points_subset_of_conflict (hdc.trans (Set.union_comm _ _ ▸ hsubset))
      (by rw [hd, ← hb, Column.meet?_comm, hconflict])
  rcases hck : c.column k with _ | other
  · have hk : k < c.width := by
      by_contra hk
      rw [column_eq_none (by omega)] at ha
      cases ha
    -- Both halves of the cube lie within one of the two cubes each.
    have hhalfa := hleft (points_fix_subset hck value) (column_fix_self hk value)
    have hhalfb := hright (points_fix_subset hck !value) (column_fix_self hk !value)
    obtain ⟨both, hboth, hwithin⟩ := exists_consensus?_of_allows hwidth hc hck hconflict
      (Cover.allows_of_points_fix_subset hc hk hhalfa).2
      (Cover.allows_of_points_fix_subset (hc.trans hwidth) hk hhalfb).2
    obtain rfl : both = e := Option.some.inj (hboth.symm.trans hconsensus)
    exact .inr (.inr hwithin)
  · by_cases hvalue : other = value
    · exact .inl (hleft subset_rfl (hvalue ▸ hck))
    · exact .inr (.inl (hright subset_rfl (Bool.eq_not_of_ne hvalue ▸ hck)))

/-- Two cubes at distance one have a consensus, and it is the largest cube within their union that
lies within neither of them. -/
theorem exists_consensus?_of_distance_eq_one (hwidth : a.width = b.width)
    (hdistance : a.distance b = 1) : ∃ e, a.consensus? b = some e ∧ e.width = a.width ∧
      e.points ⊆ a.points ∪ b.points ∧
        ∀ c : Cube, c.width = a.width → c.points ⊆ a.points ∪ b.points →
          c.points ⊆ a.points ∨ c.points ⊆ b.points ∨ c.points ⊆ e.points := by
  have hconsensus := (consensus?_eq a b).trans (if_pos hdistance.le)
  obtain ⟨k, hk⟩ := exists_conflict_of_distance_ne_zero (by omega : a.distance b ≠ 0)
  exact ⟨_, hconsensus, width_of_consensus? hwidth hconsensus,
    fun _ hpoint ↦ mem_points_of_consensus? hwidth hconsensus hpoint,
    fun _ hc hsubset ↦ points_subset_of_subset_union hwidth hc hconsensus hk hsubset⟩

/-! ### All operations -/

/-- One cube strictly contains another when the points of the other are a proper part of its own.
The intersection is the cube of the common points, and there is none just when there are no such
points. The distance is the number of columns with opposite values, and there is a consensus unless
these are two or more. At distance one the consensus lies within the union of the two cubes, and
every cube that does so as well lies within one of the two or within the consensus. Distance,
consensus and intersection are the same in either order. -/
theorem operations_exact_on_points (hwidth : a.width = b.width) :
    (a.strictlyContains b = true ↔ b.points ⊂ a.points) ∧
      (∀ c, a.intersection? b = some c ↔ c.points = a.points ∩ b.points) ∧
      (a.intersection? b = none ↔ a.points ∩ b.points = ∅) ∧
      a.distance b = (a.opposedColumns b).card ∧
      (a.consensus? b = none ↔ 2 ≤ (a.opposedColumns b).card) ∧
      (a.distance b = 1 → ∃ e, a.consensus? b = some e ∧ e.width = a.width ∧
        e.points ⊆ a.points ∪ b.points ∧
          ∀ c : Cube, c.width = a.width → c.points ⊆ a.points ∪ b.points →
            c.points ⊆ a.points ∨ c.points ⊆ b.points ∨ c.points ⊆ e.points) ∧
      a.distance b = b.distance a ∧ a.consensus? b = b.consensus? a ∧
        a.intersection? b = b.intersection? a :=
  ⟨strictlyContains_iff hwidth.symm, fun _ ↦ intersection?_eq_some_iff hwidth,
    intersection?_eq_none_iff hwidth, distance_eq_card a b, consensus?_eq_none_iff,
    exists_consensus?_of_distance_eq_one hwidth, distance_comm a b, consensus?_comm a b,
    intersection?_comm a b⟩

end TwoCubes

/-- The product of the first two of three columns. -/
def firstProduct : Cube :=
  ⟨[some true, some true, none]⟩

/-- The product of the first column, the negated second and the third. -/
def secondProduct : Cube :=
  ⟨[some true, some false, some true]⟩

/-- The two products have no common point, and they imply the product of the first and the third
column together. A product within their union lies within one of the two or within this one. -/
theorem operations_exact_on_products : firstProduct.width = secondProduct.width ∧
    firstProduct.distance secondProduct = 1 ∧
      firstProduct.points ∩ secondProduct.points = ∅ ∧
        ∀ c : Cube, c.width = 3 → c.points ⊆ firstProduct.points ∪ secondProduct.points →
          c.points ⊆ firstProduct.points ∨ c.points ⊆ secondProduct.points ∨
            c.points ⊆ Cube.points ⟨[some true, none, some true]⟩ := by
  have hwidth : firstProduct.width = secondProduct.width := rfl
  have hdistance : firstProduct.distance secondProduct = 1 := by decide
  have hconsensus : firstProduct.consensus? secondProduct =
      some ⟨[some true, none, some true]⟩ := by decide
  obtain ⟨-, -, hdisjoint, -, -, hnear, -⟩ := operations_exact_on_points hwidth
  obtain ⟨e, he, -, -, hlargest⟩ := hnear hdistance
  obtain rfl := Option.some.inj (he.symm.trans hconsensus)
  exact ⟨hwidth, hdistance, hdisjoint.mp (by decide), hlargest⟩

end Cube

end SwitchingAlgebra
