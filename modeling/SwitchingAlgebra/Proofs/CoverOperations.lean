import Mathlib
import SwitchingAlgebra.Proofs.MinimumCover

/-!
# Operations on covers and their points

Within a subspace a cover has the points of its cofactor, and the cofactor asks for nothing that the
subspace asks for already. The half spaces of a column are two such subspaces, and every row lies in
one of them, so a cover is known from its two halves. Leaving out the cubes within larger ones takes
no point away, since each lies within one that is left, and consensus adds none.

Main statement: `operations_keep_points`.
-/

set_option autoImplicit false
set_option relaxedAutoImplicit false

namespace SwitchingAlgebra.Cover

variable {f g : Cover} {c d : Cube}

/-! ### Halves -/

/-- A row lies in a cover when it lies in the half for the value of the row in the column. -/
theorem mem_points_half (hf : f.WellFormed) {i : Nat} (hi : i < f.width) {point : List Bool}
    (hlength : point.length = f.width) {value : Bool} (hvalue : point.getD i false = value) :
    point ∈ f.points ↔ point ∈ (f.half i value).points :=
  (mem_points_cofactor hf (width_halfSpace _ _ _)
    ((mem_points_halfSpace hi).mpr ⟨hlength, hvalue⟩)).symm

theorem column_eq_none_of_mem_half (hf : f.WellFormed) {i : Nat} (hi : i < f.width) {value : Bool}
    (hc : c ∈ (f.half i value).cubes) : c.column i = none := by
  refine column_eq_none_of_mem_cofactor hf (width_halfSpace _ _ _) hc ?_
  rw [column_halfSpace_self hi]
  exact Option.some_ne_none _

/-! ### Maximal cubes -/

/-- The maximal cubes of a cover hold its points. -/
theorem isSubcover_maximal (hf : f.WellFormed) : IsSubcover f.maximal f :=
  ⟨rfl, fun _ hc ↦ (mem_maximal.mp hc).1, points_maximal hf⟩

theorem Irredundant.not_points_ssubset (hirredundant : f.Irredundant) (hf : f.WellFormed)
    (hc : c ∈ f.cubes) (hd : d ∈ f.cubes) : ¬ c.points ⊂ d.points := by
  rw [← Cube.strictlyContains_iff ((hf c hc).trans (hf d hd).symm), Bool.not_eq_true]
  exact hirredundant c hc d hd

/-! ### All operations -/

/-- A cover has two halves in each of its columns. A row lies in the cover when it lies in the half
for its value in the column, and neither half has a literal there. The maximal cubes of a cover have
the points of all its cubes, and none has all points of another and more. The consensus of two
covers has no point but theirs. Within the points of a cube a cover and its cofactor are the same,
and the cofactor has no literal in the columns in which the cube has one. -/
theorem operations_keep_points (hf : f.WellFormed) (hg : g.WellFormed)
    (hwidth : g.width = f.width) :
    (∀ i < f.width, ∃ positive negative, f.shannon? i = some (positive, negative) ∧
      (∀ point : List Bool, point.length = f.width →
        (point.getD i false = true → (point ∈ f.points ↔ point ∈ positive.points)) ∧
        (point.getD i false = false → (point ∈ f.points ↔ point ∈ negative.points))) ∧
      (∀ c ∈ positive.cubes, c.column i = none) ∧ ∀ c ∈ negative.cubes, c.column i = none) ∧
    (IsSubcover f.maximal f ∧
      ∀ c ∈ f.maximal.cubes, ∀ d ∈ f.maximal.cubes, ¬ c.points ⊂ d.points) ∧
    (∀ point ∈ (f.consensus g).points, point ∈ f.points ∨ point ∈ g.points) ∧
    ∀ p : Cube, p.width = f.width →
      (∀ point ∈ p.points, point ∈ (f.cofactor p).points ↔ point ∈ f.points) ∧
      ∀ c ∈ (f.cofactor p).cubes, ∀ i, p.column i ≠ none → c.column i = none := by
  refine ⟨fun i hi ↦ ?_, ⟨isSubcover_maximal hf, fun c hc d hd ↦ ?_⟩, fun point hpoint ↦ ?_,
    fun p hp ↦ ⟨fun point hpoint ↦ ?_, fun c hc i hi ↦ ?_⟩⟩
  · exact ⟨f.half i true, f.half i false, if_pos hi,
      fun point hlength ↦ ⟨mem_points_half hf hi hlength, mem_points_half hf hi hlength⟩,
      fun c hc ↦ column_eq_none_of_mem_half hf hi hc,
      fun c hc ↦ column_eq_none_of_mem_half hf hi hc⟩
  · exact (irredundant_maximal f).not_points_ssubset hf.maximal hc hd
  · exact points_consensus_subset hf hg hwidth.symm hpoint
  · exact mem_points_cofactor hf hp hpoint
  · exact column_eq_none_of_mem_cofactor hf hp hc hi

/-- Four cubes in four columns, the second of which lies within the first. -/
def stackedCubes : Cover :=
  ofList 4 [⟨[some true, some true, some false, none]⟩,
    ⟨[some true, some true, some false, some true]⟩, ⟨[some false, some true, none, some false]⟩,
    ⟨[some true, some true, some true, some true]⟩]

/-- The half of the four cubes where the last column is false has two cubes, and leaving out the
second cube takes no point away. Where the first two columns are true, the last two ask for what two
cubes ask for. -/
theorem operations_keep_points_stackedCubes : stackedCubes.WellFormed ∧ sixPoints.WellFormed ∧
    (∃ positive negative, stackedCubes.shannon? 3 = some (positive, negative) ∧
      negative.cubes = [⟨[some false, some true, none, none]⟩,
        ⟨[some true, some true, some false, none]⟩] ∧
      ∀ point : List Bool, point.length = 4 → point.getD 3 false = false →
        (point ∈ stackedCubes.points ↔ point ∈ negative.points)) ∧
    stackedCubes.maximal.cubes.length = 3 ∧ stackedCubes.maximal.points = stackedCubes.points ∧
    (∀ point ∈ (stackedCubes.consensus sixPoints).points,
      point ∈ stackedCubes.points ∨ point ∈ sixPoints.points) ∧
    ∀ point ∈ Cube.points ⟨[some true, some true, none, none]⟩,
      point ∈ (stackedCubes.cofactor ⟨[some true, some true, none, none]⟩).points ↔
        point ∈ stackedCubes.points := by
  have hf : stackedCubes.WellFormed := wellFormed_ofList (by decide)
  have hg : sixPoints.WellFormed := wellFormed_ofList (by decide)
  have hnegative : (stackedCubes.half 3 false).cubes = [⟨[some false, some true, none, none]⟩,
      ⟨[some true, some true, some false, none]⟩] := by cbv
  have hmaximal : stackedCubes.maximal.cubes.length = 3 := by cbv
  obtain ⟨hhalves, ⟨hsub, -⟩, hconsensus, hcofactor⟩ := operations_keep_points hf hg rfl
  obtain ⟨positive, negative, hshannon, hpoints, -, -⟩ := hhalves 3 (by decide)
  obtain ⟨-, rfl⟩ := Prod.ext_iff.mp (Option.some.inj hshannon)
  exact ⟨hf, hg, ⟨_, _, hshannon, hnegative, fun point hlength ↦ (hpoints point hlength).2⟩,
    hmaximal, hsub.points, hconsensus, (hcofactor _ rfl).1⟩

end SwitchingAlgebra.Cover
