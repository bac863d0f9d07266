import Mathlib
import SwitchingAlgebra.Cover.Basic
import SwitchingAlgebra.Proofs.CubePoints
import SwitchingAlgebra.Proofs.SortedLists

/-!
# Covers and their points

The points of a cover are the rows of its width that lie in some cube. A cube of the width is an
implicant when all its points are points of the cover, and a prime when no implicant holds its
points and more. Both depend on the points of the cover alone.

Main statements: the operations on covers that keep the points do so (`points_maximal`,
`points_union`), and consensus adds none (`points_consensus_subset`).
-/

set_option autoImplicit false
set_option relaxedAutoImplicit false

namespace SwitchingAlgebra.Cover

/-- The points of a cover: the rows of its width that lie in some cube. -/
def points (f : Cover) : Set (List Bool) :=
  {point | point.length = f.width ∧ f.contains point = true}

/-- A cube of the width of a cover whose points are points of the cover. -/
def IsImplicant (f : Cover) (c : Cube) : Prop :=
  c.width = f.width ∧ c.points ⊆ f.points

/-- A prime: an implicant whose points are not a proper part of the points of another. -/
def IsPrime (f : Cover) (c : Cube) : Prop :=
  f.IsImplicant c ∧ ∀ d, f.IsImplicant d → ¬ c.points ⊂ d.points

variable {f g : Cover}

/-- Covers of one width with the same cubes are equal. -/
theorem ext_mem (hwidth : f.width = g.width) (hcubes : ∀ c, c ∈ f.cubes ↔ c ∈ g.cubes) : f = g := by
  have hequal : f.cubes = g.cubes :=
    eq_of_pairwise_of_mem_iff asymm_of_orientedCmp f.increasing g.increasing hcubes
  cases f
  cases g
  cases hwidth
  cases hequal
  rfl

theorem IsImplicant.congr (hwidth : f.width = g.width) (hpoints : f.points = g.points) {c : Cube} :
    f.IsImplicant c ↔ g.IsImplicant c := by
  rw [IsImplicant, IsImplicant, hwidth, hpoints]

theorem IsPrime.congr (hwidth : f.width = g.width) (hpoints : f.points = g.points) {c : Cube} :
    f.IsPrime c ↔ g.IsPrime c := by
  simp only [IsPrime, IsImplicant.congr hwidth hpoints]

/-- A prime is any implicant that holds its points. -/
theorem IsPrime.eq_of_subset {c d : Cube} (hprime : f.IsPrime c) (himplicant : f.IsImplicant d)
    (hsubset : c.points ⊆ d.points) : c = d := by
  refine Cube.eq_of_points_eq (hprime.1.1.trans himplicant.1.symm) ?_
  by_contra hne
  exact hprime.2 d himplicant (hsubset.ssubset_of_ne hne)

/-! ### Membership -/

theorem mem_points_iff (hf : f.WellFormed) {point : List Bool} :
    point ∈ f.points ↔ ∃ c ∈ f.cubes, point ∈ c.points := by
  constructor
  · rintro ⟨hlength, hcontains⟩
    obtain ⟨c, hc, hpoint⟩ := List.any_eq_true.mp hcontains
    exact ⟨c, hc, hlength.trans (hf c hc).symm, hpoint⟩
  · rintro ⟨c, hc, hlength, hpoint⟩
    exact ⟨hlength.trans (hf c hc), List.any_eq_true.mpr ⟨c, hc, hpoint⟩⟩

/-- The cubes of a cover are implicants of it. -/
theorem isImplicant_of_mem (hf : f.WellFormed) {c : Cube} (hc : c ∈ f.cubes) : f.IsImplicant c :=
  ⟨hf c hc, fun _ hpoint ↦ (mem_points_iff hf).mpr ⟨c, hc, hpoint⟩⟩

theorem isImplicant_whole (hall : ∀ point : List Bool, point.length = f.width → point ∈ f.points) :
    f.IsImplicant (Cube.whole f.width) :=
  ⟨Cube.width_whole _, fun _ hpoint ↦ hall _ (Cube.mem_points_whole.mp hpoint)⟩

/-- A cover holds every point of another when each cube of the other lies within one of its
cubes. -/
theorem points_subset_of_forall_exists (hf : f.WellFormed) (hg : g.WellFormed)
    (hcubes : ∀ c ∈ f.cubes, ∃ d ∈ g.cubes, c.points ⊆ d.points) : f.points ⊆ g.points := by
  intro point hpoint
  obtain ⟨c, hc, hmem⟩ := (mem_points_iff hf).mp hpoint
  obtain ⟨d, hd, hsubset⟩ := hcubes c hc
  exact (mem_points_iff hg).mpr ⟨d, hd, hsubset hmem⟩

theorem points_subset_of_mem (hf : f.WellFormed) (hg : g.WellFormed)
    (hmem : ∀ c ∈ f.cubes, c ∈ g.cubes) : f.points ⊆ g.points :=
  points_subset_of_forall_exists hf hg fun c hc ↦ ⟨c, hmem c hc, subset_rfl⟩

/-- The literals of a cover are those of its cubes. -/
theorem literalCount_eq_sum (f : Cover) :
    f.literalCount = (f.cubes.map Cube.literalCount).sum := by
  rw [literalCount, List.sum, List.foldr_map]

/-! ### Well-formed covers -/

theorem wellFormed_ofList {width : Nat} {cubes : List Cube}
    (hcubes : ∀ c ∈ cubes, c.width = width) : (ofList width cubes).WellFormed :=
  fun c hc ↦ hcubes c (mem_ofList.mp hc)

theorem WellFormed.filter (hf : f.WellFormed) (keep : Cube → Bool) : (f.filter keep).WellFormed :=
  fun c hc ↦ hf c (mem_filter.mp hc).1

theorem WellFormed.maximal (hf : f.WellFormed) : f.maximal.WellFormed :=
  hf.filter _

theorem WellFormed.union (hf : f.WellFormed) (hg : g.WellFormed) (hwidth : f.width = g.width) :
    (f.union g).WellFormed := by
  intro c hc
  rcases mem_union.mp hc with hc | hc
  · exact hf c hc
  · exact (hg c hc).trans hwidth.symm

theorem WellFormed.consensus (hf : f.WellFormed) (hg : g.WellFormed) (hwidth : f.width = g.width) :
    (f.consensus g).WellFormed := by
  intro e he
  obtain ⟨c, hc, d, hd, hconsensus⟩ := mem_consensus.mp he
  have hcd : c.width = d.width := (hf c hc).trans (hwidth.trans (hg d hd).symm)
  exact (Cube.width_of_consensus? hcd hconsensus).trans (hf c hc)

/-! ### Points under the operations -/

/-- Every cube of a cover lies within one that no other strictly contains. -/
theorem exists_maximal_containing (hf : f.WellFormed) {c : Cube} (hc : c ∈ f.cubes) :
    ∃ d ∈ f.maximal.cubes, c.points ⊆ d.points := by
  have hfinite : {points | ∃ d ∈ f.cubes, d.points = points}.Finite :=
    f.cubes.finite_toSet.image Cube.points
  obtain ⟨_, hsubset, ⟨d, hd, rfl⟩, hlargest⟩ := hfinite.exists_le_maximal ⟨c, hc, rfl⟩
  refine ⟨d, mem_maximal.mpr ⟨hd, fun e he ↦ ?_⟩, hsubset⟩
  by_contra hcontains
  rw [Bool.not_eq_false, Cube.strictlyContains_iff ((hf d hd).trans (hf e he).symm)] at hcontains
  exact hcontains.2 (hlargest ⟨e, he, rfl⟩ hcontains.1)

theorem points_maximal (hf : f.WellFormed) : f.maximal.points = f.points := by
  apply Set.Subset.antisymm
  · exact points_subset_of_mem hf.maximal hf fun c hc ↦ (mem_maximal.mp hc).1
  · exact points_subset_of_forall_exists hf hf.maximal fun c hc ↦ exists_maximal_containing hf hc

theorem points_union (hf : f.WellFormed) (hg : g.WellFormed) (hwidth : f.width = g.width) :
    (f.union g).points = f.points ∪ g.points := by
  ext point
  rw [Set.mem_union, mem_points_iff (hf.union hg hwidth), mem_points_iff hf, mem_points_iff hg]
  constructor
  · rintro ⟨c, hc, hpoint⟩
    rcases mem_union.mp hc with hc | hc
    · exact .inl ⟨c, hc, hpoint⟩
    · exact .inr ⟨c, hc, hpoint⟩
  · rintro (⟨c, hc, hpoint⟩ | ⟨c, hc, hpoint⟩)
    · exact ⟨c, mem_union.mpr (.inl hc), hpoint⟩
    · exact ⟨c, mem_union.mpr (.inr hc), hpoint⟩

/-- Consensus adds no point. -/
theorem points_consensus_subset (hf : f.WellFormed) (hg : g.WellFormed)
    (hwidth : f.width = g.width) : (f.consensus g).points ⊆ f.points ∪ g.points := by
  intro point hpoint
  obtain ⟨e, he, hmem⟩ := (mem_points_iff (hf.consensus hg hwidth)).mp hpoint
  obtain ⟨c, hc, d, hd, hconsensus⟩ := mem_consensus.mp he
  have hcd : c.width = d.width := (hf c hc).trans (hwidth.trans (hg d hd).symm)
  rcases Cube.mem_points_of_consensus? hcd hconsensus hmem with hpoint | hpoint
  · exact .inl ((mem_points_iff hf).mpr ⟨c, hc, hpoint⟩)
  · exact .inr ((mem_points_iff hg).mpr ⟨d, hd, hpoint⟩)

/-! ### Cofactors -/

theorem WellFormed.cofactor (hf : f.WellFormed) {p : Cube} (hp : p.width = f.width) :
    (f.cofactor p).WellFormed := by
  intro e he
  obtain ⟨c, hc, hcofactor⟩ := mem_cofactor.mp he
  exact (Cube.width_of_cofactor? ((hf c hc).trans hp.symm) hcofactor).trans (hf c hc)

/-- A cofactor is free in the columns of the subspace. -/
theorem column_eq_none_of_mem_cofactor (hf : f.WellFormed) {p c : Cube} (hp : p.width = f.width)
    (hc : c ∈ (f.cofactor p).cubes) {i : Nat} (hi : p.column i ≠ none) : c.column i = none := by
  obtain ⟨d, hd, hcofactor⟩ := mem_cofactor.mp hc
  rw [Cube.column_of_cofactor? ((hf d hd).trans hp.symm) hcofactor,
    if_pos (Option.isSome_iff_ne_none.mpr hi)]

/-- Within a subspace a cover and its cofactor have the same points. -/
theorem mem_points_cofactor (hf : f.WellFormed) {p : Cube} (hp : p.width = f.width)
    {point : List Bool} (hpoint : point ∈ p.points) :
    point ∈ (f.cofactor p).points ↔ point ∈ f.points := by
  rw [mem_points_iff (hf.cofactor hp), mem_points_iff hf]
  constructor
  · rintro ⟨e, he, hmem⟩
    obtain ⟨c, hc, hcofactor⟩ := mem_cofactor.mp he
    have hcp : c.width = p.width := (hf c hc).trans hp.symm
    exact ⟨c, hc, (Cube.mem_points_iff_of_cofactor? hcp hcofactor hpoint).mp hmem⟩
  · rintro ⟨c, hc, hmem⟩
    have hcp : c.width = p.width := (hf c hc).trans hp.symm
    rcases hcofactor : c.cofactor? p with _ | e
    · exact absurd hmem (Cube.notMem_points_of_cofactor?_eq_none hcofactor hpoint)
    · exact ⟨e, mem_cofactor.mpr ⟨c, hc, hcofactor⟩,
        (Cube.mem_points_iff_of_cofactor? hcp hcofactor hpoint).mpr hmem⟩

/-- Whether a row lies in a cofactor does not depend on its values in the columns of the
subspace. -/
theorem mem_points_cofactor_congr (hf : f.WellFormed) {p : Cube} (hp : p.width = f.width)
    {first second : List Bool} (hlength : first.length = second.length)
    (hagree : ∀ i, p.column i = none → first.getD i false = second.getD i false) :
    first ∈ (f.cofactor p).points ↔ second ∈ (f.cofactor p).points := by
  rw [mem_points_iff (hf.cofactor hp), mem_points_iff (hf.cofactor hp)]
  refine exists_congr fun e ↦ and_congr_right fun he ↦ ?_
  obtain ⟨c, hc, hcofactor⟩ := mem_cofactor.mp he
  rw [Cube.mem_points_iff, Cube.mem_points_iff, hlength]
  refine and_congr_right fun _ ↦ forall_congr' fun i ↦ ?_
  rw [Cube.column_of_cofactor? ((hf c hc).trans hp.symm) hcofactor]
  rcases hi : p.column i with _ | value
  · rw [hagree i hi]
  · rfl

/-- A cofactor holds every row exactly when the cover holds every point of the subspace. -/
theorem cofactor_forall_iff (hf : f.WellFormed) {p : Cube} (hp : p.width = f.width) :
    (∀ point : List Bool, point.length = f.width → point ∈ (f.cofactor p).points) ↔
      p.points ⊆ f.points := by
  constructor
  · intro hall point hpoint
    exact (mem_points_cofactor hf hp hpoint).mp (hall point (hpoint.1.trans hp))
  · intro hsubset point hlength
    -- The row moved into the subspace.
    let moved := p.corner fun i ↦ point.getD i false
    have hmoved : moved ∈ p.points := p.corner_mem _
    refine (mem_points_cofactor_congr hf hp (hlength.trans (hmoved.1.trans hp).symm)
      fun i hi ↦ ?_).mpr ((mem_points_cofactor hf hp hmoved).mpr (hsubset hmoved))
    by_cases hlt : i < p.width
    · rw [Cube.getD_corner _ hlt, hi, Option.getD_none]
    · rw [List.getD_eq_default _ _ (by omega), List.getD_eq_default _ _ (by rw [hmoved.1]; omega)]

end SwitchingAlgebra.Cover
