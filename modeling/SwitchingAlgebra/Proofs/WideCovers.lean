import Mathlib
import SwitchingAlgebra.Proofs.MinimumCover

/-!
# Minimum covers over many columns

Where the primes have literals in more columns than all points can be looked at for, the minimum
cover is what is left of the primes after each has been tried in turn and left out if the others
cover it. A cube that is kept has a point that lies in no other cube at that time. Cubes are only
left out afterwards, so the point still lies in no other cube at the end.

Main statement: no cube can be left out of such a minimum cover without losing a point
(`wide_minimum_irredundant`).
-/

set_option autoImplicit false
set_option relaxedAutoImplicit false

namespace SwitchingAlgebra.Cover

variable {f g : Cover} {c : Cube}

/-! ### Required cubes -/

/-- Some point of the cube lies in no other cube of the cover. -/
def Requires (f : Cover) (c : Cube) : Prop :=
  ∃ point ∈ c.points, ∀ d ∈ f.cubes, point ∈ d.points → d = c

/-- A cube that is required stays so when others are left out. -/
theorem Requires.of_subset (hrequires : g.Requires c) (hsubset : ∀ d ∈ f.cubes, d ∈ g.cubes) :
    f.Requires c := by
  obtain ⟨point, hpoint, honly⟩ := hrequires
  exact ⟨point, hpoint, fun d hd hmem ↦ honly d (hsubset d hd) hmem⟩

/-- A cube is required when the others do not cover it. -/
theorem requires_of_not_covers (hf : f.WellFormed) (hc : c.width = f.width)
    (hcovers : (f.without c).covers c = false) : f.Requires c := by
  have hwithout : (f.without c).WellFormed := hf.filter _
  have hnot : ¬ c.points ⊆ (f.without c).points := by
    rw [← covers_iff hwithout hc, hcovers]
    exact Bool.false_ne_true
  obtain ⟨point, hpoint, hmissing⟩ := Set.not_subset.mp hnot
  refine ⟨point, hpoint, fun d hd hmem ↦ ?_⟩
  by_contra hdc
  exact hmissing ((mem_points_iff hwithout).mpr ⟨d, mem_without.mpr ⟨hd, hdc⟩, hmem⟩)

/-- A required cube cannot be left out without losing a point. -/
theorem Requires.exists_notMem_points_without (hrequires : f.Requires c) (hf : f.WellFormed)
    (hc : c ∈ f.cubes) : ∃ point ∈ f.points, point ∉ (f.without c).points := by
  obtain ⟨point, hpoint, honly⟩ := hrequires
  refine ⟨point, (mem_points_iff hf).mpr ⟨c, hc, hpoint⟩, fun hmem ↦ ?_⟩
  obtain ⟨d, hd, hmemd⟩ := (mem_points_iff (hf.filter _)).mp hmem
  obtain ⟨hdf, hdc⟩ := mem_without.mp hd
  exact hdc (honly d hdf hmemd)

/-! ### Leaving out one cube after the other -/

/-- Every cube that has been tried and is left is required. -/
theorem requires_of_mem_dropCovered {cs : List Cube} :
    ∀ {f : Cover}, f.WellFormed → (∀ c ∈ cs, c.width = f.width) →
      ∀ c ∈ cs, c ∈ (dropCovered cs f).cubes → (dropCovered cs f).Requires c := by
  induction cs with
  | nil => exact fun _ _ c hc ↦ absurd hc List.not_mem_nil
  | cons d rest ih =>
    intro f hf hwidth c hc hleft
    have hrest : ∀ c ∈ rest, c.width = f.width := fun c hc ↦ hwidth c (List.mem_cons_of_mem _ hc)
    rw [dropCovered] at hleft ⊢
    by_cases hcovers : (f.without d).covers d = true
    · rw [if_pos hcovers] at hleft ⊢
      have hwithout : (f.without d).WellFormed := hf.filter _
      rcases List.mem_cons.mp hc with rfl | hc
      · -- The cube has been left out, and no cube comes in again.
        exact absurd rfl (mem_without.mp ((isSubcover_dropCovered hwithout hrest).mem c hleft)).2
      · exact ih hwithout hrest c hc hleft
    · rw [if_neg hcovers] at hleft ⊢
      rcases List.mem_cons.mp hc with rfl | hc
      · have hrequires := requires_of_not_covers hf (hwidth c List.mem_cons_self)
          (Bool.not_eq_true _ ▸ hcovers)
        exact hrequires.of_subset (isSubcover_dropCovered hf hrest).mem
      · exact ih hf hrest c hc hleft

theorem requires_of_mem_irredundant (hf : f.WellFormed) (hc : c ∈ f.irredundant.cubes) :
    f.irredundant.Requires c := by
  have hmem := List.mem_reverse.mpr ((isSubcover_irredundant hf).mem c hc)
  exact requires_of_mem_dropCovered hf (fun d hd ↦ hf d (List.mem_reverse.mp hd)) c hmem hc

/-! ### Wide minimum covers -/

/-- Where some prime has a literal, none asks for nothing. -/
theorem containsWhole_primes_eq_false (hf : f.WellFormed)
    (hliterals : CoveringTable.literalColumns f.width f.primes.cubes ≠ []) :
    f.primes.containsWhole = false := by
  obtain ⟨i, hi⟩ := List.exists_mem_of_ne_nil _ hliterals
  obtain ⟨c, hc, hliteral⟩ := List.any_eq_true.mp (List.mem_filter.mp hi).2
  have hprime := (mem_primes hf).mp hc
  by_contra hwhole
  rw [Bool.not_eq_false] at hwhole
  obtain ⟨d, hd, hdwhole⟩ := List.any_eq_true.mp hwhole
  rw [Cube.isWhole_iff] at hdwhole
  have himplicant := ((mem_primes hf).mp hd).1
  have hsubset : c.points ⊆ d.points := by
    refine (Cube.points_subset_iff (hprime.1.1.trans himplicant.1.symm)).mpr fun j ↦ ?_
    rw [hdwhole j]
    rfl
  rw [hprime.eq_of_subset himplicant hsubset, hdwhole i] at hliteral
  cases hliteral

/-- Where more than sixteen columns of the primes have literals, the primes are thinned out. -/
theorem minimum_eq_irredundant (hf : f.WellFormed)
    (hmany : 16 < (CoveringTable.literalColumns f.width f.primes.cubes).length) :
    f.minimum = f.primes.irredundant := by
  have hwhole := containsWhole_primes_eq_false hf (List.ne_nil_of_length_pos (by omega))
  have htable : CoveringTable.ofCubes? f.primes.width f.primes.cubes = none := by
    rw [width_primes, CoveringTable.ofCubes?_eq_none_iff]
    exact hmany
  rw [minimum]
  simp only [hwhole, htable, Bool.false_eq_true, if_false]

theorem minimum_eq_of_points_eq (hf : f.WellFormed) (hg : g.WellFormed) (hwidth : g.width = f.width)
    (hpoints : g.points = f.points) : g.minimum = f.minimum := by
  rw [minimum, minimum, primes_eq_of_points_eq hg hf hwidth hpoints, hwidth]

/-- Where the primes of a cover have literals in more than sixteen columns, so that none of them
asks for nothing, the minimum cover consists of primes and holds the points of the cover, and no
single cube can be left out of it without losing one of these points. Covers of one width with the
same points have the same minimum cover. -/
theorem wide_minimum_irredundant (hf : f.WellFormed)
    (hmany : 16 < (CoveringTable.literalColumns f.width f.primes.cubes).length) :
    f.primes.containsWhole = false ∧
      (∀ c ∈ f.minimum.cubes, c ∈ f.primes.cubes) ∧ f.minimum.points = f.points ∧
        (∀ c ∈ f.minimum.cubes, ∃ point ∈ f.points, point ∉ (f.minimum.without c).points) ∧
          ∀ g : Cover, g.WellFormed → g.width = f.width → g.points = f.points →
            g.minimum = f.minimum := by
  refine ⟨containsWhole_primes_eq_false hf (List.ne_nil_of_length_pos (by omega)),
    (isSubcover_minimum hf).mem, points_minimum hf, fun c hc ↦ ?_,
    fun g hg hwidth hpoints ↦ minimum_eq_of_points_eq hf hg hwidth hpoints⟩
  have hminimum := wellFormed_minimum hf
  rw [← points_minimum hf]
  refine Requires.exists_notMem_points_without ?_ hminimum hc
  rw [minimum_eq_irredundant hf hmany] at hc ⊢
  exact requires_of_mem_irredundant (wellFormed_primes hf) hc

/-- A product of the first columns of seventeen, as given, and all others. -/
def enabled (columns : List Column) : Cube :=
  ⟨columns ++ List.replicate 14 (some true)⟩

/-- The choice between the second and the third column by the first, where all others are true. -/
def enabledChoice : Cover :=
  ofList 17 [enabled [some true, some true, none], enabled [some false, none, some true]]

theorem wellFormed_enabledChoice : enabledChoice.WellFormed :=
  wellFormed_ofList (by decide)

/-- One round of consensus finds the primes of the choice: its two cubes and what they imply
together. -/
theorem primes_enabledChoice : enabledChoice.primes = enabledChoice.consensusRound := by
  have hmaximal : enabledChoice.maximal = enabledChoice := by cbv
  have hchanges : enabledChoice.consensusRound ≠ enabledChoice := by
    intro hequal
    have hbefore : enabledChoice.cubes.length = 2 := by cbv
    have hafter : enabledChoice.consensusRound.cubes.length = 3 := by cbv
    rw [hequal, hbefore] at hafter
    omega
  have hend : enabledChoice.consensusRound.consensusRound = enabledChoice.consensusRound := by cbv
  have hloop := consensusLoop_primes wellFormed_enabledChoice
  rw [hmaximal] at hloop
  exact hloop.eq (.round hchanges (.done hend))

/-- The primes of the choice have literals in seventeen columns. No cube can be left out of its
minimum cover, but one of the primes can, so they are not all in it. -/
theorem wide_minimum_enabledChoice : enabledChoice.WellFormed ∧
    16 < (CoveringTable.literalColumns enabledChoice.width enabledChoice.primes.cubes).length ∧
      (∀ c ∈ enabledChoice.minimum.cubes,
        ∃ point ∈ enabledChoice.points, point ∉ (enabledChoice.minimum.without c).points) ∧
        enabled [none, some true, some true] ∈ enabledChoice.primes.cubes ∧
          enabledChoice.minimum ≠ enabledChoice.primes := by
  have hf := wellFormed_enabledChoice
  have hmany : 16 < (CoveringTable.literalColumns enabledChoice.width
      enabledChoice.primes.cubes).length := by
    rw [primes_enabledChoice]
    cbv
  have himplied : enabled [none, some true, some true] ∈ enabledChoice.primes.cubes := by
    have hcubes : enabledChoice.consensusRound.cubes = [enabled [none, some true, some true],
        enabled [some false, none, some true], enabled [some true, some true, none]] := by cbv
    rw [primes_enabledChoice, hcubes]
    exact List.mem_cons_self
  have hothers : enabledChoice.primes.without (enabled [none, some true, some true]) =
      enabledChoice := by
    rw [primes_enabledChoice]
    cbv
  obtain ⟨-, -, -, hneeded, -⟩ := wide_minimum_irredundant hf hmany
  refine ⟨hf, hmany, hneeded, himplied, fun hall ↦ ?_⟩
  rw [hall] at hneeded
  obtain ⟨point, hpoint, hlost⟩ := hneeded _ himplied
  rw [hothers] at hlost
  exact hlost hpoint

end SwitchingAlgebra.Cover
