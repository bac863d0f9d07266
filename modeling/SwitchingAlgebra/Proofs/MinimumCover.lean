import Mathlib
import SwitchingAlgebra.Cover.Minimum
import SwitchingAlgebra.Proofs.CoveringRows
import SwitchingAlgebra.Proofs.Primes
import SwitchingAlgebra.Proofs.Search
import SwitchingAlgebra.Proofs.Tautology

/-!
# Minimum covers

A minimum cover consists of primes and holds the points of the cover it is made from, also where
more columns have literals than all points can be looked at for (`isSubcover_minimum`). Up to that
number of columns it is cheapest: every cube of another cover lies within a prime with no more
literals, the positions of these primes satisfy every row of the covering table, and the search
finds no dearer choice. Its sums do not overflow there, since the table has few rows and low costs
(`totalCost_solve_lt`).

Main statement: `minimum_exact`.
-/

set_option autoImplicit false
set_option relaxedAutoImplicit false

namespace SwitchingAlgebra.Cover

/-- A cover of some of the cubes of another with the same points. -/
structure IsSubcover (g f : Cover) : Prop where
  width : g.width = f.width
  mem : ∀ c ∈ g.cubes, c ∈ f.cubes
  points : g.points = f.points

variable {f g : Cover}

theorem IsSubcover.refl (f : Cover) : IsSubcover f f :=
  ⟨rfl, fun _ hc ↦ hc, rfl⟩

theorem IsSubcover.trans {h : Cover} (hfirst : IsSubcover f g) (hsecond : IsSubcover g h) :
    IsSubcover f h :=
  ⟨hfirst.width.trans hsecond.width, fun c hc ↦ hsecond.mem c (hfirst.mem c hc),
    hfirst.points.trans hsecond.points⟩

theorem IsSubcover.wellFormed (hsub : IsSubcover g f) (hf : f.WellFormed) : g.WellFormed :=
  fun c hc ↦ (hf c (hsub.mem c hc)).trans hsub.width.symm

/-- Some cubes of a cover make a subcover when they still hold every point. -/
theorem IsSubcover.of_points_subset (hf : f.WellFormed) (hwidth : g.width = f.width)
    (hmem : ∀ c ∈ g.cubes, c ∈ f.cubes) (hsubset : f.points ⊆ g.points) : IsSubcover g f := by
  have hg : g.WellFormed := fun c hc ↦ (hf c (hmem c hc)).trans hwidth.symm
  exact ⟨hwidth, hmem, (points_subset_of_mem hg hf hmem).antisymm hsubset⟩

/-! ### Irredundant covers -/

theorem isSubcover_without (hf : f.WellFormed) {c : Cube} (hc : c.width = f.width)
    (hcovers : (f.without c).covers c = true) : IsSubcover (f.without c) f := by
  have hwithout : (f.without c).WellFormed := hf.filter _
  have hsubset := (covers_iff hwithout hc).mp hcovers
  refine .of_points_subset hf rfl (fun d hd ↦ (mem_without.mp hd).1) fun point hpoint ↦ ?_
  obtain ⟨d, hd, hmem⟩ := (mem_points_iff hf).mp hpoint
  by_cases hdc : d = c
  · exact hsubset (hdc ▸ hmem)
  · exact (mem_points_iff hwithout).mpr ⟨d, mem_without.mpr ⟨hd, hdc⟩, hmem⟩

theorem isSubcover_dropCovered {cs : List Cube} :
    ∀ {f : Cover}, f.WellFormed → (∀ c ∈ cs, c.width = f.width) →
      IsSubcover (dropCovered cs f) f := by
  induction cs with
  | nil => exact fun {f} _ _ ↦ .refl f
  | cons c rest ih =>
    intro f hf hwidth
    have hrest : ∀ d ∈ rest, d.width = f.width := fun d hd ↦ hwidth d (List.mem_cons_of_mem _ hd)
    rw [dropCovered]
    by_cases hcovers : (f.without c).covers c = true
    · rw [if_pos hcovers]
      exact (ih (hf.filter _) hrest).trans
        (isSubcover_without hf (hwidth c List.mem_cons_self) hcovers)
    · rw [if_neg hcovers]
      exact ih hf hrest

theorem isSubcover_irredundant (hf : f.WellFormed) : IsSubcover f.irredundant f :=
  isSubcover_dropCovered hf fun c hc ↦ hf c (List.mem_reverse.mp hc)

/-! ### Selections -/

theorem mem_select {positions : List Nat} {c : Cube} :
    c ∈ (f.select positions).cubes ↔ ∃ position ∈ positions, f.cubes[position]? = some c := by
  rw [select, mem_ofList, List.mem_filterMap]

section Table

variable {table : CoveringTable} {positions : List Nat}

/-- A choice that satisfies every row of the covering table of a cover selects a subcover. -/
theorem isSubcover_select (hf : f.WellFormed)
    (htable : CoveringTable.ofCubes? f.width f.cubes = some table)
    (hhits : CoveringTable.Hits positions table.rows) : IsSubcover (f.select positions) f := by
  have hmem : ∀ c ∈ (f.select positions).cubes, c ∈ f.cubes := by
    intro c hc
    obtain ⟨position, -, hposition⟩ := mem_select.mp hc
    exact List.mem_of_getElem? hposition
  have hselect : (f.select positions).WellFormed := fun c hc ↦ hf c (hmem c hc)
  refine .of_points_subset hf rfl hmem fun point hpoint ↦ ?_
  have hrow : CoveringTable.holders f.cubes point ∈ table.rows := by
    refine (CoveringTable.mem_rows_iff hf htable).mpr ⟨?_, point, hpoint.1, rfl⟩
    exact CoveringTable.holders_ne_nil_iff.mpr (List.any_eq_true.mp hpoint.2)
  obtain ⟨position, hposition, hin⟩ := hhits _ hrow
  obtain ⟨c, hc, hcontains⟩ := CoveringTable.mem_holders.mp hin
  refine (mem_points_iff hselect).mpr ⟨c, mem_select.mpr ⟨position, hposition, hc⟩, ?_, hcontains⟩
  exact hpoint.1.trans (hf c (List.mem_of_getElem? hc)).symm

/-- A selection takes no more cubes than positions and no more literals than these cost. -/
theorem select_price_le (hf : f.WellFormed)
    (htable : CoveringTable.ofCubes? f.width f.cubes = some table) :
    (⟨(f.select positions).cubes.length, (f.select positions).literalCount⟩ : Price) ≤
      table.priceOf positions := by
  have hliterals : ((positions.filterMap fun position ↦ f.cubes[position]?).map
      Cube.literalCount).sum ≤ table.totalCost positions := by
    induction positions with
    | nil => exact le_rfl
    | cons position rest ih =>
      rw [List.filterMap_cons, CoveringTable.totalCost_cons]
      rcases hposition : f.cubes[position]? with _ | c
      · dsimp only
        omega
      · have hcost := CoveringTable.toNat_cost_eq_literalCount hf htable hposition
        rw [List.map_cons, List.sum_cons]
        omega
  refine Price.le_of_components ?_ ?_
  · exact (length_sortDistinct_le _).trans (List.length_filterMap_le _ _)
  · rw [literalCount_eq_sum]
    exact (sum_map_sortDistinct_le Cube.literalCount _).trans hliterals

/-- No choice needs more positions than there are rows, and none of them has more literals than
there are columns with literals, so what the result costs fits in a word. -/
theorem totalCost_solve_lt (hf : f.WellFormed)
    (htable : CoveringTable.ofCubes? f.width f.cubes = some table) :
    table.totalCost table.solve < 2 ^ 64 := by
  have hchoice : CoveringTable.Hits (table.rows.map (·.headD 0)) table.rows := fun row hrow ↦ by
    obtain ⟨hne, -⟩ := (CoveringTable.mem_rows_iff hf htable).mp hrow
    refine ⟨row.headD 0, List.mem_map_of_mem hrow, ?_⟩
    rw [List.headD_eq_head?_getD, List.head?_eq_some_head hne]
    exact List.head_mem hne
  have hlength : table.solve.length ≤ 2 ^ 32 := by
    have hrows := CoveringTable.length_solve_le hchoice
    rw [List.length_map] at hrows
    exact hrows.trans (CoveringTable.length_rows_le hf htable)
  calc table.totalCost table.solve
      ≤ table.solve.length * CoveringTable.maxColumns :=
        CoveringTable.totalCost_le (CoveringTable.toNat_cost_le hf htable) _
    _ ≤ 2 ^ 32 * 16 := Nat.mul_le_mul_right _ hlength
    _ < 2 ^ 64 := by decide

/-- All positions together satisfy every row. -/
theorem hits_range (hf : f.WellFormed)
    (htable : CoveringTable.ofCubes? f.width f.cubes = some table) :
    CoveringTable.Hits (List.range f.cubes.length) table.rows := by
  intro row hrow
  obtain ⟨hne, point, -, rfl⟩ := (CoveringTable.mem_rows_iff hf htable).mp hrow
  obtain ⟨position, hposition⟩ := List.exists_mem_of_ne_nil _ hne
  obtain ⟨c, hc, -⟩ := CoveringTable.mem_holders.mp hposition
  obtain ⟨hlt, -⟩ := List.getElem?_eq_some_iff.mp hc
  exact ⟨position, List.mem_range.mpr hlt, hposition⟩

/-- The primes around the cubes of another cover with the same points satisfy every row, and cost no
more than that cover. -/
theorem exists_hits_price_le (hf : f.WellFormed) (hg : g.WellFormed) (hwidth : g.width = f.width)
    (hpoints : g.points = f.points)
    (htable : CoveringTable.ofCubes? f.primes.width f.primes.cubes = some table) :
    ∃ positions, CoveringTable.Hits positions table.rows ∧
      table.priceOf positions ≤ ⟨g.cubes.length, g.literalCount⟩ := by
  have haround : ∀ c ∈ g.cubes, ∃ (position : Nat) (d : Cube),
      f.primes.cubes[position]? = some d ∧ c.points ⊆ d.points := by
    intro c hc
    have himplicant := (IsImplicant.congr hwidth hpoints).mp (isImplicant_of_mem hg hc)
    obtain ⟨d, hd, hsubset⟩ := exists_prime_containing hf himplicant
    obtain ⟨position, hposition⟩ := List.mem_iff_getElem?.mp hd
    exact ⟨position, d, hposition, hsubset⟩
  choose! position prime hprime hsubset using haround
  have hprimes := wellFormed_primes hf
  refine ⟨g.cubes.map position, fun row hrow ↦ ?_, Price.le_of_components ?_ ?_⟩
  · obtain ⟨hne, point, hlength, rfl⟩ := (CoveringTable.mem_rows_iff hprimes htable).mp hrow
    have hpoint : point ∈ g.points := by
      rw [hpoints, ← points_primes hf]
      exact ⟨hlength, List.any_eq_true.mpr (CoveringTable.holders_ne_nil_iff.mp hne)⟩
    obtain ⟨c, hc, hmem⟩ := (mem_points_iff hg).mp hpoint
    exact ⟨position c, List.mem_map_of_mem hc,
      CoveringTable.mem_holders.mpr ⟨prime c, hprime c hc, (hsubset c hc hmem).2⟩⟩
  · exact (List.length_map _).le
  · rw [CoveringTable.priceOf, CoveringTable.totalCost, List.map_map, literalCount_eq_sum]
    refine List.sum_le_sum fun c hc ↦ ?_
    rw [Function.comp_apply,
      CoveringTable.toNat_cost_eq_literalCount hprimes htable (hprime c hc)]
    have hprimewidth := hprimes _ (List.mem_of_getElem? (hprime c hc))
    rw [width_primes] at hprimewidth
    exact Cube.literalCount_le_of_points_subset ((hg c hc).trans (hwidth.trans hprimewidth.symm))
      (hsubset c hc)

end Table

/-! ### The minimum -/

theorem cubes_ofList_singleton (width : Nat) (c : Cube) : (ofList width [c]).cubes = [c] := by
  simp [ofList, sortDistinct, dropRepeats, dropRepeatsAfter]

@[simp]
theorem literalCount_whole (width : Nat) : (Cube.whole width).literalCount = 0 := by
  simp [Cube.literalCount, Cube.whole]

/-- Where a prime asks for nothing, the cube that asks for nothing covers all points. -/
theorem isSubcover_whole (hf : f.WellFormed) (hwhole : f.primes.containsWhole = true) :
    IsSubcover (ofList f.width [Cube.whole f.width]) f.primes := by
  obtain ⟨c, hc, hcwhole⟩ := List.any_eq_true.mp hwhole
  have hprimes := wellFormed_primes hf
  obtain rfl : c = Cube.whole f.width := by
    rw [Cube.isWhole_iff_eq.mp hcwhole, hprimes c hc, width_primes]
  have hlist : (ofList f.width [Cube.whole f.width]).WellFormed := wellFormed_ofList (by simp)
  have hmem : ∀ d ∈ (ofList f.width [Cube.whole f.width]).cubes, d ∈ f.primes.cubes := by
    intro d hd
    obtain rfl := List.mem_singleton.mp (mem_ofList.mp hd)
    exact hc
  refine .of_points_subset hprimes (width_primes f).symm hmem fun point hpoint ↦ ?_
  refine (mem_points_iff hlist).mpr ⟨Cube.whole f.width, mem_ofList.mpr List.mem_cons_self, ?_⟩
  exact Cube.mem_points_whole.mpr (hpoint.1.trans (width_primes f))

/-- A minimum cover consists of primes and keeps the points. -/
theorem isSubcover_minimum (hf : f.WellFormed) : IsSubcover f.minimum f.primes := by
  have hprimes := wellFormed_primes hf
  rw [minimum]
  by_cases hwhole : f.primes.containsWhole = true
  · rw [if_pos hwhole]
    exact isSubcover_whole hf hwhole
  rw [if_neg hwhole]
  rcases htable : CoveringTable.ofCubes? f.primes.width f.primes.cubes with _ | table
  · exact isSubcover_irredundant hprimes
  · exact isSubcover_select hprimes htable
      (CoveringTable.solve_hits (hits_range hprimes htable))

theorem wellFormed_minimum (hf : f.WellFormed) : f.minimum.WellFormed :=
  (isSubcover_minimum hf).wellFormed (wellFormed_primes hf)

theorem width_minimum (hf : f.WellFormed) : f.minimum.width = f.width :=
  (isSubcover_minimum hf).width.trans (width_primes f)

theorem points_minimum (hf : f.WellFormed) : f.minimum.points = f.points :=
  (isSubcover_minimum hf).points.trans (points_primes hf)

theorem isPrime_of_mem_minimum (hf : f.WellFormed) {c : Cube} (hc : c ∈ f.minimum.cubes) :
    f.IsPrime c :=
  (mem_primes hf).mp ((isSubcover_minimum hf).mem c hc)

/-- Where a cover holds every row, its minimum asks for nothing. -/
theorem containsWhole_minimum (hf : f.WellFormed)
    (hall : ∀ point : List Bool, point.length = f.width → point ∈ f.points) :
    f.minimum.containsWhole = true := by
  have hprime : f.IsPrime (Cube.whole f.width) := by
    refine ⟨isImplicant_whole hall, fun d hd hproper ↦ hproper.2 fun point hpoint ↦ ?_⟩
    exact Cube.mem_points_whole.mpr (hpoint.1.trans hd.1)
  have hwhole : f.primes.containsWhole = true := List.any_eq_true.mpr
    ⟨_, (mem_primes hf).mpr hprime, Cube.isWhole_iff.mpr fun i ↦ Cube.column_whole _ i⟩
  rw [minimum, if_pos hwhole, containsWhole, cubes_ofList_singleton, List.any_cons,
    Cube.isWhole_iff.mpr fun i ↦ Cube.column_whole _ i, Bool.true_or]

/-- Where a cover holds no row, its minimum has no cube. -/
theorem cubes_minimum_eq_nil (hf : f.WellFormed) (hnone : ∀ point, point ∉ f.points) :
    f.minimum.cubes = [] := by
  refine List.eq_nil_iff_forall_not_mem.mpr fun c hc ↦ ?_
  exact hnone _ ((isPrime_of_mem_minimum hf hc).1.2 (c.corner_mem fun _ ↦ false))

/-- The number of cubes of a cover with their total number of literals. -/
def price (f : Cover) : Price :=
  ⟨f.cubes.length, f.literalCount⟩

/-- One cube without literals is dearer only than no cube at all, which has no points. -/
theorem price_whole_le (hf : f.WellFormed) (hwhole : f.primes.containsWhole = true)
    (hg : g.WellFormed) (hpoints : g.points = f.points) :
    (ofList f.width [Cube.whole f.width]).price ≤ g.price := by
  have hsub := isSubcover_whole hf hwhole
  have hcubes : g.cubes ≠ [] := by
    intro hempty
    have hzeros : List.replicate f.width false ∈ g.points := by
      rw [hpoints, ← points_primes hf, ← hsub.points]
      exact (mem_points_iff (hsub.wellFormed (wellFormed_primes hf))).mpr
        ⟨Cube.whole f.width, by simp [cubes_ofList_singleton],
          Cube.mem_points_whole.mpr List.length_replicate⟩
    rw [mem_points_iff hg, hempty] at hzeros
    simp at hzeros
  refine Price.le_of_components ?_ ?_
  · rw [price, cubes_ofList_singleton]
    exact List.length_pos_iff.mpr hcubes
  · rw [price, literalCount, cubes_ofList_singleton]
    simp

/-- No cover of the same points is cheaper than a minimum cover, if few enough columns of the primes
have literals. -/
theorem minimum_price_le (hf : f.WellFormed)
    (hfew : (CoveringTable.literalColumns f.width f.primes.cubes).length ≤ CoveringTable.maxColumns)
    (hg : g.WellFormed) (hwidth : g.width = f.width) (hpoints : g.points = f.points) :
    f.minimum.price ≤ g.price := by
  rw [minimum]
  by_cases hwhole : f.primes.containsWhole = true
  · rw [if_pos hwhole]
    exact price_whole_le hf hwhole hg hpoints
  rw [if_neg hwhole]
  rcases htable : CoveringTable.ofCubes? f.primes.width f.primes.cubes with _ | table
  · rw [CoveringTable.ofCubes?, width_primes, if_pos hfew] at htable
    cases htable
  · obtain ⟨positions, hhits, hprice⟩ := exists_hits_price_le hf hg hwidth hpoints htable
    have hfits := totalCost_solve_lt (wellFormed_primes hf) htable
    exact Price.le_trans (select_price_le (wellFormed_primes hf) htable)
      (Price.le_trans (CoveringTable.solve_price_le hfits hhits) hprice)

/-- The minimum cover of a cover whose primes have literals in at most sixteen columns holds the
same points, consists of primes, and is cheapest: no cover of these points by cubes of the width has
fewer cubes, or as many cubes and fewer literals. -/
theorem minimum_exact (hf : f.WellFormed)
    (hfew : (CoveringTable.literalColumns f.width f.primes.cubes).length ≤ 16) :
    f.minimum.width = f.width ∧ f.minimum.points = f.points ∧
      (∀ c ∈ f.minimum.cubes, f.IsPrime c) ∧
        ∀ g : Cover, g.WellFormed → g.width = f.width → g.points = f.points →
          f.minimum.cubes.length < g.cubes.length ∨
            f.minimum.cubes.length = g.cubes.length ∧ f.minimum.literalCount ≤ g.literalCount :=
  ⟨width_minimum hf, points_minimum hf, fun _ hc ↦ isPrime_of_mem_minimum hf hc,
    fun _ hg hwidth hpoints ↦ Price.le_iff.mp (minimum_price_le hf hfew hg hwidth hpoints)⟩

/-- Six points in four columns. -/
def sixPoints : Cover :=
  ofList 4 [⟨[some false, some true, some false, some false]⟩,
    ⟨[some true, some false, some false, some false]⟩,
    ⟨[some true, some false, some true, some false]⟩,
    ⟨[some true, some false, some true, some true]⟩,
    ⟨[some true, some true, some false, some false]⟩,
    ⟨[some true, some true, some true, some true]⟩]

/-- Every cover of the six points has at least three cubes, and the minimum has three. -/
theorem minimum_sixPoints : sixPoints.WellFormed ∧
    (CoveringTable.literalColumns sixPoints.width sixPoints.primes.cubes).length ≤ 16 ∧
      sixPoints.minimum.points = sixPoints.points ∧ sixPoints.minimum.cubes.length = 3 ∧
        ∀ g : Cover, g.WellFormed → g.width = sixPoints.width → g.points = sixPoints.points →
          3 ≤ g.cubes.length := by
  have hf : sixPoints.WellFormed := wellFormed_ofList (by decide)
  have hfew : (CoveringTable.literalColumns sixPoints.width sixPoints.primes.cubes).length ≤ 16 :=
    (List.length_filter_le _ _).trans (by decide)
  have hcount : sixPoints.minimum.cubes.length = 3 := by cbv
  obtain ⟨-, hpoints, -, hcheapest⟩ := minimum_exact hf hfew
  refine ⟨hf, hfew, hpoints, hcount, fun g hg hwidth hsame ↦ ?_⟩
  rcases hcheapest g hg hwidth hsame with hfewer | ⟨hequal, -⟩ <;> omega

end SwitchingAlgebra.Cover
