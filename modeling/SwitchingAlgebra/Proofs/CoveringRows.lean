import Mathlib
import SwitchingAlgebra.Proofs.Incidence
import SwitchingAlgebra.Proofs.PackedCubes

/-!
# Covering tables are faithful

A point of the cubes of a list and a row of the columns with literals that has the same values there
lie in the same cubes, since the other columns ask for nothing. Every point has such a row and every
row such a point, so the sets of cubes that hold a point are found from the rows as well. A table
has therefore no more rows than there are words.

Main statement: `table_faithful`.
-/

set_option autoImplicit false
set_option relaxedAutoImplicit false

namespace SwitchingAlgebra.CoveringTable

variable {cubes : List Cube} {width : Nat} {columns : List Nat} {point : List Bool} {row : Word}

/-! ### Points and rows of words -/

/-- A row of the columns with literals has the values of a point there. -/
def Projects (columns : List Nat) (point : List Bool) (row : Word) : Prop :=
  ∀ i column, columns[i]? = some column → row.getLsbD i = point.getD column false

/-- Over the columns with literals a cube of a list has what it asks for in a point. -/
theorem contains_ofCube_of_projects (hwidth : ∀ c ∈ cubes, c.width = width)
    (hlength : point.length = width) (hbits : (literalColumns width cubes).length < 32)
    (hprojects : Projects (literalColumns width cubes) point row) {c : Cube} (hc : c ∈ cubes) :
    (PackedCube.ofCube (literalColumns width cubes) c).contains row = c.contains point := by
  obtain rfl := hwidth c hc
  rw [Bool.eq_iff_iff, PackedCube.contains_ofCube hbits.le, Cube.contains_iff hlength]
  constructor
  · intro hall column
    by_cases hliteral : (c.column column).isSome = true
    · have hlt : column < c.width := by
        by_contra hge
        rw [Cube.column_eq_none (Nat.le_of_not_lt hge)] at hliteral
        cases hliteral
      obtain ⟨i, hi⟩ := List.mem_iff_getElem?.mp (mem_literalColumns.mpr ⟨hlt, c, hc, hliteral⟩)
      rw [← hprojects i column hi]
      exact hall i column hi
    · rw [Option.not_isSome_iff_eq_none.mp hliteral]
      rfl
  · intro hall i column hi
    rw [hprojects i column hi]
    exact hall column

/-- The positions of the packed cubes that contain a row are those of the cubes that hold a point
with the values of the row. -/
theorem packedHolders_of_projects (hwidth : ∀ c ∈ cubes, c.width = width)
    (hlength : point.length = width) (hbits : (literalColumns width cubes).length < 32)
    (hprojects : Projects (literalColumns width cubes) point row) :
    packedHolders (cubes.map (PackedCube.ofCube (literalColumns width cubes))) row =
      holders cubes point := by
  rw [packedHolders, holders, List.length_map, List.zip_map_right, List.filter_map, List.map_map]
  congr 1
  refine List.filter_congr ?_
  rintro ⟨position, c⟩ hc
  exact contains_ofCube_of_projects hwidth hlength hbits hprojects (List.of_mem_zip hc).2

/-- Every point has a row of the columns with literals. -/
theorem exists_row_projects (hlength : point.length = width)
    (hcolumns : ∀ column ∈ columns, column < width) (hbits : columns.length < 32) :
    ∃ row : Word, row &&& Word.firstColumns columns.length = row ∧ Projects columns point row := by
  refine ⟨(PackedCube.ofCube columns ⟨point.map some⟩).value, ?_, fun i column hi ↦ ?_⟩
  · rw [← PackedCube.value_ofCube_and hbits.le, BitVec.and_assoc, PackedCube.mask_ofCube_and hbits]
  · have hlt : column < point.length := hlength ▸ hcolumns column (List.mem_of_getElem? hi)
    rw [(PackedCube.getLsbD_ofCube hbits.le i).2, hi, Option.any_some, Cube.column]
    simp [List.getD_eq_getElem?_getD, hlt]

/-- Every row of some columns has a point. -/
theorem exists_point_projects (width : Nat) (hnodup : columns.Nodup)
    (hcolumns : ∀ column ∈ columns, column < width) (row : Word) :
    ∃ point : List Bool, point.length = width ∧ Projects columns point row := by
  refine ⟨(List.range width).map fun column ↦ row.getLsbD (columns.idxOf column), by simp,
    fun i column hi ↦ ?_⟩
  obtain ⟨hlt, rfl⟩ := List.getElem?_eq_some_iff.mp hi
  have hwidth := hcolumns _ (List.getElem_mem hlt)
  simp [List.getD_eq_getElem?_getD, hwidth, hnodup.idxOf_getElem]

/-! ### The table -/

/-- The rows of the packed cubes of a list: those that some cube contains. -/
theorem mem_flatMap_rows_iff (hbits : columns.length < 32) :
    row ∈ (cubes.map (PackedCube.ofCube columns)).flatMap
        (PackedCube.rows · (Word.firstColumns columns.length)) ↔
      row &&& Word.firstColumns columns.length = row ∧
        ∃ c ∈ cubes, (PackedCube.ofCube columns c).contains row = true := by
  have hrows : ∀ c, row ∈ (PackedCube.ofCube columns c).rows (Word.firstColumns columns.length) ↔
      (PackedCube.ofCube columns c).contains row = true ∧
        row &&& Word.firstColumns columns.length = row := fun c ↦
    PackedCube.mem_rows_iff (PackedCube.mask_ofCube_and hbits)
      (PackedCube.value_ofCube_and hbits.le)
  rw [List.flatMap_map, List.mem_flatMap]
  simp only [hrows]
  tauto

/-- The sets of positions of the packed cubes that contain a row are those of the cubes that hold a
point. -/
theorem mem_map_packedHolders_iff (hwidth : ∀ c ∈ cubes, c.width = width)
    (hbits : (literalColumns width cubes).length < 32) {positions : List Nat} :
    (∃ row : Word, (row &&& Word.firstColumns (literalColumns width cubes).length = row ∧
        ∃ c ∈ cubes, (PackedCube.ofCube (literalColumns width cubes) c).contains row = true) ∧
      packedHolders (cubes.map (PackedCube.ofCube (literalColumns width cubes))) row = positions) ↔
      positions ≠ [] ∧
        ∃ point : List Bool, point.length = width ∧ positions = holders cubes point := by
  have hcolumns : ∀ column ∈ literalColumns width cubes, column < width := fun column hcolumn ↦
    (mem_literalColumns.mp hcolumn).1
  constructor
  · rintro ⟨row, ⟨-, c, hc, hrow⟩, rfl⟩
    obtain ⟨point, hlength, hprojects⟩ :=
      exists_point_projects width (nodup_literalColumns width cubes) hcolumns row
    rw [packedHolders_of_projects hwidth hlength hbits hprojects]
    rw [contains_ofCube_of_projects hwidth hlength hbits hprojects hc] at hrow
    exact ⟨holders_ne_nil_iff.mpr ⟨c, hc, hrow⟩, point, hlength, rfl⟩
  · rintro ⟨hne, point, hlength, rfl⟩
    obtain ⟨c, hc, hpoint⟩ := holders_ne_nil_iff.mp hne
    obtain ⟨row, hrow, hprojects⟩ := exists_row_projects hlength hcolumns hbits
    rw [← contains_ofCube_of_projects hwidth hlength hbits hprojects hc] at hpoint
    exact ⟨row, ⟨hrow, c, hc, hpoint⟩, packedHolders_of_projects hwidth hlength hbits hprojects⟩

/-- The table of the packed cubes of a list is the table of the list. Assumes: cubes of one
width. -/
theorem ofPackedCubes?_eq (hwidth : ∀ c ∈ cubes, c.width = width) :
    ofPackedCubes? cubes = ofCubes? width cubes := by
  have hcolumns : literalColumns ((cubes.head?.map Cube.width).getD 0) cubes =
      literalColumns width cubes := by
    rcases cubes with _ | ⟨c, rest⟩
    · simp [literalColumns]
    · rw [List.head?_cons, Option.map_some, Option.getD_some, hwidth c List.mem_cons_self]
  unfold ofPackedCubes? ofCubes?
  simp only [hcolumns]
  split_ifs with hfew
  · have hbits : (literalColumns width cubes).length < 32 := hfew.trans_lt (by decide)
    have htable : ofCubes? width cubes = some ⟨_, _⟩ := if_pos hfew
    congr 2
    refine eq_of_pairwise_of_mem_iff asymm_of_orientedCmp (pairwise_sortDistinct _)
      (pairwise_sortDistinct _) fun positions ↦ .trans ?_ (mem_rows_iff hwidth htable).symm
    rw [mem_sortDistinct, List.mem_map]
    simp only [mem_sortDistinct, mem_flatMap_rows_iff hbits]
    exact mem_map_packedHolders_iff hwidth hbits
  · rfl

/-- A table has no more rows than there are words of 32 bits. -/
theorem length_rows_le (hwidth : ∀ c ∈ cubes, c.width = width) {table : CoveringTable}
    (htable : ofCubes? width cubes = some table) : table.rows.length ≤ 2 ^ 32 := by
  have hbits : (literalColumns width cubes).length < 32 :=
    (length_literalColumns_le htable).trans_lt (by decide)
  have hsubset : table.rows ⊆ (List.range (2 ^ 32)).map fun n ↦
      packedHolders (cubes.map (PackedCube.ofCube (literalColumns width cubes))) (.ofNat 32 n) := by
    intro positions hpositions
    obtain ⟨row, -, rfl⟩ := (mem_map_packedHolders_iff hwidth hbits).mpr
      ((mem_rows_iff hwidth htable).mp hpositions)
    exact List.mem_map.mpr ⟨row.toNat, List.mem_range.mpr row.isLt, by rw [BitVec.ofNat_toNat,
      BitVec.setWidth_eq]⟩
  have hlength := ((nodup_rows htable).subperm hsubset).length_le
  rwa [List.length_map, List.length_range] at hlength

/-! ### What the table says -/

/-- The increasing list of positions of the cubes that hold a point. -/
structure IsIncidence (cubes : List Cube) (point : List Bool) (row : List Nat) : Prop where
  increasing : row.Pairwise (· < ·)
  mem_iff : ∀ position, position ∈ row ↔ ∃ c, cubes[position]? = some c ∧ point ∈ c.points

theorem pairwise_holders (cubes : List Cube) (point : List Bool) :
    (holders cubes point).Pairwise (· < ·) := by
  have hsublist : (holders cubes point).Sublist (((List.range cubes.length).zip cubes).map (·.1)) :=
    List.filter_sublist.map _
  rw [List.map_fst_zip (by simp)] at hsublist
  exact List.pairwise_lt_range.sublist hsublist

theorem isIncidence_iff (hwidth : ∀ c ∈ cubes, c.width = width) (hlength : point.length = width)
    {positions : List Nat} :
    IsIncidence cubes point positions ↔ positions = holders cubes point := by
  have hholds : ∀ position, position ∈ holders cubes point ↔
      ∃ c, cubes[position]? = some c ∧ point ∈ c.points := by
    intro position
    rw [mem_holders]
    refine exists_congr fun c ↦ and_congr_right fun hc ↦ ?_
    exact (and_iff_right (hlength.trans (hwidth c (List.mem_of_getElem? hc)).symm)).symm
  constructor
  · intro hincidence
    refine eq_of_pairwise_of_mem_iff (fun _ _ ↦ Nat.lt_asymm) hincidence.increasing
      (pairwise_holders cubes point) fun position ↦ ?_
    rw [hincidence.mem_iff, hholds]
  · rintro rfl
    exact ⟨pairwise_holders cubes point, hholds⟩

/-- The rows of the table of a list of cubes are the sets of the cubes that hold a point, for the
points that some cube holds. -/
theorem mem_rows_iff_isIncidence (hwidth : ∀ c ∈ cubes, c.width = width) {table : CoveringTable}
    (htable : ofCubes? width cubes = some table) {positions : List Nat} :
    positions ∈ table.rows ↔
      ∃ point : List Bool, (∃ c ∈ cubes, point ∈ c.points) ∧ IsIncidence cubes point positions := by
  rw [mem_rows_iff hwidth htable]
  constructor
  · rintro ⟨hne, point, hlength, rfl⟩
    obtain ⟨c, hc, hcontains⟩ := holders_ne_nil_iff.mp hne
    exact ⟨point, ⟨c, hc, hlength.trans (hwidth c hc).symm, hcontains⟩,
      (isIncidence_iff hwidth hlength).mpr rfl⟩
  · rintro ⟨point, ⟨c, hc, hpoint⟩, hincidence⟩
    have hlength : point.length = width := hpoint.1.trans (hwidth c hc)
    obtain rfl := (isIncidence_iff hwidth hlength).mp hincidence
    exact ⟨holders_ne_nil_iff.mpr ⟨c, hc, hpoint.2⟩, point, hlength, rfl⟩

theorem card_columns_with_literals (width : Nat) (cubes : List Cube) :
    ((Finset.range width).filter fun column ↦ ∃ c ∈ cubes, c.column column ≠ none).card =
      (literalColumns width cubes).length := by
  rw [← List.toFinset_card_of_nodup (nodup_literalColumns width cubes)]
  congr 1
  ext column
  simp only [Finset.mem_filter, Finset.mem_range, List.mem_toFinset, mem_literalColumns,
    Option.isSome_iff_ne_none]

/-- Cubes of one width have a table unless more than sixteen columns have literals, and it is the
same whether the points are found column by column or as words. Its rows are the distinct sets of
positions of the cubes that hold a point, for all points that some cube holds. So some of the cubes
hold all these points exactly when every row has one of their positions. -/
theorem table_faithful (hwidth : ∀ c ∈ cubes, c.width = width) :
    ofPackedCubes? cubes = ofCubes? width cubes ∧
    (ofCubes? width cubes = none ↔
      16 < ((Finset.range width).filter fun column ↦ ∃ c ∈ cubes, c.column column ≠ none).card) ∧
    ∀ table, ofCubes? width cubes = some table →
      table.rows.Nodup ∧
      (∀ row, row ∈ table.rows ↔
        ∃ point : List Bool, (∃ c ∈ cubes, point ∈ c.points) ∧ IsIncidence cubes point row) ∧
      ∀ selected : Set Nat,
        (∀ c ∈ cubes, ∀ point ∈ c.points, ∃ position ∈ selected, ∃ d,
          cubes[position]? = some d ∧ point ∈ d.points) ↔
        ∀ row ∈ table.rows, ∃ position ∈ selected, position ∈ row := by
  refine ⟨ofPackedCubes?_eq hwidth, ?_, fun table htable ↦
    ⟨?_, fun _ ↦ mem_rows_iff_isIncidence hwidth htable, fun selected ↦ ?_⟩⟩
  · rw [card_columns_with_literals]
    exact ofCubes?_eq_none_iff
  · exact nodup_rows htable
  · simp only [mem_rows_iff_isIncidence hwidth htable]
    constructor
    · rintro hall row ⟨point, ⟨c, hc, hpoint⟩, hrow⟩
      obtain ⟨position, hposition, hholds⟩ := hall c hc point hpoint
      exact ⟨position, hposition, (hrow.mem_iff position).mpr hholds⟩
    · intro hall c hc point hpoint
      have hrow := (isIncidence_iff hwidth (hpoint.1.trans (hwidth c hc))).mpr rfl
      obtain ⟨position, hposition, hin⟩ := hall _ ⟨point, ⟨c, hc, hpoint⟩, hrow⟩
      exact ⟨position, hposition, (hrow.mem_iff position).mp hin⟩

/-- Four cubes of four columns, the third of which is without literals. -/
def fourCubes : List Cube :=
  [⟨[some true, some true, none, none]⟩, ⟨[some false, none, none, some true]⟩,
    ⟨[none, some true, none, some true]⟩, ⟨[some false, some false, none, none]⟩]

/-- No point lies in the third of the four cubes alone. -/
theorem table_faithful_fourCubes : (∀ c ∈ fourCubes, c.width = 4) ∧
    ofPackedCubes? fourCubes = some ⟨[[0], [0, 2], [1, 2], [1, 3], [3]], #[2, 2, 2, 2]⟩ ∧
    (∃ point : List Bool, (∃ c ∈ fourCubes, point ∈ c.points) ∧
      IsIncidence fourCubes point [1, 3]) ∧
    ∀ c ∈ fourCubes, ∀ point ∈ c.points, ∃ position ∈ ({0, 1, 3} : Set Nat), ∃ d,
      fourCubes[position]? = some d ∧ point ∈ d.points := by
  have hwidth : ∀ c ∈ fourCubes, c.width = 4 := by decide
  have htable : ofCubes? 4 fourCubes =
      some ⟨[[0], [0, 2], [1, 2], [1, 3], [3]], #[2, 2, 2, 2]⟩ := by cbv
  obtain ⟨hpacked, -, hfaithful⟩ := table_faithful hwidth
  obtain ⟨-, hrows, hselected⟩ := hfaithful _ htable
  exact ⟨hwidth, hpacked.trans htable, (hrows [1, 3]).mp (by simp), (hselected _).mpr (by simp)⟩

end SwitchingAlgebra.CoveringTable
