import Mathlib
import SwitchingAlgebra.Cover.Search
import SwitchingAlgebra.Proofs.CubePoints
import SwitchingAlgebra.Proofs.SortedLists

/-!
# The rows of a covering table

The points of a list of cubes are walked through column by column, and a column in which every cube
left is free is passed over. What the walk finds for a point are the positions of the cubes that
hold it.

Main statement: the rows of the table of a list of cubes are the sets of positions of the cubes that
hold a point, for the points that some cube holds (`mem_rows_iff`).
-/

set_option autoImplicit false
set_option relaxedAutoImplicit false

namespace SwitchingAlgebra.CoveringTable

/-- The positions of the cubes of a list that hold a point, in increasing order. -/
def holders (cubes : List Cube) (point : List Bool) : List Nat :=
  (((List.range cubes.length).zip cubes).filter fun (_, c) ↦ c.contains point).map (·.1)

/-- The numbers of the candidates that hold a point of the columns that are left. -/
def holding (candidates : Candidates) (point : List Bool) : List Nat :=
  (candidates.filter fun (_, columns) ↦ (Cube.mk columns).contains point).map (·.1)

theorem mem_holders {cubes : List Cube} {point : List Bool} {position : Nat} :
    position ∈ holders cubes point ↔ ∃ c, cubes[position]? = some c ∧ c.contains point = true := by
  have hzip : ∀ c, (position, c) ∈ (List.range cubes.length).zip cubes ↔
      cubes[position]? = some c := by
    intro c
    rw [List.mem_iff_getElem?]
    constructor
    · rintro ⟨i, hi⟩
      obtain ⟨hposition, hc⟩ := List.getElem?_zip_eq_some.mp hi
      obtain ⟨hlt, heq⟩ := List.getElem?_eq_some_iff.mp hposition
      rw [List.getElem_range] at heq
      rw [heq] at hc
      exact hc
    · intro hc
      obtain ⟨hlt, -⟩ := List.getElem?_eq_some_iff.mp hc
      exact ⟨position, List.getElem?_zip_eq_some.mpr ⟨List.getElem?_range hlt, hc⟩⟩
  simp only [holders, List.mem_map, List.mem_filter, Prod.exists, exists_and_right, exists_eq_right,
    hzip]

theorem holders_ne_nil_iff {cubes : List Cube} {point : List Bool} :
    holders cubes point ≠ [] ↔ ∃ c ∈ cubes, c.contains point = true := by
  rw [← List.isEmpty_eq_false_iff, List.isEmpty_eq_false_iff_exists_mem]
  simp only [mem_holders]
  constructor
  · rintro ⟨position, c, hc, hcontains⟩
    exact ⟨c, List.mem_of_getElem? hc, hcontains⟩
  · rintro ⟨c, hc, hcontains⟩
    obtain ⟨position, hposition⟩ := List.mem_iff_getElem?.mp hc
    exact ⟨position, c, hposition, hcontains⟩

theorem holding_zip_range (cubes : List Cube) (point : List Bool) :
    holding ((List.range cubes.length).zip (cubes.map Cube.columns)) point =
      holders cubes point := by
  rw [holding, holders, List.zip_map_right, List.filter_map, List.map_map]
  rfl

/-! ### The walk -/

theorem holding_cons (index : Nat) (columns : List Column) (rest : Candidates)
    (point : List Bool) : holding ((index, columns) :: rest) point =
      if (Cube.mk columns).contains point then index :: holding rest point
      else holding rest point := by
  rw [holding, List.filter_cons]
  dsimp only
  split_ifs <;> rfl

theorem taking_cons (value : Bool) (index : Nat) (column : Column) (others : List Column)
    (rest : Candidates) : taking value ((index, column :: others) :: rest) =
      if column.accepts value then (index, others) :: taking value rest
      else taking value rest := by
  have htakes : (column.accepts value || column.isNone) = column.accepts value := by
    cases column <;> simp [Column.accepts]
  rw [taking, List.filterMap_cons]
  simp only [List.headD_cons, List.tail_cons, htakes]
  split_ifs <;> rfl

/-- A point with a value in the next column is held by the candidates that take the value there and
hold the rest of it. -/
theorem holding_cons_point {candidates : Candidates} {columns : Nat}
    (hlength : ∀ candidate ∈ candidates, candidate.2.length = columns + 1) (value : Bool)
    (point : List Bool) :
    holding candidates (value :: point) = holding (taking value candidates) point := by
  induction candidates with
  | nil => rfl
  | cons candidate rest ih =>
    obtain ⟨index, _ | ⟨column, others⟩⟩ := candidate
    · simpa using hlength _ List.mem_cons_self
    have hrest := ih fun other hother ↦ hlength other (List.mem_cons_of_mem _ hother)
    have hcontains : (Cube.mk (column :: others)).contains (value :: point) =
        (column.accepts value && (Cube.mk others).contains point) := by
      simp [Cube.contains]
    rw [holding_cons, taking_cons, hcontains, hrest]
    cases column.accepts value with
    | false => simp
    | true => simp [holding_cons]

theorem taking_eq_of_isFree {candidates : Candidates} (hfree : isFree candidates = true)
    (value other : Bool) : taking value candidates = taking other candidates := by
  refine List.filterMap_congr fun candidate hcandidate ↦ ?_
  have hnone := List.all_eq_true.mp hfree candidate hcandidate
  dsimp only at hnone ⊢
  rw [hnone, Bool.or_true, Bool.or_true]

theorem length_of_mem_taking {candidates : Candidates} {columns : Nat}
    (hlength : ∀ candidate ∈ candidates, candidate.2.length = columns + 1) {value : Bool} :
    ∀ candidate ∈ taking value candidates, candidate.2.length = columns := by
  intro candidate hcandidate
  obtain ⟨other, hother, htaken⟩ := List.mem_filterMap.mp hcandidate
  dsimp only at htaken
  split_ifs at htaken
  cases htaken
  simp [hlength other hother]

theorem mem_incidences {row : List Nat} (columns : Nat) :
    ∀ {candidates : Candidates}, (∀ candidate ∈ candidates, candidate.2.length = columns) →
      (row ∈ incidences columns candidates ↔
        row ≠ [] ∧
          ∃ point : List Bool, point.length = columns ∧ row = holding candidates point) := by
  induction columns with
  | zero =>
    intro candidates hlength
    have hall : ∀ point, holding candidates point = candidates.map (·.1) := by
      intro point
      rw [holding, List.filter_eq_self.mpr]
      intro candidate hcandidate
      simp [Cube.contains, List.eq_nil_of_length_eq_zero (hlength candidate hcandidate)]
    rw [incidences]
    rcases candidates with _ | ⟨candidate, rest⟩
    · simp [holding]
    · simp only [List.isEmpty_cons, Bool.false_eq_true, if_false, List.mem_singleton, hall]
      constructor
      · rintro rfl
        exact ⟨by simp, [], rfl, rfl⟩
      · rintro ⟨-, -, -, rfl⟩
        rfl
  | succ columns ih =>
    intro candidates hlength
    have hrows : ∀ value, row ∈ incidences columns (taking value candidates) ↔
        row ≠ [] ∧ ∃ point : List Bool, point.length = columns ∧
          row = holding candidates (value :: point) := by
      intro value
      simp only [ih (length_of_mem_taking hlength), holding_cons_point hlength]
    have hcons : (row ≠ [] ∧ ∃ point : List Bool, point.length = columns + 1 ∧
          row = holding candidates point) ↔
        ∃ value, row ∈ incidences columns (taking value candidates) := by
      simp only [hrows]
      constructor
      · rintro ⟨hne, _ | ⟨value, point⟩, hpoint, hrow⟩
        · cases hpoint
        · exact ⟨value, hne, point, by simpa using hpoint, hrow⟩
      · rintro ⟨value, hne, point, hpoint, hrow⟩
        exact ⟨hne, value :: point, by simp [hpoint], hrow⟩
    rw [hcons, incidences]
    by_cases hempty : candidates = []
    · have hnone : ∀ columns, incidences columns [] = [] := by
        intro columns
        cases columns <;> rfl
      simp [hempty, taking, hnone]
    rw [if_neg (by simpa using hempty)]
    by_cases hfree : isFree candidates = true
    · rw [if_pos hfree]
      simp only [taking_eq_of_isFree hfree _ true, exists_const]
    · rw [if_neg hfree, List.mem_append, Bool.exists_bool]

/-! ### The table -/

section Table

variable {width : Nat} {cubes : List Cube} {table : CoveringTable}

/-- The rows of the table of a list of cubes. Assumes: cubes of the width of the table. -/
theorem mem_rows_iff (hwidth : ∀ c ∈ cubes, c.width = width)
    (htable : ofCubes? width cubes = some table) {row : List Nat} :
    row ∈ table.rows ↔
      row ≠ [] ∧ ∃ point : List Bool, point.length = width ∧ row = holders cubes point := by
  rw [ofCubes?] at htable
  split_ifs at htable
  cases htable
  have hlength : ∀ candidate ∈ (List.range cubes.length).zip (cubes.map Cube.columns),
      candidate.2.length = width := by
    rintro ⟨index, columns⟩ hcandidate
    obtain ⟨c, hc, rfl⟩ := List.mem_map.mp (List.of_mem_zip hcandidate).2
    exact hwidth c hc
  dsimp only
  rw [mem_sortDistinct, mem_incidences width hlength]
  simp only [holding_zip_range]

theorem mem_literalColumns {column : Nat} : column ∈ literalColumns width cubes ↔
    column < width ∧ ∃ c ∈ cubes, (c.column column).isSome = true := by
  rw [literalColumns, List.mem_filter, List.mem_range, List.any_eq_true]

theorem nodup_literalColumns (width : Nat) (cubes : List Cube) :
    (literalColumns width cubes).Nodup :=
  List.nodup_range.filter _

/-- A cube of a list has no more literals than there are columns with literals. -/
theorem literalCount_le_length_literalColumns (hwidth : ∀ c ∈ cubes, c.width = width) {c : Cube}
    (hc : c ∈ cubes) : c.literalCount ≤ (literalColumns width cubes).length := by
  have hcolumns : c.columns = (List.range width).map c.column := by
    rw [← hwidth c hc]
    refine List.ext_getElem (by simp [Cube.width]) fun i hi _ ↦ ?_
    simp [Cube.column, hi]
  rw [Cube.literalCount, hcolumns, List.countP_map, literalColumns, ← List.countP_eq_length_filter]
  refine List.countP_mono_left fun column _ hliteral ↦ ?_
  exact List.any_eq_true.mpr ⟨c, hc, hliteral⟩

theorem length_literalColumns_le (htable : ofCubes? width cubes = some table) :
    (literalColumns width cubes).length ≤ maxColumns := by
  by_contra hmany
  rw [ofCubes?, if_neg hmany] at htable
  cases htable

/-- The cost of a position is the number of literals of the cube there, which fits in a word. -/
theorem toNat_cost_eq_literalCount (hwidth : ∀ c ∈ cubes, c.width = width)
    (htable : ofCubes? width cubes = some table) {position : Nat} {c : Cube}
    (hc : cubes[position]? = some c) : (table.cost position).toNat = c.literalCount := by
  have hcount : c.literalCount ≤ maxColumns :=
    (literalCount_le_length_literalColumns hwidth (List.mem_of_getElem? hc)).trans
      (length_literalColumns_le htable)
  have hfits : c.literalCount < 2 ^ 64 := hcount.trans_lt (by decide)
  rw [ofCubes?] at htable
  split_ifs at htable
  cases htable
  obtain ⟨hlt, rfl⟩ := List.getElem?_eq_some_iff.mp hc
  simpa [cost, hlt] using hfits

theorem toNat_cost_le (hwidth : ∀ c ∈ cubes, c.width = width)
    (htable : ofCubes? width cubes = some table) (position : Nat) :
    (table.cost position).toNat ≤ maxColumns := by
  rcases hposition : cubes[position]? with _ | c
  · rw [ofCubes?] at htable
    split_ifs at htable
    cases htable
    simp [cost, List.getElem?_eq_none_iff.mp hposition]
  · rw [toNat_cost_eq_literalCount hwidth htable hposition]
    exact (literalCount_le_length_literalColumns hwidth (List.mem_of_getElem? hposition)).trans
      (length_literalColumns_le htable)

/-- There is no table exactly where too many columns have literals. -/
theorem ofCubes?_eq_none_iff :
    ofCubes? width cubes = none ↔ maxColumns < (literalColumns width cubes).length := by
  unfold ofCubes?
  split_ifs with hfew
  · simpa using hfew
  · simpa using hfew

theorem pairwise_rows (htable : ofCubes? width cubes = some table) :
    table.rows.Pairwise fun row other ↦ compare row other = .lt := by
  rw [ofCubes?] at htable
  split_ifs at htable
  cases htable
  exact pairwise_sortDistinct _

theorem nodup_rows (htable : ofCubes? width cubes = some table) : table.rows.Nodup :=
  nodup_of_pairwise_lt (pairwise_rows htable)

theorem costs_eq (htable : ofCubes? width cubes = some table) :
    table.costs = (cubes.map fun c ↦ .ofNat c.literalCount).toArray := by
  rw [ofCubes?] at htable
  split_ifs at htable
  cases htable
  rfl

end Table

end SwitchingAlgebra.CoveringTable
