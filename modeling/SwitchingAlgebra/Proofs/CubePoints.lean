import Mathlib
import SwitchingAlgebra.Cube

/-!
# Cubes and their points

The points of a cube over a number of columns are the rows of that many truth values that have what
it asks for. A cube is determined by what it asks for in each column, and every operation on two
cubes works on one column at a time.

Main statements: one cube lies within another exactly when it asks for at least as much in every
column (`points_subset_iff`), `strictlyContains` decides proper containment of the points
(`strictlyContains_iff`), and two cubes of one width with the same points are equal
(`eq_of_points_eq`).
-/

set_option autoImplicit false
set_option relaxedAutoImplicit false

namespace SwitchingAlgebra

namespace Column

/-! ### Single columns -/

@[simp]
theorem meet?_none (c : Column) : c.meet? none = some c := by
  cases c <;> rfl

@[simp]
theorem none_meet? (c : Column) : meet? none c = some c := by
  cases c <;> rfl

theorem meet?_eq_none_iff {c d : Column} :
    c.meet? d = none ↔ ∃ value, c = some value ∧ d = some (!value) := by
  rcases c with _ | _ | _ <;> rcases d with _ | _ | _ <;> simp [meet?]

/-- Two columns together accept what both accept. -/
theorem accepts_of_meet?_eq_some {c d e : Column} (hmeet : c.meet? d = some e) (value : Bool) :
    e.accepts value = (c.accepts value && d.accepts value) := by
  rcases c with _ | _ | _ <;> rcases d with _ | _ | _ <;> cases value <;>
    simp_all [meet?, accepts]

theorem allows_iff {c d : Column} : c.allows d = true ↔ c = none ∨ c = d := by
  rcases c with _ | _ | _ <;> rcases d with _ | _ | _ <;> simp [allows]

/-- Columns that allow one column do not conflict, and together they still allow it. -/
theorem exists_meet?_of_allows {c d e : Column} (hfirst : c.allows e = true)
    (hsecond : d.allows e = true) : ∃ both, c.meet? d = some both ∧ both.allows e = true := by
  rcases c with _ | value
  · exact ⟨d, none_meet? d, hsecond⟩
  · obtain rfl : some value = e := (allows_iff.mp hfirst).resolve_left (by simp)
    rcases allows_iff.mp hsecond with rfl | rfl
    · exact ⟨some value, meet?_none _, hfirst⟩
    · exact ⟨some value, by simp [meet?], hfirst⟩

theorem accepts_getD (c : Column) (value : Bool) : c.accepts (c.getD value) = true := by
  rcases c with _ | _ | _ <;> simp [accepts]

/-- What one column allows accepts no more than the column. -/
theorem accepts_of_allows {c d : Column} (hallows : c.allows d = true) {value : Bool}
    (haccepts : d.accepts value = true) : c.accepts value = true := by
  rcases allows_iff.mp hallows with rfl | rfl
  · rfl
  · exact haccepts

theorem allows_some_of_accepts {c : Column} {value : Bool} (haccepts : c.accepts value = true) :
    c.allows (some value) = true := by
  rcases c with _ | other
  · rfl
  · obtain rfl : other = value := by simpa [accepts] using haccepts
    exact allows_iff.mpr (.inr rfl)

theorem allows_refl (c : Column) : c.allows c = true :=
  allows_iff.mpr (.inr rfl)

theorem allows_antisymm {c d : Column} (hfirst : c.allows d = true) (hsecond : d.allows c = true) :
    c = d := by
  rcases allows_iff.mp hfirst with rfl | rfl
  · rcases allows_iff.mp hsecond with rfl | h
    · rfl
    · exact h.symm
  · rfl

end Column

namespace Cube

/-! ### Lists of columns -/

theorem allowsAll_iff {cs : List Column} :
    ∀ {ds : List Column}, cs.length = ds.length →
      (allowsAll cs ds = true ↔ ∀ i, (cs.getD i none).allows (ds.getD i none) = true) := by
  induction cs with
  | nil => intro ds _; simp [allowsAll, Column.allows]
  | cons c cs ih =>
    intro ds hlength
    cases ds with
    | nil => simp at hlength
    | cons d ds =>
      rw [allowsAll, Bool.and_eq_true, ih (by simpa using hlength)]
      constructor
      · rintro ⟨hhead, htail⟩ (_ | i)
        · exact hhead
        · exact htail i
      · exact fun hall ↦ ⟨hall 0, fun i ↦ hall (i + 1)⟩

theorem freerSomewhere_iff {cs : List Column} :
    ∀ {ds : List Column}, cs.length = ds.length →
      (freerSomewhere cs ds = true ↔ ∃ i, cs.getD i none = none ∧ ds.getD i none ≠ none) := by
  induction cs with
  | nil =>
    intro ds hlength
    obtain rfl := List.eq_nil_of_length_eq_zero hlength.symm
    simp [freerSomewhere]
  | cons c cs ih =>
    intro ds hlength
    cases ds with
    | nil => simp at hlength
    | cons d ds =>
      rw [freerSomewhere, Bool.or_eq_true, ih (by simpa using hlength), Bool.and_eq_true,
        Option.isNone_iff_eq_none, Option.isSome_iff_ne_none]
      constructor
      · rintro (hhead | ⟨i, htail⟩)
        · exact ⟨0, hhead⟩
        · exact ⟨i + 1, htail⟩
      · rintro ⟨_ | i, hi⟩
        · exact .inl hi
        · exact .inr ⟨i, hi⟩

theorem conflicts_eq_zero_iff {cs : List Column} :
    ∀ {ds : List Column},
      conflicts cs ds = 0 ↔ ∀ i, (cs.getD i none).meet? (ds.getD i none) ≠ none := by
  induction cs with
  | nil => intro ds; simp [conflicts]
  | cons c cs ih =>
    intro ds
    cases ds with
    | nil => simp [conflicts]
    | cons d ds =>
      have hcount : (if (c.meet? d).isNone then 1 else 0) = 0 ↔ c.meet? d ≠ none := by
        cases c.meet? d <;> simp
      rw [conflicts, Nat.add_eq_zero_iff, hcount, ih]
      constructor
      · rintro ⟨hhead, htail⟩ (_ | i)
        · exact hhead
        · exact htail i
      · exact fun hall ↦ ⟨hall 0, fun i ↦ hall (i + 1)⟩

/-- Two lists of columns conflict at most once exactly when no two columns conflict. -/
theorem conflicts_le_one_iff {cs : List Column} :
    ∀ {ds : List Column}, conflicts cs ds ≤ 1 ↔
      ∀ i j, (cs.getD i none).meet? (ds.getD i none) = none →
        (cs.getD j none).meet? (ds.getD j none) = none → i = j := by
  induction cs with
  | nil => intro ds; simp [conflicts]
  | cons c cs ih =>
    intro ds
    cases ds with
    | nil => simp [conflicts]
    | cons d ds =>
      by_cases hhead : c.meet? d = none
      · have hcount : conflicts (c :: cs) (d :: ds) ≤ 1 ↔ conflicts cs ds = 0 := by
          rw [conflicts, if_pos (by simp [hhead])]
          omega
        rw [hcount, conflicts_eq_zero_iff]
        constructor
        · rintro hrest (_ | i) (_ | j) hi hj
          · rfl
          · exact absurd hj (hrest j)
          · exact absurd hi (hrest i)
          · exact absurd hi (hrest i)
        · intro hall i hi
          exact absurd (hall 0 (i + 1) hhead hi) (by omega)
      · have hcount : conflicts (c :: cs) (d :: ds) = conflicts cs ds := by
          rw [conflicts, if_neg (by simpa using hhead), Nat.zero_add]
        rw [hcount, ih]
        constructor
        · rintro hrest (_ | i) (_ | j) hi hj
          · rfl
          · exact absurd hi hhead
          · exact absurd hj hhead
          · exact congrArg _ (hrest i j hi hj)
        · intro hall i j hi hj
          exact Nat.succ_injective (hall (i + 1) (j + 1) hi hj)

theorem acceptsAll_iff {cs : List Column} :
    ∀ {values : List Bool}, values.length = cs.length →
      (((cs.zip values).all fun (column, value) ↦ column.accepts value) = true ↔
        ∀ i, (cs.getD i none).accepts (values.getD i false) = true) := by
  induction cs with
  | nil => intro values _; simp [Column.accepts]
  | cons column cs ih =>
    intro values hlength
    cases values with
    | nil => simp at hlength
    | cons value values =>
      rw [List.zip_cons_cons, List.all_cons, Bool.and_eq_true, ih (by simpa using hlength)]
      constructor
      · rintro ⟨hhead, htail⟩ (_ | i)
        · exact hhead
        · exact htail i
      · exact fun hall ↦ ⟨hall 0, fun i ↦ hall (i + 1)⟩

/-- Columns that allow others ask for a value in no more places. -/
theorem countP_isSome_le {cs : List Column} :
    ∀ {ds : List Column}, cs.length = ds.length →
      (∀ i, (ds.getD i none).allows (cs.getD i none) = true) →
        ds.countP Option.isSome ≤ cs.countP Option.isSome := by
  induction cs with
  | nil =>
    intro ds hlength _
    obtain rfl := List.eq_nil_of_length_eq_zero hlength.symm
    exact le_rfl
  | cons c cs ih =>
    intro ds hlength hallows
    cases ds with
    | nil => simp at hlength
    | cons d ds =>
      have htail := ih (by simpa using hlength) fun i ↦ hallows (i + 1)
      have hhead : d.isSome = true → c.isSome = true := by
        intro hsome
        rcases Column.allows_iff.mp (hallows 0) with hnone | hequal
        · obtain rfl : d = none := hnone
          cases hsome
        · obtain rfl : d = c := hequal
          exact hsome
      rw [List.countP_cons, List.countP_cons]
      split_ifs with hd hc
      · omega
      · exact absurd (hhead hd) hc
      · omega
      · omega

theorem length_meetDropping {cs : List Column} :
    ∀ {ds : List Column}, (meetDropping cs ds).length = min cs.length ds.length := by
  induction cs with
  | nil => intro ds; simp [meetDropping]
  | cons c cs ih =>
    intro ds
    cases ds with
    | nil => simp [meetDropping]
    | cons d ds => simp [meetDropping, ih]

theorem getD_meetDropping {cs : List Column} :
    ∀ {ds : List Column}, cs.length = ds.length → ∀ i,
      (meetDropping cs ds).getD i none = ((cs.getD i none).meet? (ds.getD i none)).getD none := by
  induction cs with
  | nil =>
    intro ds hlength i
    simp [meetDropping, List.eq_nil_of_length_eq_zero hlength.symm]
  | cons c cs ih =>
    intro ds hlength i
    cases ds with
    | nil => simp at hlength
    | cons d ds =>
      cases i with
      | zero => rfl
      | succ i => exact ih (by simpa using hlength) i

/-- The columns of an intersection are those in which nothing had to be dropped. -/
theorem meetAll?_eq {cs : List Column} :
    ∀ {ds : List Column},
      meetAll? cs ds = if conflicts cs ds = 0 then some (meetDropping cs ds) else none := by
  induction cs with
  | nil => intro ds; simp [meetAll?, conflicts, meetDropping]
  | cons c cs ih =>
    intro ds
    cases ds with
    | nil => simp [meetAll?, conflicts, meetDropping]
    | cons d ds =>
      rw [meetAll?, conflicts, meetDropping, ih]
      cases c.meet? d with
      | none => simp
      | some column => by_cases hrest : conflicts cs ds = 0 <;> simp [hrest]

/-- Restricted columns are free where the other list asks for a value. -/
theorem restrictAll?_eq {cs : List Column} :
    ∀ {ps : List Column}, restrictAll? cs ps =
      if conflicts cs ps = 0 then some (List.zipWith (fun c p ↦ if p.isSome then none else c) cs ps)
      else none := by
  induction cs with
  | nil => intro ps; simp [restrictAll?, conflicts]
  | cons c cs ih =>
    intro ps
    cases ps with
    | nil => simp [restrictAll?, conflicts]
    | cons p ps =>
      rw [restrictAll?, conflicts, ih]
      by_cases hhead : (c.meet? p).isNone
      · simp [hhead]
      · by_cases hrest : conflicts cs ps = 0 <;> simp [hhead, hrest]

/-! ### Columns of a cube -/

theorem column_eq_none {c : Cube} {i : Nat} (hi : c.width ≤ i) : c.column i = none :=
  List.getD_eq_default _ _ hi

theorem ext_column {c d : Cube} (hwidth : c.width = d.width)
    (hcolumns : ∀ i, c.column i = d.column i) : c = d := by
  obtain ⟨cs⟩ := c
  obtain ⟨ds⟩ := d
  refine congrArg Cube.mk (List.ext_getElem hwidth fun i hc hd ↦ ?_)
  have hi := hcolumns i
  rwa [column, column, List.getD_eq_getElem _ _ hc, List.getD_eq_getElem _ _ hd] at hi

theorem isWhole_iff {c : Cube} : c.isWhole = true ↔ ∀ i, c.column i = none := by
  rw [isWhole, List.all_eq_true]
  constructor
  · intro hall i
    by_cases hi : i < c.width
    · rw [column, List.getD_eq_getElem _ _ hi]
      exact Option.isNone_iff_eq_none.mp (hall _ (List.getElem_mem hi))
    · exact column_eq_none (Nat.le_of_not_lt hi)
  · intro hnone column hmem
    obtain ⟨i, hi, rfl⟩ := List.mem_iff_getElem.mp hmem
    have hcolumn := hnone i
    rw [Cube.column, List.getD_eq_getElem _ _ hi] at hcolumn
    exact Option.isNone_iff_eq_none.mpr hcolumn

@[simp]
theorem width_whole (width : Nat) : (whole width).width = width :=
  List.length_replicate

@[simp]
theorem column_whole (width i : Nat) : (whole width).column i = none := by
  rw [whole, column, List.getD_eq_getElem?_getD, List.getElem?_getD_replicate_default_eq]

/-! ### Points -/

/-- The points of a cube: the rows of its width that have what it asks for. -/
def points (c : Cube) : Set (List Bool) :=
  {point | point.length = c.width ∧ c.contains point = true}

/-- A row has what a cube of its length asks for when every value is what its column asks for. -/
theorem contains_iff {c : Cube} {point : List Bool} (hlength : point.length = c.width) :
    c.contains point = true ↔ ∀ i, (c.column i).accepts (point.getD i false) = true :=
  acceptsAll_iff hlength

theorem mem_points_iff {c : Cube} {point : List Bool} :
    point ∈ c.points ↔ point.length = c.width ∧
      ∀ i, (c.column i).accepts (point.getD i false) = true :=
  and_congr_right contains_iff

/-- The point of a cube that has the given values in its free columns. -/
def corner (c : Cube) (values : Nat → Bool) : List Bool :=
  (List.range c.width).map fun i ↦ (c.column i).getD (values i)

theorem getD_corner {c : Cube} (values : Nat → Bool) {i : Nat} (hi : i < c.width) :
    (c.corner values).getD i false = (c.column i).getD (values i) := by
  rw [corner, List.getD_eq_getElem _ _ (by simpa using hi)]
  simp

theorem corner_mem (c : Cube) (values : Nat → Bool) : c.corner values ∈ c.points := by
  refine mem_points_iff.mpr ⟨by simp [corner], fun i ↦ ?_⟩
  by_cases hi : i < c.width
  · rw [getD_corner values hi]
    exact Column.accepts_getD _ _
  · rw [column_eq_none (Nat.le_of_not_lt hi)]
    rfl

/-- A cube lies within another of its width exactly when the other asks for nothing that it does not
ask for. -/
theorem points_subset_iff {c d : Cube} (hwidth : c.width = d.width) :
    c.points ⊆ d.points ↔ ∀ i, (d.column i).allows (c.column i) = true := by
  constructor
  · intro hsubset i
    rcases hd : d.column i with _ | value
    · exact Column.allows_iff.mpr (.inl rfl)
    · have hi : i < c.width := by
        by_contra hi
        rw [column_eq_none (by omega)] at hd
        cases hd
      -- The corner that avoids the value of `d` wherever `c` leaves it free.
      have haccepts := (mem_points_iff.mp (hsubset (c.corner_mem fun _ ↦ !value))).2 i
      rw [getD_corner _ hi, hd] at haccepts
      refine Column.allows_iff.mpr (.inr ?_)
      cases hc : c.column i with
      | none => simp [hc, Column.accepts] at haccepts
      | some other =>
        have hvalue : value = other := by simpa [hc, Column.accepts] using haccepts
        rw [hvalue]
  · intro hallows point hpoint
    have ⟨hlength, haccepts⟩ := mem_points_iff.mp hpoint
    exact mem_points_iff.mpr
      ⟨hlength.trans hwidth, fun i ↦ Column.accepts_of_allows (hallows i) (haccepts i)⟩

theorem eq_of_points_eq {c d : Cube} (hwidth : c.width = d.width) (hpoints : c.points = d.points) :
    c = d :=
  ext_column hwidth fun i ↦ Column.allows_antisymm
    ((points_subset_iff hwidth.symm).mp hpoints.symm.subset i)
    ((points_subset_iff hwidth).mp hpoints.subset i)

/-- Cubes that ask for opposite values in some column have no common point. -/
theorem disjoint_points_of_conflict {c d : Cube} {i : Nat}
    (hconflict : (c.column i).meet? (d.column i) = none) : Disjoint c.points d.points := by
  obtain ⟨value, hc, hd⟩ := Column.meet?_eq_none_iff.mp hconflict
  refine Set.disjoint_left.mpr fun point hpointc hpointd ↦ ?_
  have hcvalue := (mem_points_iff.mp hpointc).2 i
  have hdvalue := (mem_points_iff.mp hpointd).2 i
  rw [hc] at hcvalue
  rw [hd] at hdvalue
  revert hcvalue hdvalue
  cases value <;> simp [Column.accepts]

theorem exists_conflict_of_distance_ne_zero {c d : Cube} (hdistance : c.distance d ≠ 0) :
    ∃ i, (c.column i).meet? (d.column i) = none := by
  rw [distance, Ne, conflicts_eq_zero_iff] at hdistance
  push Not at hdistance
  exact hdistance

/-- The points of the cube that asks for nothing are all rows of its width. -/
theorem mem_points_whole {width : Nat} {point : List Bool} :
    point ∈ (whole width).points ↔ point.length = width := by
  simp [mem_points_iff, Column.accepts]

theorem isWhole_iff_eq {c : Cube} : c.isWhole = true ↔ c = whole c.width := by
  constructor
  · exact fun hwhole ↦ ext_column (by simp) fun i ↦ by simp [isWhole_iff.mp hwhole i]
  · intro heq
    rw [heq]
    exact isWhole_iff.mpr fun i ↦ by simp

/-! ### Fixing a column -/

/-- A cube that asks for a value in one column and otherwise for what another cube asks for. -/
def fix (c : Cube) (k : Nat) (value : Bool) : Cube :=
  ⟨c.columns.set k (some value)⟩

@[simp]
theorem width_fix (c : Cube) (k : Nat) (value : Bool) : (c.fix k value).width = c.width :=
  List.length_set

theorem column_fix_self {c : Cube} {k : Nat} (hk : k < c.width) (value : Bool) :
    (c.fix k value).column k = some value := by
  have hset : k < (c.columns.set k (some value)).length := hk.trans_eq (width_fix c k value).symm
  rw [fix, column, List.getD_eq_getElem _ _ hset, List.getElem_set_self]

theorem column_fix_of_ne {c : Cube} {k i : Nat} (hne : i ≠ k) (value : Bool) :
    (c.fix k value).column i = c.column i := by
  rw [fix, column, column, List.getD_eq_getElem?_getD, List.getD_eq_getElem?_getD,
    List.getElem?_set_ne hne.symm]

theorem points_fix_subset {c : Cube} {k : Nat} (hfree : c.column k = none) (value : Bool) :
    (c.fix k value).points ⊆ c.points := by
  refine (points_subset_iff (width_fix c k value)).mpr fun i ↦ ?_
  by_cases hik : i = k
  · rw [hik, hfree]
    rfl
  · rw [column_fix_of_ne hik]
    exact Column.allows_refl _

/-! ### Proper containment -/

theorem strictlyContains_iff {c d : Cube} (hwidth : c.width = d.width) :
    d.strictlyContains c = true ↔ c.points ⊂ d.points := by
  rw [strictlyContains, Bool.and_eq_true, allowsAll_iff hwidth.symm,
    freerSomewhere_iff hwidth.symm, Set.ssubset_def, points_subset_iff hwidth,
    points_subset_iff hwidth.symm]
  refine and_congr_right fun hallows ↦ ⟨?_, fun hnot ↦ ?_⟩
  · rintro ⟨i, hfree, hasked⟩ hconverse
    rcases Column.allows_iff.mp (hconverse i) with h | h
    · exact hasked h
    · exact hasked (h.trans hfree)
  · push Not at hnot
    obtain ⟨i, hi⟩ := hnot
    rcases Column.allows_iff.mp (hallows i) with h | h
    · refine ⟨i, h, fun hnone ↦ hi ?_⟩
      exact Column.allows_iff.mpr (.inl hnone)
    · exact absurd (Column.allows_iff.mpr (.inr h.symm)) hi

/-- Asking for no more takes no more literals. -/
theorem literalCount_le_of_points_subset {c d : Cube} (hwidth : c.width = d.width)
    (hsubset : c.points ⊆ d.points) : d.literalCount ≤ c.literalCount :=
  countP_isSome_le hwidth ((points_subset_iff hwidth).mp hsubset)

/-! ### Consensus -/

theorem consensus?_eq (c d : Cube) : c.consensus? d =
    if c.distance d ≤ 1 then some ⟨meetDropping c.columns d.columns⟩ else none := by
  unfold consensus?
  split
  · next hzero =>
    have hconflicts : conflicts c.columns d.columns = 0 := hzero
    rw [intersection?, meetAll?_eq, if_pos hconflicts, hzero]
    rfl
  · next hone => simp [hone]
  · next hzero hone =>
    have hfar : ¬ c.distance d ≤ 1 := by
      intro hle
      rcases Nat.le_one_iff_eq_zero_or_eq_one.mp hle with h | h
      · exact hzero h
      · exact hone h
    rw [if_neg hfar]

section Consensus

variable {c d e : Cube}

/-- Cubes with a consensus conflict in one column at most. -/
theorem conflict_unique_of_consensus? (hconsensus : c.consensus? d = some e) {i j : Nat}
    (hi : (c.column i).meet? (d.column i) = none) (hj : (c.column j).meet? (d.column j) = none) :
    i = j := by
  rw [consensus?_eq] at hconsensus
  split at hconsensus
  · next hle => exact conflicts_le_one_iff.mp hle i j hi hj
  · cases hconsensus

theorem width_of_consensus? (hwidth : c.width = d.width) (hconsensus : c.consensus? d = some e) :
    e.width = c.width := by
  rw [consensus?_eq] at hconsensus
  split at hconsensus
  · cases hconsensus
    have hlength : c.columns.length = d.columns.length := hwidth
    simp [width, length_meetDropping, hlength]
  · cases hconsensus

theorem column_of_consensus? (hwidth : c.width = d.width) (hconsensus : c.consensus? d = some e)
    (i : Nat) : e.column i = ((c.column i).meet? (d.column i)).getD none := by
  rw [consensus?_eq] at hconsensus
  split at hconsensus
  · cases hconsensus
    exact getD_meetDropping hwidth i
  · cases hconsensus

/-- Where two cubes do not conflict, their consensus accepts what both accept. -/
theorem accepts_column_of_consensus? (hwidth : c.width = d.width)
    (hconsensus : c.consensus? d = some e) {i : Nat}
    (hmeet : (c.column i).meet? (d.column i) ≠ none) (value : Bool) :
    (e.column i).accepts value = ((c.column i).accepts value && (d.column i).accepts value) := by
  obtain ⟨column, hcolumn⟩ := Option.ne_none_iff_exists'.mp hmeet
  rw [column_of_consensus? hwidth hconsensus, hcolumn, Option.getD_some,
    Column.accepts_of_meet?_eq_some hcolumn]

/-- Every point of a consensus lies in one of the two cubes: in the first, if it has the value that
the first asks for in the column in which they conflict. -/
theorem mem_points_of_consensus? (hwidth : c.width = d.width) (hconsensus : c.consensus? d = some e)
    {point : List Bool} (hpoint : point ∈ e.points) : point ∈ c.points ∨ point ∈ d.points := by
  obtain ⟨hlength, haccepts⟩ := mem_points_iff.mp hpoint
  rw [width_of_consensus? hwidth hconsensus] at hlength
  have hboth : ∀ i, (c.column i).meet? (d.column i) ≠ none →
      (c.column i).accepts (point.getD i false) = true ∧
        (d.column i).accepts (point.getD i false) = true := by
    intro i hmeet
    rw [← Bool.and_eq_true, ← accepts_column_of_consensus? hwidth hconsensus hmeet]
    exact haccepts i
  by_cases hconflict : ∃ i, (c.column i).meet? (d.column i) = none
  · obtain ⟨k, hk⟩ := hconflict
    obtain ⟨value, hc, hd⟩ := Column.meet?_eq_none_iff.mp hk
    have hothers : ∀ i, i ≠ k → (c.column i).meet? (d.column i) ≠ none := fun i hne hi ↦
      hne (conflict_unique_of_consensus? hconsensus hi hk)
    by_cases hvalue : point.getD k false = value
    · refine .inl (mem_points_iff.mpr ⟨hlength, fun i ↦ ?_⟩)
      by_cases hik : i = k
      · rw [hik, hc, hvalue]
        simp [Column.accepts]
      · exact (hboth i (hothers i hik)).1
    · refine .inr (mem_points_iff.mpr ⟨hlength.trans hwidth, fun i ↦ ?_⟩)
      by_cases hik : i = k
      · rw [hik, hd, Bool.eq_not_of_ne hvalue]
        simp [Column.accepts]
      · exact (hboth i (hothers i hik)).2
  · exact .inl (mem_points_iff.mpr ⟨hlength, fun i ↦ (hboth i fun hi ↦ hconflict ⟨i, hi⟩).1⟩)

/-- Cubes that conflict in one column and ask for nothing in the others that a third cube does not
ask for have a consensus, and the third cube lies within it. -/
theorem exists_consensus?_of_allows {third : Cube} {k : Nat} (hwidth : c.width = d.width)
    (hthird : third.width = c.width) (hfree : third.column k = none)
    (hconflict : (c.column k).meet? (d.column k) = none)
    (hc : ∀ i, i ≠ k → (c.column i).allows (third.column i) = true)
    (hd : ∀ i, i ≠ k → (d.column i).allows (third.column i) = true) :
    ∃ e, c.consensus? d = some e ∧ third.points ⊆ e.points := by
  have hdistance : c.distance d ≤ 1 := by
    have honly : ∀ i, (c.column i).meet? (d.column i) = none → i = k := by
      intro i hi
      by_contra hik
      obtain ⟨both, hboth, -⟩ := Column.exists_meet?_of_allows (hc i hik) (hd i hik)
      rw [hi] at hboth
      cases hboth
    exact conflicts_le_one_iff.mpr fun i j hi hj ↦ (honly i hi).trans (honly j hj).symm
  have hconsensus := (consensus?_eq c d).trans (if_pos hdistance)
  refine ⟨_, hconsensus, ?_⟩
  have hwidth' := width_of_consensus? hwidth hconsensus
  refine (points_subset_iff (hthird.trans hwidth'.symm)).mpr fun i ↦ ?_
  rw [column_of_consensus? hwidth hconsensus]
  by_cases hik : i = k
  · rw [hik, hconflict, hfree]
    rfl
  · obtain ⟨both, hboth, hallows⟩ := Column.exists_meet?_of_allows (hc i hik) (hd i hik)
    rw [hboth]
    exact hallows

end Consensus

/-! ### Cofactors -/

section Cofactors

variable {c p e : Cube}

theorem cofactor?_eq (c p : Cube) : c.cofactor? p =
    if c.distance p = 0 then
      some ⟨List.zipWith (fun column other ↦ if other.isSome then none else column) c.columns
        p.columns⟩
    else none := by
  rw [cofactor?, restrictAll?_eq, distance]
  split <;> rfl

theorem width_of_cofactor? (hwidth : c.width = p.width) (hcofactor : c.cofactor? p = some e) :
    e.width = c.width := by
  rw [cofactor?_eq] at hcofactor
  split at hcofactor
  · cases hcofactor
    have hlength : c.columns.length = p.columns.length := hwidth
    simp [width, hlength]
  · cases hcofactor

/-- A cofactor is free where the subspace asks for a value, and elsewhere unchanged. -/
theorem column_of_cofactor? (hwidth : c.width = p.width) (hcofactor : c.cofactor? p = some e)
    (i : Nat) : e.column i = if (p.column i).isSome then none else c.column i := by
  rw [cofactor?_eq] at hcofactor
  split at hcofactor
  · cases hcofactor
    have hlength : c.columns.length = p.columns.length := hwidth
    by_cases hi : i < c.width
    · have hc : i < c.columns.length := hi
      have hp : i < p.columns.length := hlength ▸ hc
      simp [column, List.getD_eq_getElem?_getD, hc, hp]
    · rw [column_eq_none (c := c) (Nat.le_of_not_lt hi), ite_self, column_eq_none]
      simp only [width, List.length_zipWith] at hi ⊢
      omega
  · cases hcofactor

/-- Within a subspace a cube and its cofactor have the same points. -/
theorem mem_points_iff_of_cofactor? (hwidth : c.width = p.width)
    (hcofactor : c.cofactor? p = some e) {point : List Bool} (hpoint : point ∈ p.points) :
    point ∈ e.points ↔ point ∈ c.points := by
  have hmeet : ∀ i, (c.column i).meet? (p.column i) ≠ none := by
    rw [cofactor?_eq] at hcofactor
    split at hcofactor
    · next hzero => exact conflicts_eq_zero_iff.mp hzero
    · cases hcofactor
  rw [mem_points_iff, mem_points_iff, width_of_cofactor? hwidth hcofactor]
  refine and_congr_right fun _ ↦ forall_congr' fun i ↦ ?_
  rw [column_of_cofactor? hwidth hcofactor]
  rcases hp : p.column i with _ | value
  · rfl
  · -- What the subspace asks for is granted, and the cube does not ask for the opposite.
    have hvalue := (mem_points_iff.mp hpoint).2 i
    have hi := hmeet i
    rw [hp] at hvalue hi
    rcases hc : c.column i with _ | other
    · rfl
    · rw [hc, Ne, Column.meet?_eq_none_iff] at hi
      have hother : other = value := by
        by_contra hne
        exact hi ⟨other, rfl, congrArg some (Bool.eq_not_of_ne (Ne.symm hne))⟩
      simpa [Column.accepts, hother] using hvalue

theorem cofactor?_eq_none_iff : c.cofactor? p = none ↔ c.distance p ≠ 0 := by
  rw [cofactor?_eq]
  by_cases hdistance : c.distance p = 0 <;> simp [hdistance]

/-- A cube without a cofactor has no point in the subspace. -/
theorem notMem_points_of_cofactor?_eq_none (hcofactor : c.cofactor? p = none) {point : List Bool}
    (hpoint : point ∈ p.points) : point ∉ c.points := by
  obtain ⟨i, hi⟩ := exists_conflict_of_distance_ne_zero (cofactor?_eq_none_iff.mp hcofactor)
  exact Set.disjoint_right.mp (disjoint_points_of_conflict hi) hpoint

end Cofactors

end Cube

end SwitchingAlgebra
