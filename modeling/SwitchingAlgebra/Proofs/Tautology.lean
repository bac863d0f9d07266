import Mathlib
import SwitchingAlgebra.Cover.Tautology
import SwitchingAlgebra.Proofs.CoverPoints

/-!
# The tautology test is exact

Splitting a cover in a column leaves no literal in that column and adds none to the others, so the
number of columns with literals bounds the number of splits in a row. Where no column asks for both
values and no cube asks for nothing, the row with the values that no cube asks for lies in no cube.

So the test ends, and only with the answer whether every row lies in some cube.

Main statements: `isTautology_iff`, and `covers_iff` for the points of a cube. That both tests end
with these answers is `isTautology_and_covers_exact`.
-/

set_option autoImplicit false
set_option relaxedAutoImplicit false

namespace SwitchingAlgebra.Cover

variable {f : Cover}

/-! ### Columns -/

theorem literalsIn_ne_zero_iff {i : Nat} {value : Bool} :
    f.literalsIn i value ≠ 0 ↔ ∃ c ∈ f.cubes, c.column i = some value := by
  rw [literalsIn, ← Nat.pos_iff_ne_zero, List.countP_pos_iff]
  simp

theorem isBinate_iff {i : Nat} :
    f.isBinate i = true ↔ ∀ value, ∃ c ∈ f.cubes, c.column i = some value := by
  rw [isBinate, Bool.and_eq_true, bne_iff_ne, bne_iff_ne, literalsIn_ne_zero_iff,
    literalsIn_ne_zero_iff, Bool.forall_bool, and_comm]

theorem heaviest?_eq_none_iff {weight : Nat → Nat} {ns : List Nat} :
    heaviest? weight ns = none ↔ ns = [] := by
  cases ns with
  | nil => simp [heaviest?]
  | cons n rest =>
    unfold heaviest?
    cases heaviest? weight rest with
    | none => simp
    | some m => by_cases hweight : weight n < weight m <;> simp [hweight]

theorem mem_of_heaviest?_eq_some {weight : Nat → Nat} {n : Nat} :
    ∀ {ns : List Nat}, heaviest? weight ns = some n → n ∈ ns := by
  intro ns
  induction ns with
  | nil => simp [heaviest?]
  | cons m rest ih =>
    intro hheaviest
    rw [heaviest?] at hheaviest
    rcases hrest : heaviest? weight rest with _ | k
    · rw [hrest] at hheaviest
      simp_all
    · simp only [hrest] at hheaviest ih
      split_ifs at hheaviest
      · exact List.mem_cons_of_mem _ (ih hheaviest)
      · cases hheaviest
        exact List.mem_cons_self

theorem isBinate_of_splitColumn?_eq_some {k : Nat} (hsplit : f.splitColumn? = some k) :
    k < f.width ∧ f.isBinate k = true := by
  have hmem := mem_of_heaviest?_eq_some hsplit
  rwa [List.mem_filter, List.mem_range] at hmem

theorem isBinate_of_splitColumn?_eq_none (hsplit : f.splitColumn? = none) {i : Nat}
    (hi : i < f.width) : f.isBinate i = false := by
  have hempty := heaviest?_eq_none_iff.mp hsplit
  rw [List.filter_eq_nil_iff] at hempty
  simpa using hempty i (List.mem_range.mpr hi)

/-! ### Splitting -/

/-- The columns in which some cube asks for a value. -/
def literalColumns (f : Cover) : Finset Nat :=
  (Finset.range f.width).filter fun i ↦ ∃ c ∈ f.cubes, c.column i ≠ none

@[simp]
theorem mem_literalColumns {i : Nat} :
    i ∈ f.literalColumns ↔ i < f.width ∧ ∃ c ∈ f.cubes, c.column i ≠ none := by
  simp [literalColumns]

theorem width_halfSpace (width k : Nat) (value : Bool) :
    (Cube.halfSpace width k value).width = width :=
  (Cube.width_fix (Cube.whole width) k value).trans (Cube.width_whole width)

theorem column_halfSpace_self {width k : Nat} (hk : k < width) (value : Bool) :
    (Cube.halfSpace width k value).column k = some value :=
  Cube.column_fix_self (hk.trans_eq (Cube.width_whole width).symm) value

theorem column_halfSpace_of_ne {width k i : Nat} (hne : i ≠ k) (value : Bool) :
    (Cube.halfSpace width k value).column i = none :=
  (Cube.column_fix_of_ne hne value).trans (Cube.column_whole width i)

/-- The points of a half space are the rows with the value in its column. -/
theorem mem_points_halfSpace {width k : Nat} (hk : k < width) {value : Bool} {point : List Bool} :
    point ∈ (Cube.halfSpace width k value).points ↔
      point.length = width ∧ point.getD k false = value := by
  rw [Cube.mem_points_iff, width_halfSpace]
  refine and_congr_right fun _ ↦ ⟨fun haccepts ↦ ?_, fun hvalue i ↦ ?_⟩
  · have hk' := haccepts k
    rw [column_halfSpace_self hk] at hk'
    have hequal : value = point.getD k false := by simpa [Column.accepts] using hk'
    exact hequal.symm
  · by_cases hik : i = k
    · rw [hik, column_halfSpace_self hk, hvalue]
      simp [Column.accepts]
    · rw [column_halfSpace_of_ne hik]
      rfl

theorem WellFormed.half (hf : f.WellFormed) (k : Nat) (value : Bool) :
    (f.half k value).WellFormed :=
  hf.cofactor (width_halfSpace _ _ _)

/-- A split leaves no literal in its column and brings in none. -/
theorem literalColumns_half_ssubset (hf : f.WellFormed) {k : Nat} (hk : k ∈ f.literalColumns)
    (value : Bool) : (f.half k value).literalColumns ⊂ f.literalColumns := by
  have hcolumn : ∀ {i : Nat} {e : Cube}, e ∈ (f.half k value).cubes → e.column i ≠ none →
      i ≠ k ∧ ∃ c ∈ f.cubes, c.column i ≠ none := by
    intro i e he hne
    obtain ⟨c, hc, hcofactor⟩ := mem_cofactor.mp he
    rw [Cube.column_of_cofactor? ((hf c hc).trans (width_halfSpace _ _ _).symm) hcofactor] at hne
    refine ⟨fun hik ↦ hne ?_, c, hc, fun hnone ↦ hne ?_⟩
    · rw [hik, column_halfSpace_self (mem_literalColumns.mp hk).1]
      rfl
    · rw [hnone, ite_self]
  refine Finset.ssubset_iff_subset_ne.mpr ⟨fun i hi ↦ ?_, fun heq ↦ ?_⟩
  · obtain ⟨hlt, e, he, hne⟩ := mem_literalColumns.mp hi
    exact mem_literalColumns.mpr ⟨hlt, (hcolumn he hne).2⟩
  · rw [← heq] at hk
    obtain ⟨-, e, he, hne⟩ := mem_literalColumns.mp hk
    exact (hcolumn he hne).1 rfl

/-- A cover holds every row exactly when both halves do. -/
theorem forall_mem_points_iff_half (hf : f.WellFormed) {k : Nat} (hk : k < f.width) :
    (∀ point : List Bool, point.length = f.width → point ∈ f.points) ↔
      ∀ value, ∀ point : List Bool, point.length = f.width → point ∈ (f.half k value).points := by
  have hhalf : ∀ value, (∀ point : List Bool, point.length = f.width →
      point ∈ (f.half k value).points) ↔ (Cube.halfSpace f.width k value).points ⊆ f.points :=
    fun value ↦ cofactor_forall_iff hf (width_halfSpace _ _ _)
  simp only [hhalf]
  constructor
  · intro hall value point hpoint
    exact hall point (hpoint.1.trans (width_halfSpace _ _ _))
  · intro hhalves point hlength
    exact hhalves (point.getD k false) ((mem_points_halfSpace hk).mpr ⟨hlength, rfl⟩)

/-! ### The test -/

/-- The row with the values that no cube asks for lies in no cube, if in every column one value at
most is asked for and every cube asks for something. -/
theorem exists_notMem_points_of_unate (hf : f.WellFormed) (hwhole : f.containsWhole = false)
    (hunate : ∀ i < f.width, f.isBinate i = false) :
    ∃ point : List Bool, point.length = f.width ∧ point ∉ f.points := by
  let avoiding := (Cube.whole f.width).corner fun i ↦ f.literalsIn i true == 0
  have hlength : avoiding.length = f.width := by simp [avoiding, Cube.corner]
  refine ⟨avoiding, hlength, fun hmem ↦ ?_⟩
  obtain ⟨c, hc, hpoint⟩ := (mem_points_iff hf).mp hmem
  have hasks : ∃ i, c.column i ≠ none := by
    by_contra hnone
    push Not at hnone
    have hcontains : f.containsWhole = true :=
      List.any_eq_true.mpr ⟨c, hc, Cube.isWhole_iff.mpr hnone⟩
    rw [hwhole] at hcontains
    cases hcontains
  obtain ⟨i, hi⟩ := hasks
  obtain ⟨value, hvalue⟩ := Option.ne_none_iff_exists'.mp hi
  have hlt : i < f.width := by
    by_contra hlt
    exact hi (Cube.column_eq_none (by rw [hf c hc]; omega))
  have haccepts := (Cube.mem_points_iff.mp hpoint).2 i
  rw [hvalue, Cube.getD_corner _ (by simpa using hlt), Cube.column_whole, Option.getD_none]
    at haccepts
  have havoids : value = (f.literalsIn i true == 0) := by simpa [Column.accepts] using haccepts
  cases value with
  | true =>
    have hcount := literalsIn_ne_zero_iff.mpr ⟨c, hc, hvalue⟩
    simp [hcount] at havoids
  | false =>
    have hbinate : f.isBinate i = true := by
      rw [isBinate_iff, Bool.forall_bool]
      exact ⟨⟨c, hc, hvalue⟩, literalsIn_ne_zero_iff.mp (by simpa using havoids)⟩
    rw [hunate i hlt] at hbinate
    cases hbinate

/-- The test of a cover ends with an answer. The second half is tested only if the first holds every
point of it. -/
inductive SplittingTest : Cover → Bool → Prop
  | empty {f : Cover} (hempty : f.cubes = []) : SplittingTest f false
  | whole {f : Cover} (hwhole : f.containsWhole = true) : SplittingTest f true
  | unate {f : Cover} (hwhole : f.containsWhole = false) (hsplit : f.splitColumn? = none) :
      SplittingTest f false
  | firstHalf {f : Cover} {k : Nat} (hwhole : f.containsWhole = false)
      (hsplit : f.splitColumn? = some k) (hfirst : SplittingTest (f.half k true) false) :
      SplittingTest f false
  | bothHalves {f : Cover} {k : Nat} {answer : Bool} (hwhole : f.containsWhole = false)
      (hsplit : f.splitColumn? = some k) (hfirst : SplittingTest (f.half k true) true)
      (hsecond : SplittingTest (f.half k false) answer) : SplittingTest f answer

/-- If the tests of both halves end, so does the test of the cover. -/
theorem SplittingTest.split {k : Nat} (hwhole : f.containsWhole = false)
    (hsplit : f.splitColumn? = some k) {first second : Bool}
    (hfirst : SplittingTest (f.half k true) first)
    (hsecond : SplittingTest (f.half k false) second) : SplittingTest f (first && second) := by
  cases first with
  | false => exact .firstHalf hwhole hsplit hfirst
  | true => exact .bothHalves hwhole hsplit hfirst hsecond

/-- A column to split on has literals, so a split leaves fewer columns with literals. -/
theorem card_literalColumns_half_lt (hf : f.WellFormed) {k : Nat} (hsplit : f.splitColumn? = some k)
    (value : Bool) : (f.half k value).literalColumns.card < f.literalColumns.card := by
  obtain ⟨hk, hbinate⟩ := isBinate_of_splitColumn?_eq_some hsplit
  obtain ⟨c, hc, hck⟩ := isBinate_iff.mp hbinate true
  have hmem : k ∈ f.literalColumns :=
    mem_literalColumns.mpr ⟨hk, c, hc, hck ▸ Option.some_ne_none _⟩
  exact Finset.card_lt_card (literalColumns_half_ssubset hf hmem value)

/-- The test ends if it may split as often as there are columns with literals. -/
theorem splittingTest_isTautologyWithin (splits : Nat) :
    ∀ {f : Cover}, f.WellFormed → f.literalColumns.card ≤ splits →
      SplittingTest f (f.isTautologyWithin splits) := by
  induction splits using Nat.strong_induction_on with
  | _ splits ih =>
    intro f hf hsplits
    unfold isTautologyWithin
    by_cases hempty : f.cubes = []
    · rw [hempty]
      exact .empty hempty
    rw [if_neg (by simpa using hempty)]
    by_cases hwhole : f.containsWhole = true
    · rw [if_pos hwhole]
      exact .whole hwhole
    rw [if_neg hwhole]
    rw [Bool.not_eq_true] at hwhole
    cases hsplit : f.splitColumn? with
    | none => cases splits <;> exact .unate hwhole hsplit
    | some k =>
      have hfewer := card_literalColumns_half_lt hf hsplit
      obtain ⟨rest, rfl⟩ : ∃ rest, splits = rest + 1 :=
        ⟨splits - 1, by have := hfewer true; omega⟩
      have hhalf : ∀ value, SplittingTest (f.half k value)
          ((f.half k value).isTautologyWithin rest) := fun value ↦
        ih rest (Nat.lt_succ_self rest) (hf.half k value) (by have := hfewer value; omega)
      exact .split hwhole hsplit (hhalf true) (hhalf false)

theorem splittingTest_isTautology (hf : f.WellFormed) : SplittingTest f f.isTautology := by
  refine splittingTest_isTautologyWithin f.width hf ?_
  calc f.literalColumns.card ≤ (Finset.range f.width).card := Finset.card_filter_le _ _
    _ = f.width := Finset.card_range _

/-- Where the test ends, its answer is exact. -/
theorem SplittingTest.iff {answer : Bool} (htest : SplittingTest f answer) (hf : f.WellFormed) :
    answer = true ↔ ∀ point : List Bool, point.length = f.width → point ∈ f.points := by
  induction htest with
  | @empty f hempty =>
    -- Without cubes the row of zeros is missing.
    have hmissing : List.replicate f.width false ∉ f.points := by
      rw [mem_points_iff hf, hempty]
      simp
    exact iff_of_false Bool.false_ne_true fun hall ↦ hmissing (hall _ List.length_replicate)
  | whole hwhole =>
    obtain ⟨c, hc, hcwhole⟩ := List.any_eq_true.mp hwhole
    refine iff_of_true rfl fun point hlength ↦ (mem_points_iff hf).mpr ⟨c, hc, ?_⟩
    rw [Cube.isWhole_iff_eq.mp hcwhole]
    exact Cube.mem_points_whole.mpr (hlength.trans (hf c hc).symm)
  | unate hwhole hsplit =>
    obtain ⟨point, hlength, hmissing⟩ := exists_notMem_points_of_unate hf hwhole
      fun i hi ↦ isBinate_of_splitColumn?_eq_none hsplit hi
    exact iff_of_false Bool.false_ne_true fun hall ↦ hmissing (hall point hlength)
  | firstHalf _ hsplit _ ih =>
    rw [forall_mem_points_iff_half hf (isBinate_of_splitColumn?_eq_some hsplit).1]
    exact iff_of_false Bool.false_ne_true fun hhalves ↦
      Bool.false_ne_true ((ih (hf.half _ true)).mpr (hhalves true))
  | bothHalves _ hsplit _ _ ihfirst ihsecond =>
    rw [forall_mem_points_iff_half hf (isBinate_of_splitColumn?_eq_some hsplit).1,
      Bool.forall_bool, ihsecond (hf.half _ false)]
    exact (and_iff_left ((ihfirst (hf.half _ true)).mp rfl)).symm

theorem isTautology_iff (hf : f.WellFormed) :
    f.isTautology = true ↔ ∀ point : List Bool, point.length = f.width → point ∈ f.points :=
  (splittingTest_isTautology hf).iff hf

/-- The test has one answer. -/
theorem splittingTest_iff_eq (hf : f.WellFormed) {answer : Bool} :
    SplittingTest f answer ↔ answer = f.isTautology := by
  constructor
  · intro htest
    rw [Bool.eq_iff_iff, htest.iff hf, isTautology_iff hf]
  · rintro rfl
    exact splittingTest_isTautology hf

/-- A cover covers a cube exactly when it holds every point of the cube. -/
theorem covers_iff (hf : f.WellFormed) {c : Cube} (hc : c.width = f.width) :
    f.covers c = true ↔ c.points ⊆ f.points :=
  (isTautology_iff (hf.cofactor hc)).trans (cofactor_forall_iff hf hc)

/-- The test for all points ends, and with the answer whether every row of the width lies in some
cube. So does the test for the points of a cube: it tests the cover within the cube, and answers
whether each of these points lies in some cube of the cover. -/
theorem isTautology_and_covers_exact (hf : f.WellFormed) :
    ((∀ answer, SplittingTest f answer ↔ answer = f.isTautology) ∧
      (f.isTautology = true ↔
        ∀ point : List Bool, point.length = f.width → ∃ c ∈ f.cubes, point ∈ c.points)) ∧
      ∀ q : Cube, q.width = f.width →
        (∀ answer, SplittingTest (f.cofactor q) answer ↔ answer = f.covers q) ∧
          (f.covers q = true ↔ ∀ point ∈ q.points, ∃ c ∈ f.cubes, point ∈ c.points) := by
  simp only [← mem_points_iff hf]
  exact ⟨⟨fun _ ↦ splittingTest_iff_eq hf, isTautology_iff hf⟩, fun q hq ↦
    ⟨fun _ ↦ splittingTest_iff_eq (hf.cofactor hq), covers_iff hf hq⟩⟩

/-- The rows of two columns in which the second is true if the first is. -/
def implication : Cover :=
  ofList 2 [⟨[some true, some true]⟩, ⟨[some false, none]⟩]

/-- Some rows are missing, but none of those in which the second column is true. -/
theorem implication_covers_second_column : implication.WellFormed ∧
    (¬ ∀ point : List Bool, point.length = implication.width →
      ∃ c ∈ implication.cubes, point ∈ c.points) ∧
      SplittingTest (implication.cofactor ⟨[none, some true]⟩) true ∧
        ∀ point ∈ Cube.points ⟨[none, some true]⟩, ∃ c ∈ implication.cubes, point ∈ c.points := by
  have hf : implication.WellFormed := wellFormed_ofList (by decide)
  have hall : implication.isTautology = false := by cbv
  have hcovers : implication.covers ⟨[none, some true]⟩ = true := by cbv
  obtain ⟨⟨-, hexact⟩, hcubes⟩ := isTautology_and_covers_exact hf
  obtain ⟨hends, hexactq⟩ := hcubes ⟨[none, some true]⟩ rfl
  refine ⟨hf, fun hpoints ↦ ?_, (hends true).mpr hcovers.symm, hexactq.mp hcovers⟩
  rw [hexact.mpr hpoints] at hall
  cases hall

end SwitchingAlgebra.Cover
