import Mathlib
import SwitchingAlgebra.Evaluation
import SwitchingAlgebra.Proofs.CoverPoints
import SwitchingAlgebra.Proofs.Terms

/-!
# Terms as cubes and cubes as terms

Over the symbols of a two-level form every term of these symbols is a cube of that many columns, and
every such cube is a term. An assignment gives a row of values, one for each symbol, and a cube
contains the row when its term holds under the assignment.

Main statements: terms and cubes of a form correspond (`term_cube`, `cube_term`), a cube contains
the rows under which its term holds and no others (`row_mem_points_iff`, `forall_mem_points_iff`),
and the cover of a form the rows under which the sum of its terms is true
(`row_mem_points_iff_sum`).
-/

set_option autoImplicit false
set_option relaxedAutoImplicit false

namespace SwitchingAlgebra

namespace Term

variable {assignment : Symbol → Bool} {t u : Term}

/-! ### Polarities -/

theorem ne_of_compare_lt {r s : Symbol} (hlt : compare r s = .lt) : r ≠ s := by
  rintro rfl
  exact asymm_of_orientedCmp r r hlt hlt

theorem Increasing.nodup_symbols (ht : t.Increasing) : (t.map Literal.symbol).Nodup :=
  List.Pairwise.map _ (fun _ _ hlt ↦ ne_of_compare_lt hlt) ht

theorem Increasing.eq_of_symbol_eq (ht : t.Increasing) {l m : Literal} (hl : l ∈ t) (hm : m ∈ t)
    (hsymbol : l.symbol = m.symbol) : l = m :=
  List.inj_on_of_nodup_map ht.nodup_symbols hl hm hsymbol

theorem polarity?_eq_none_iff {s : Symbol} : t.polarity? s = none ↔ ∀ l ∈ t, l.symbol ≠ s := by
  simp [polarity?]

/-- A symbol has a polarity in a term exactly when the literal of that polarity is in the term. -/
theorem polarity?_eq_some_iff (ht : t.Increasing) {s : Symbol} {value : Bool} :
    t.polarity? s = some value ↔ ⟨s, value⟩ ∈ t := by
  have hfound : ∀ {l : Literal}, t.find? (fun l ↦ l.symbol == s) = some l →
      l ∈ t ∧ l.symbol = s := fun hfind ↦
    ⟨List.mem_of_find?_eq_some hfind, by simpa using List.find?_some hfind⟩
  rw [polarity?, Option.map_eq_some_iff]
  constructor
  · rintro ⟨l, hfind, rfl⟩
    obtain ⟨hl, rfl⟩ := hfound hfind
    exact hl
  · intro hmem
    rcases hfind : t.find? fun l ↦ l.symbol == s with _ | l
    · exact absurd (List.find?_eq_none.mp hfind _ hmem) (by simp)
    · obtain ⟨hl, hsymbol⟩ := hfound hfind
      exact ⟨l, hfind, congrArg Literal.positive (ht.eq_of_symbol_eq hl hmem hsymbol)⟩

/-- A term holds when the assignment gives every symbol the polarity that it has in the term. -/
theorem holds_iff (ht : t.Increasing) : t.holds assignment .and = true ↔
    ∀ s, Column.accepts (t.polarity? s) (assignment s) = true := by
  rw [holds, List.all_eq_true]
  constructor
  · intro hall s
    rcases hpolarity : t.polarity? s with _ | value
    · rfl
    · have hvalue := hall _ ((polarity?_eq_some_iff ht).mp hpolarity)
      rwa [Literal.holds, Bool.beq_comm] at hvalue
  · intro hall l hl
    have hvalue := hall l.symbol
    rw [(polarity?_eq_some_iff ht).mpr hl] at hvalue
    rw [Literal.holds, Bool.beq_comm]
    exact hvalue

/-- Increasing terms with the same literals are equal. -/
theorem ext_mem (ht : t.Increasing) (hu : u.Increasing) (hmem : ∀ l, l ∈ t ↔ l ∈ u) : t = u :=
  eq_of_pairwise_of_mem_iff (fun l m ↦ asymm_of_orientedCmp l.symbol m.symbol) ht hu hmem

/-- Terms in which every symbol has the same polarity are equal. -/
theorem ext_polarity (ht : t.Increasing) (hu : u.Increasing)
    (hpolarity : ∀ s, t.polarity? s = u.polarity? s) : t = u :=
  ext_mem ht hu fun l ↦ by
    rw [← polarity?_eq_some_iff ht, ← polarity?_eq_some_iff hu, hpolarity]

end Term

/-- The literals of a term as expressions. -/
def Policy.literalsOf (p : Policy) (t : Term) : List Expr :=
  t.map fun l ↦ p.literal l.symbol l.positive

theorem Policy.mem_literalsOf {p : Policy} {t : Term} {e : Expr} :
    e ∈ p.literalsOf t ↔ ∃ l ∈ t, p.literal l.symbol l.positive = e :=
  List.mem_map

namespace TwoLevel

/-- The symbols of a form stand in increasing order, and its terms are increasing terms of these
symbols. -/
structure WellFormed (form : TwoLevel) : Prop where
  increasing : form.symbols.Pairwise fun s t ↦ compare s t = .lt
  increasing_terms : ∀ t ∈ form.terms, t.Increasing
  mem_symbols : ∀ t ∈ form.terms, ∀ l ∈ t, l.symbol ∈ form.symbols

/-- The form of a list of terms, with their symbols. -/
def ofTerms (ts : List Term) : TwoLevel :=
  ⟨sortDistinct compare (ts.flatMap fun t ↦ t.map Literal.symbol), ts⟩

theorem wellFormed_ofTerms {ts : List Term} (hts : ∀ t ∈ ts, t.Increasing) :
    (ofTerms ts).WellFormed where
  increasing := pairwise_sortDistinct _
  increasing_terms := hts
  mem_symbols t ht _ hl :=
    mem_sortDistinct.mpr (List.mem_flatMap.mpr ⟨t, ht, List.mem_map_of_mem hl⟩)

theorem wellFormed_ofOperands (op : Connective) (operands : List Expr) :
    (ofOperands op operands).WellFormed := by
  refine wellFormed_ofTerms fun t ht ↦ ?_
  obtain ⟨e, -, hterms⟩ := List.mem_flatMap.mp (Term.mem_distinct.mp ht)
  exact e.increasing_of_mem_terms false t hterms

/-- The row of the values that an assignment gives the symbols of a form. -/
def row (form : TwoLevel) (assignment : Symbol → Bool) : List Bool :=
  form.symbols.map assignment

/-- The term of a cube over the symbols of a form. -/
def term (form : TwoLevel) (c : Cube) : Term :=
  (form.symbols.zip c.columns).filterMap fun (s, column) ↦ column.map (Literal.mk s)

variable {form : TwoLevel} {c : Cube} {t : Term} {assignment : Symbol → Bool}

theorem literals_eq (p : Policy) (form : TwoLevel) (c : Cube) :
    form.literals p c = p.literalsOf (form.term c) := by
  rw [literals, Policy.literalsOf, term, List.map_filterMap]
  simp only [Option.map_map]
  rfl

theorem mem_term {l : Literal} : l ∈ form.term c ↔
    ∃ i, form.symbols[i]? = some l.symbol ∧ c.column i = some l.positive := by
  rw [term, List.mem_filterMap]
  constructor
  · rintro ⟨⟨s, column⟩, hmem, hcolumn⟩
    obtain ⟨value, hvalue, rfl⟩ := Option.map_eq_some_iff.mp hcolumn
    obtain ⟨i, hi⟩ := List.mem_iff_getElem?.mp hmem
    obtain ⟨hsymbol, hcolumns⟩ := List.getElem?_zip_eq_some.mp hi
    refine ⟨i, hsymbol, ?_⟩
    rw [Cube.column, List.getD_eq_getElem?_getD, hcolumns]
    exact hvalue
  · rintro ⟨i, hsymbol, hcolumn⟩
    rw [Cube.column, List.getD_eq_getElem?_getD] at hcolumn
    have hcolumns : c.columns[i]? = some (some l.positive) := by
      cases hget : c.columns[i]? with
      | none => simp [hget] at hcolumn
      | some column => simpa [hget] using hcolumn
    refine ⟨(l.symbol, some l.positive), List.mem_iff_getElem?.mpr ⟨i, ?_⟩, rfl⟩
    exact List.getElem?_zip_eq_some.mpr ⟨hsymbol, hcolumns⟩

theorem WellFormed.increasing_term (hform : form.WellFormed) : (form.term c).Increasing := by
  have hsymbols : (form.symbols.zip c.columns).Pairwise fun x y ↦ compare x.1 y.1 = .lt := by
    refine List.pairwise_iff_getElem.mpr fun i j hi hj hij ↦ ?_
    rw [List.getElem_zip, List.getElem_zip]
    exact List.pairwise_iff_getElem.mp hform.increasing i j _ _ hij
  refine List.Pairwise.filterMap _ ?_ hsymbols
  rintro ⟨s, column⟩ ⟨t, column'⟩ hlt l hl m hm
  obtain ⟨value, -, rfl⟩ := Option.map_eq_some_iff.mp hl
  obtain ⟨value', -, rfl⟩ := Option.map_eq_some_iff.mp hm
  exact hlt

theorem WellFormed.eq_of_getElem?_eq (hform : form.WellFormed) {i j : Nat} {s : Symbol}
    (hi : form.symbols[i]? = some s) (hj : form.symbols[j]? = some s) : i = j := by
  have hnodup : form.symbols.Nodup := nodup_of_pairwise_lt hform.increasing
  obtain ⟨hlt, -⟩ := List.getElem?_eq_some_iff.mp hi
  exact (List.getElem?_inj hlt hnodup).mp (hi.trans hj.symm)

/-- The polarity of a symbol in the term of a cube is what the cube asks for in its column. -/
theorem polarity?_term (hform : form.WellFormed) {i : Nat} {s : Symbol}
    (hi : form.symbols[i]? = some s) : (form.term c).polarity? s = c.column i := by
  ext value
  rw [Term.polarity?_eq_some_iff hform.increasing_term, mem_term]
  constructor
  · rintro ⟨j, hj, hcolumn⟩
    rwa [hform.eq_of_getElem?_eq hi hj]
  · exact fun hcolumn ↦ ⟨i, hi, hcolumn⟩

theorem polarity?_term_of_notMem {s : Symbol} (hs : s ∉ form.symbols) :
    (form.term c).polarity? s = none := by
  refine Term.polarity?_eq_none_iff.mpr fun l hl heq ↦ hs ?_
  obtain ⟨i, hi, -⟩ := mem_term.mp hl
  exact heq ▸ List.mem_of_getElem? hi

@[simp]
theorem width_cube : (form.cube t).width = form.symbols.length :=
  List.length_map _

theorem column_cube {i : Nat} {s : Symbol} (hi : form.symbols[i]? = some s) :
    (form.cube t).column i = t.polarity? s := by
  rw [cube, Cube.column, List.getD_eq_getElem?_getD, List.getElem?_map, hi]
  rfl

theorem term_cube (hform : form.WellFormed) (ht : t.Increasing)
    (hsymbols : ∀ l ∈ t, l.symbol ∈ form.symbols) : form.term (form.cube t) = t := by
  refine Term.ext_polarity hform.increasing_term ht fun s ↦ ?_
  by_cases hs : s ∈ form.symbols
  · obtain ⟨i, hi⟩ := List.mem_iff_getElem?.mp hs
    rw [polarity?_term hform hi, column_cube hi]
  · rw [polarity?_term_of_notMem hs]
    refine (Term.polarity?_eq_none_iff.mpr fun l hl heq ↦ hs ?_).symm
    exact heq ▸ hsymbols l hl

theorem cube_term (hform : form.WellFormed) (hc : c.width = form.symbols.length) :
    form.cube (form.term c) = c := by
  refine Cube.ext_column (width_cube.trans hc.symm) fun i ↦ ?_
  rcases hi : form.symbols[i]? with _ | s
  · have hle := List.getElem?_eq_none_iff.mp hi
    rw [Cube.column_eq_none (by simpa using hle), Cube.column_eq_none (hc.trans_le hle)]
  · rw [column_cube hi, polarity?_term hform hi]

/-- The cube that asks for nothing is the one without literals. -/
theorem isWhole_iff_term_eq_nil (hc : c.width = form.symbols.length) :
    c.isWhole = true ↔ form.term c = [] := by
  rw [Cube.isWhole_iff, List.eq_nil_iff_forall_not_mem]
  constructor
  · intro hnone l hl
    obtain ⟨i, -, hcolumn⟩ := mem_term.mp hl
    rw [hnone i] at hcolumn
    cases hcolumn
  · intro hempty i
    rcases hi : form.symbols[i]? with _ | s
    · exact Cube.column_eq_none (hc.trans_le (List.getElem?_eq_none_iff.mp hi))
    · refine Option.eq_none_iff_forall_ne_some.mpr fun value hvalue ↦ ?_
      exact hempty ⟨s, value⟩ (mem_term.mpr ⟨i, hi, hvalue⟩)

/-! ### Rows -/

@[simp]
theorem length_row : (form.row assignment).length = form.symbols.length :=
  List.length_map _

theorem getD_row {i : Nat} {s : Symbol} (hi : form.symbols[i]? = some s) :
    (form.row assignment).getD i false = assignment s := by
  rw [row, List.getD_eq_getElem?_getD, List.getElem?_map, hi]
  rfl

/-- A cube contains the row of an assignment when its term holds. -/
theorem holds_term (hform : form.WellFormed) (hc : c.width = form.symbols.length) :
    (form.term c).holds assignment .and = c.contains (form.row assignment) := by
  rw [Bool.eq_iff_iff, Term.holds_iff hform.increasing_term,
    Cube.contains_iff (length_row.trans hc.symm)]
  constructor
  · intro hall i
    rcases hi : form.symbols[i]? with _ | s
    · rw [Cube.column_eq_none (hc.trans_le (List.getElem?_eq_none_iff.mp hi))]
      rfl
    · rw [getD_row hi, ← polarity?_term hform hi]
      exact hall s
  · intro hall s
    by_cases hs : s ∈ form.symbols
    · obtain ⟨i, hi⟩ := List.mem_iff_getElem?.mp hs
      have hvalue := hall i
      rwa [getD_row hi, ← polarity?_term hform hi] at hvalue
    · rw [polarity?_term_of_notMem hs]
      rfl

theorem row_mem_points_iff (hform : form.WellFormed) (hc : c.width = form.symbols.length) :
    form.row assignment ∈ c.points ↔ (form.term c).holds assignment .and = true := by
  rw [holds_term hform hc]
  exact ⟨fun hpoint ↦ hpoint.2, fun hcontains ↦ ⟨length_row.trans hc.symm, hcontains⟩⟩

/-- Every row of the right length is the row of an assignment. -/
theorem exists_row (hform : form.WellFormed) {point : List Bool}
    (hlength : point.length = form.symbols.length) :
    ∃ assignment, form.row assignment = point := by
  refine ⟨fun s ↦ point.getD (form.symbols.idxOf s) false, List.ext_getElem ?_ fun i hi hpoint ↦ ?_⟩
  · rw [length_row, hlength]
  · have hnodup : form.symbols.Nodup := nodup_of_pairwise_lt hform.increasing
    rw [length_row] at hi
    simp [row, hnodup.idxOf_getElem i hi, hpoint]

/-- What holds of the points of a cube is what holds of the rows under which its term holds. -/
theorem forall_mem_points_iff (hform : form.WellFormed) (hc : c.width = form.symbols.length)
    {motive : List Bool → Prop} : (∀ point ∈ c.points, motive point) ↔
      ∀ assignment, (form.term c).holds assignment .and = true → motive (form.row assignment) := by
  constructor
  · exact fun hall assignment hholds ↦ hall _ ((row_mem_points_iff hform hc).mpr hholds)
  · intro hall point hpoint
    obtain ⟨assignment, rfl⟩ := exists_row hform (hpoint.1.trans hc)
    exact hall assignment ((row_mem_points_iff hform hc).mp hpoint)

/-! ### Covers over the columns of a form -/

/-- The terms of the cubes of a cover. -/
def termsOf (form : TwoLevel) (f : Cover) : List Term :=
  f.cubes.map form.term

/-- The row of an assignment is a point of a cover when the term of some cube holds. -/
theorem row_mem_points_cover (hform : form.WellFormed) {f : Cover} (hf : f.WellFormed)
    (hwidth : f.width = form.symbols.length) :
    form.row assignment ∈ f.points ↔ Term.allHold assignment .or (form.termsOf f) = true := by
  rw [Cover.mem_points_iff hf, Term.allHold, termsOf, List.any_map, List.any_eq_true]
  exact exists_congr fun c ↦ and_congr_right fun hc ↦
    row_mem_points_iff hform ((hf c hc).trans hwidth)

theorem wellFormed_cover (form : TwoLevel) : form.cover.WellFormed :=
  Cover.wellFormed_ofList fun c hc ↦ by
    obtain ⟨t, -, rfl⟩ := List.mem_map.mp hc
    exact width_cube

@[simp]
theorem width_cover (form : TwoLevel) : form.cover.width = form.symbols.length := rfl

/-- The terms of the cover of a form are its terms. -/
theorem mem_termsOf_cover (hform : form.WellFormed) :
    t ∈ form.termsOf form.cover ↔ t ∈ form.terms := by
  have hterm : ∀ u ∈ form.terms, form.term (form.cube u) = u := fun u hu ↦
    term_cube hform (hform.increasing_terms u hu) (hform.mem_symbols u hu)
  simp only [termsOf, cover, List.mem_map, Cover.mem_ofList]
  constructor
  · rintro ⟨_, ⟨u, hu, rfl⟩, rfl⟩
    rwa [hterm u hu]
  · exact fun ht ↦ ⟨form.cube t, ⟨t, ht, rfl⟩, hterm t ht⟩

/-! ### The sum of a form -/

/-- The value of the sum of the terms of a form. -/
def sum (form : TwoLevel) (assignment : Symbol → Bool) : Bool :=
  Term.allHold assignment .or form.terms

/-- The row of an assignment is a point of the cover of a form when the sum is true. -/
theorem row_mem_points_iff_sum (hform : form.WellFormed) :
    form.row assignment ∈ form.cover.points ↔ form.sum assignment = true := by
  rw [row_mem_points_cover hform form.wellFormed_cover form.width_cover, sum, Term.allHold,
    Term.allHold, List.any_eq_true, List.any_eq_true]
  simp only [mem_termsOf_cover hform]

/-- The sum of the terms depends on the symbols of the form alone. -/
theorem sum_congr (hform : form.WellFormed) {first second : Symbol → Bool}
    (hagree : ∀ s ∈ form.symbols, first s = second s) : form.sum first = form.sum second := by
  have hrow : form.row first = form.row second := List.map_congr_left hagree
  rw [Bool.eq_iff_iff, ← row_mem_points_iff_sum hform, hrow, row_mem_points_iff_sum hform]

end TwoLevel

end SwitchingAlgebra
