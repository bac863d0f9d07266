import Mathlib
import SwitchingAlgebra.Proofs.PrimeTerms
import SwitchingAlgebra.Proofs.Soundness

/-!
# Evaluation is canonical

What a minimum cover is chosen from, and how, depends on the terms of the primes and their order
alone: the number of symbols with literals, the costs, which primes hold together under which
assignments, and which primes the others cover. Columns of further symbols, in which every prime is
free, change none of these. So forms with one sum have minimum covers of the same terms, and joins
of one function have the same evaluated form.

Main statements: `terms_minimum_eq` for the covers and `join_canonical` for the evaluated joins.
-/

set_option autoImplicit false
set_option relaxedAutoImplicit false

namespace SwitchingAlgebra

/-- The positions of the terms of a list that hold under an assignment, in increasing order. -/
def Term.holders (ts : List Term) (assignment : Symbol → Bool) : List Nat :=
  (((List.range ts.length).zip ts).filter fun (_, t) ↦ t.holds assignment .and).map (·.1)

namespace TwoLevel

/-- A cover over the columns of a form, with the terms of its cubes. -/
structure Presents (form : TwoLevel) (f : Cover) (ts : List Term) : Prop where
  form_wellFormed : form.WellFormed
  cover_wellFormed : f.WellFormed
  width : f.width = form.symbols.length
  terms : form.termsOf f = ts

variable {first second form : TwoLevel} {f g : Cover} {ts us : List Term}

theorem Presents.width_of_mem (hf : form.Presents f ts) {c : Cube} (hc : c ∈ f.cubes) :
    c.width = form.symbols.length :=
  (hf.cover_wellFormed c hc).trans hf.width

theorem Presents.mem_iff (hf : form.Presents f ts) {t : Term} :
    t ∈ ts ↔ ∃ c ∈ f.cubes, form.term c = t := by
  rw [← hf.terms, termsOf, List.mem_map]

/-- Covers with the same terms have them in the same order. -/
theorem Presents.eq_of_mem_iff (hf : first.Presents f ts) (hg : second.Presents g us)
    (hmem : ∀ t, t ∈ ts ↔ t ∈ us) : ts = us := by
  rw [← hf.terms, ← hg.terms]
  refine termsOf_eq_of_mem_iff hf.form_wellFormed hg.form_wellFormed hf.cover_wellFormed
    hg.cover_wellFormed hf.width hg.width fun t ↦ ?_
  rw [hf.terms, hg.terms, hmem]

theorem Presents.containsWhole_iff (hf : form.Presents f ts) :
    f.containsWhole = true ↔ [] ∈ ts := by
  rw [Cover.containsWhole, List.any_eq_true, hf.mem_iff]
  exact exists_congr fun c ↦ and_congr_right fun hc ↦
    isWhole_iff_term_eq_nil (hf.width_of_mem hc)

/-! ### The covering table -/

/-- The symbols of the columns in which a cover has literals are those of its terms. -/
theorem Presents.literalColumns_symbols (hf : form.Presents f ts) :
    (CoveringTable.literalColumns f.width f.cubes).filterMap (form.symbols[·]?) =
      sortDistinct compare (ts.flatMap fun t ↦ t.map Literal.symbol) := by
  have hpairwise : ((CoveringTable.literalColumns f.width f.cubes).filterMap
      (form.symbols[·]?)).Pairwise fun s t ↦ compare s t = .lt := by
    refine List.Pairwise.filterMap _ ?_ (List.pairwise_lt_range.filter _)
    intro i j hij s hs t ht
    obtain ⟨hi, rfl⟩ := List.getElem?_eq_some_iff.mp hs
    obtain ⟨hj, rfl⟩ := List.getElem?_eq_some_iff.mp ht
    exact List.pairwise_iff_getElem.mp hf.form_wellFormed.increasing i j hi hj hij
  refine eq_of_pairwise_of_mem_iff asymm_of_orientedCmp hpairwise (pairwise_sortDistinct _)
    fun s ↦ ?_
  rw [List.mem_filterMap, mem_sortDistinct, List.mem_flatMap]
  constructor
  · rintro ⟨i, hi, hs⟩
    obtain ⟨c, hc, hsome⟩ := List.any_eq_true.mp (List.mem_filter.mp hi).2
    obtain ⟨value, hvalue⟩ := Option.isSome_iff_exists.mp hsome
    exact ⟨form.term c, hf.mem_iff.mpr ⟨c, hc, rfl⟩,
      List.mem_map.mpr ⟨⟨s, value⟩, mem_term.mpr ⟨i, hs, hvalue⟩, rfl⟩⟩
  · rintro ⟨t, ht, hs⟩
    obtain ⟨c, hc, rfl⟩ := hf.mem_iff.mp ht
    obtain ⟨l, hl, rfl⟩ := List.mem_map.mp hs
    obtain ⟨i, hi, hcolumn⟩ := mem_term.mp hl
    obtain ⟨hlt, -⟩ := List.getElem?_eq_some_iff.mp hi
    refine ⟨i, List.mem_filter.mpr ⟨List.mem_range.mpr (hf.width ▸ hlt), ?_⟩, hi⟩
    exact List.any_eq_true.mpr ⟨c, hc, by simp [hcolumn]⟩

/-- So the number of these columns is the number of symbols of the terms. -/
theorem Presents.literalColumns_length (hf : form.Presents f ts) :
    (CoveringTable.literalColumns f.width f.cubes).length =
      (sortDistinct compare (ts.flatMap fun t ↦ t.map Literal.symbol)).length := by
  rw [← hf.literalColumns_symbols, eq_comm, List.filterMap_length_eq_length]
  intro i hi
  have hlt : i < form.symbols.length := by
    rw [← hf.width]
    exact List.mem_range.mp (List.mem_filter.mp hi).1
  simp [hlt]

theorem Presents.holders_eq (hf : form.Presents f ts) (assignment : Symbol → Bool) :
    CoveringTable.holders f.cubes (form.row assignment) = Term.holders ts assignment := by
  rw [CoveringTable.holders, Term.holders, ← hf.terms, termsOf, List.length_map,
    List.zip_map_right, List.filter_map, List.map_map]
  refine congrArg (List.map Prod.fst) (List.filter_congr ?_)
  rintro ⟨position, c⟩ hmem
  exact (holds_term hf.form_wellFormed (hf.width_of_mem (List.of_mem_zip hmem).2)).symm

theorem Presents.mem_rows_iff (hf : form.Presents f ts) {table : CoveringTable}
    (htable : CoveringTable.ofCubes? f.width f.cubes = some table) {row : List Nat} :
    row ∈ table.rows ↔ row ≠ [] ∧ ∃ assignment, row = Term.holders ts assignment := by
  rw [CoveringTable.mem_rows_iff hf.cover_wellFormed htable]
  refine and_congr_right fun _ ↦ ?_
  constructor
  · rintro ⟨point, hlength, rfl⟩
    obtain ⟨assignment, rfl⟩ := exists_row hf.form_wellFormed (hlength.trans hf.width)
    exact ⟨assignment, hf.holders_eq assignment⟩
  · rintro ⟨assignment, rfl⟩
    exact ⟨form.row assignment, length_row.trans hf.width.symm, (hf.holders_eq assignment).symm⟩

theorem literalCount_eq_length_term {c : Cube} (hc : c.width = form.symbols.length) :
    c.literalCount = (form.term c).length := by
  have hsnd : (form.symbols.zip c.columns).map Prod.snd = c.columns :=
    List.map_snd_zip hc.le
  have hsome : (fun column : Symbol × Column ↦ (column.2.map (Literal.mk column.1)).isSome) =
      Option.isSome ∘ Prod.snd := by
    ext ⟨s, column⟩
    simp
  rw [Cube.literalCount, term, List.length_filterMap_eq_countP]
  conv_lhs => rw [← hsnd, List.countP_map]
  rw [← hsome]

theorem Presents.map_literalCount (hf : form.Presents f ts) :
    f.cubes.map Cube.literalCount = ts.map List.length := by
  rw [← hf.terms, termsOf, List.map_map]
  exact List.map_congr_left fun c hc ↦ literalCount_eq_length_term (hf.width_of_mem hc)

/-- Covers with the same terms have the same covering table, or both are too wide for one. -/
theorem Presents.ofCubes?_eq (hf : first.Presents f ts) (hg : second.Presents g ts) :
    CoveringTable.ofCubes? f.width f.cubes = CoveringTable.ofCubes? g.width g.cubes := by
  have hcolumns : (CoveringTable.literalColumns f.width f.cubes).length =
      (CoveringTable.literalColumns g.width g.cubes).length :=
    hf.literalColumns_length.trans hg.literalColumns_length.symm
  rcases hftable : CoveringTable.ofCubes? f.width f.cubes with _ | table
  · rw [CoveringTable.ofCubes?_eq_none_iff, hcolumns] at hftable
    exact (CoveringTable.ofCubes?_eq_none_iff.mpr hftable).symm
  rcases hgtable : CoveringTable.ofCubes? g.width g.cubes with _ | other
  · rw [CoveringTable.ofCubes?_eq_none_iff, ← hcolumns, ← CoveringTable.ofCubes?_eq_none_iff,
      hftable] at hgtable
    cases hgtable
  have hrows : table.rows = other.rows :=
    eq_of_pairwise_of_mem_iff asymm_of_orientedCmp (CoveringTable.pairwise_rows hftable)
      (CoveringTable.pairwise_rows hgtable) fun row ↦ by
        rw [hf.mem_rows_iff hftable, hg.mem_rows_iff hgtable]
  have hcosts : table.costs = other.costs := by
    have hcounts := congrArg (List.map UInt64.ofNat)
      (hf.map_literalCount.trans hg.map_literalCount.symm)
    rw [List.map_map, List.map_map] at hcounts
    rw [CoveringTable.costs_eq hftable, CoveringTable.costs_eq hgtable]
    exact congrArg List.toArray hcounts
  cases table
  cases other
  cases hrows
  cases hcosts
  rfl

/-! ### Choosing cubes -/

theorem Presents.select (hf : form.Presents f ts) (positions : List Nat) :
    form.Presents (f.select positions) (form.termsOf (f.select positions)) := by
  refine ⟨hf.form_wellFormed, fun c hc ↦ ?_, hf.width, rfl⟩
  obtain ⟨position, -, hposition⟩ := Cover.mem_select.mp hc
  exact hf.cover_wellFormed c (List.mem_of_getElem? hposition)

theorem Presents.mem_termsOf_select (hf : form.Presents f ts) {positions : List Nat} {t : Term} :
    t ∈ form.termsOf (f.select positions) ↔ ∃ position ∈ positions, ts[position]? = some t := by
  simp only [termsOf, List.mem_map, Cover.mem_select, ← hf.terms, List.getElem?_map,
    Option.map_eq_some_iff]
  constructor
  · rintro ⟨c, ⟨position, hposition, hc⟩, rfl⟩
    exact ⟨position, hposition, c, hc, rfl⟩
  · rintro ⟨position, hposition, c, hc, rfl⟩
    exact ⟨c, ⟨position, hposition, hc⟩, rfl⟩

/-- The same positions of covers with the same terms select the same terms. -/
theorem Presents.termsOf_select_eq (hf : first.Presents f ts) (hg : second.Presents g ts)
    (positions : List Nat) :
    first.termsOf (f.select positions) = second.termsOf (g.select positions) :=
  (hf.select positions).eq_of_mem_iff (hg.select positions) fun t ↦ by
    rw [hf.mem_termsOf_select, hg.mem_termsOf_select]

/-! ### Leaving out cubes -/

theorem Presents.without (hf : form.Presents f ts) {c : Cube}
    (hc : c.width = form.symbols.length) :
    form.Presents (f.without c) (ts.filter (· != form.term c)) := by
  refine ⟨hf.form_wellFormed, hf.cover_wellFormed.filter _, hf.width, ?_⟩
  rw [← hf.terms, termsOf, termsOf, Cover.without, Cover.filter, List.filter_map]
  refine congrArg (List.map form.term) (List.filter_congr fun d hd ↦ ?_)
  have hinjective : form.term d = form.term c ↔ d = c := by
    refine ⟨fun heq ↦ ?_, fun heq ↦ heq ▸ rfl⟩
    rw [← cube_term hf.form_wellFormed hc, ← heq, cube_term hf.form_wellFormed (hf.width_of_mem hd)]
  rw [Function.comp_apply, Bool.eq_iff_iff, bne_iff_ne, bne_iff_ne, Ne, Ne, hinjective]

/-- A cover covers a cube when one of its terms holds wherever the term of the cube does. -/
theorem Presents.covers_iff (hf : form.Presents f ts) {c : Cube}
    (hc : c.width = form.symbols.length) : f.covers c = true ↔
      ∀ assignment, (form.term c).holds assignment .and = true →
        Term.allHold assignment .or ts = true := by
  rw [Cover.covers_iff hf.cover_wellFormed (hc.trans hf.width.symm), Set.subset_def,
    forall_mem_points_iff hf.form_wellFormed hc]
  simp only [row_mem_points_cover hf.form_wellFormed hf.cover_wellFormed hf.width, hf.terms]

/-- Covers with the same terms keep the same terms when the same ones are tried. -/
theorem termsOf_dropCovered_eq {cs : List Cube} : ∀ {ds : List Cube} {f g : Cover} {ts : List Term},
    first.Presents f ts → second.Presents g ts → (∀ c ∈ cs, c.width = first.symbols.length) →
      (∀ d ∈ ds, d.width = second.symbols.length) → cs.map first.term = ds.map second.term →
        first.termsOf (Cover.dropCovered cs f) = second.termsOf (Cover.dropCovered ds g) := by
  induction cs with
  | nil =>
    intro ds f g ts hf hg _ _ htried
    obtain rfl := List.map_eq_nil_iff.mp htried.symm
    exact hf.terms.trans hg.terms.symm
  | cons c cs ih =>
    intro ds f g ts hf hg hcs hds htried
    cases ds with
    | nil => cases htried
    | cons d ds =>
      obtain ⟨hterm, hrest⟩ := List.cons.inj htried
      have hc := hcs c List.mem_cons_self
      have hd := hds d List.mem_cons_self
      have hfwithout := hf.without hc
      have hgwithout := hg.without hd
      rw [← hterm] at hgwithout
      have hcovers : (f.without c).covers c = (g.without d).covers d := by
        rw [Bool.eq_iff_iff, hfwithout.covers_iff hc, hgwithout.covers_iff hd, hterm]
      have hcs' : ∀ e ∈ cs, e.width = first.symbols.length := fun e he ↦
        hcs e (List.mem_cons_of_mem _ he)
      have hds' : ∀ e ∈ ds, e.width = second.symbols.length := fun e he ↦
        hds e (List.mem_cons_of_mem _ he)
      rw [Cover.dropCovered, Cover.dropCovered, ← hcovers]
      by_cases hcovered : (f.without c).covers c = true
      · rw [if_pos hcovered, if_pos hcovered]
        exact ih hfwithout hgwithout hcs' hds' hrest
      · rw [if_neg hcovered, if_neg hcovered]
        exact ih hf hg hcs' hds' hrest

theorem Presents.termsOf_irredundant_eq (hf : first.Presents f ts) (hg : second.Presents g ts) :
    first.termsOf f.irredundant = second.termsOf g.irredundant := by
  refine termsOf_dropCovered_eq hf hg (fun c hc ↦ hf.width_of_mem (List.mem_reverse.mp hc))
    (fun d hd ↦ hg.width_of_mem (List.mem_reverse.mp hd)) ?_
  rw [List.map_reverse, List.map_reverse]
  exact congrArg List.reverse (hf.terms.trans hg.terms.symm)

/-! ### Minimum covers -/

theorem termsOf_whole (form : TwoLevel) :
    form.termsOf (.ofList form.symbols.length [Cube.whole form.symbols.length]) = [[]] := by
  have hterm : form.term (Cube.whole form.symbols.length) = [] :=
    (isWhole_iff_term_eq_nil (Cube.width_whole _)).mp (Cube.isWhole_iff.mpr fun i ↦ by simp)
  rw [termsOf, Cover.cubes_ofList_singleton, List.map_singleton, hterm]

theorem presents_primes (hform : form.WellFormed) :
    form.Presents form.cover.primes (form.termsOf form.cover.primes) :=
  ⟨hform, Cover.wellFormed_primes form.wellFormed_cover, Cover.width_primes _, rfl⟩

theorem presents_minimum (hform : form.WellFormed) :
    form.Presents form.cover.minimum (form.termsOf form.cover.minimum) :=
  ⟨hform, Cover.wellFormed_minimum form.wellFormed_cover,
    Cover.width_minimum form.wellFormed_cover, rfl⟩

/-- The minimum covers of two forms with the same sum have the same terms in the same order. -/
theorem terms_minimum_eq (hfirst : first.WellFormed) (hsecond : second.WellFormed)
    (hsum : first.sum = second.sum) :
    first.termsOf first.cover.minimum = second.termsOf second.cover.minimum := by
  have hprimes := terms_primes_eq hfirst hsecond hsum
  have hf := presents_primes hfirst
  have hg := presents_primes hsecond
  rw [← hprimes] at hg
  have hwhole : first.cover.primes.containsWhole = second.cover.primes.containsWhole := by
    rw [Bool.eq_iff_iff, hf.containsWhole_iff, hg.containsWhole_iff]
  rw [Cover.minimum, Cover.minimum, ← hwhole, ← hf.ofCubes?_eq hg]
  by_cases hcontains : first.cover.primes.containsWhole = true
  · rw [if_pos hcontains, if_pos hcontains]
    exact (termsOf_whole first).trans (termsOf_whole second).symm
  · rw [if_neg hcontains, if_neg hcontains]
    cases CoveringTable.ofCubes? first.cover.primes.width first.cover.primes.cubes with
    | none => exact hf.termsOf_irredundant_eq hg
    | some table => exact hf.termsOf_select_eq hg _

end TwoLevel

namespace Policy

variable {p : Policy} {op : Connective}

/-! ### Evaluated joins -/

/-- A minimum two-level form is made from the terms of its minimum cover. -/
theorem minimize_eq (p : Policy) (op : Connective) (operands : List Expr) :
    p.minimize op operands =
      if [] ∈ (TwoLevel.ofOperands op operands).termsOf
          (TwoLevel.ofOperands op operands).cover.minimum then .truth (p.truth op.annihilator)
      else joinLeft op (.truth (p.truth op.identity))
        (Expr.distinct (((TwoLevel.ofOperands op operands).termsOf
          (TwoLevel.ofOperands op operands).cover.minimum).map fun t ↦
            p.term op (p.literalsOf t))) := by
  have hpresents := TwoLevel.presents_minimum (TwoLevel.wellFormed_ofOperands op operands)
  rw [minimize, TwoLevel.termsOf, List.map_map]
  simp only [TwoLevel.literals_eq, hpresents.containsWhole_iff]
  rfl

/-- Two-level forms of operands whose joins have the same values are the same. -/
theorem minimize_eq_of_holds_eq {es fs : List Expr}
    (hsame : ∀ assignment, (Expr.join .raw op es).holds assignment =
      (Expr.join .raw op fs).holds assignment) : p.minimize op es = p.minimize op fs := by
  have hsum : (TwoLevel.ofOperands op es).sum = (TwoLevel.ofOperands op fs).sum := by
    ext assignment
    rw [← @Connective.orient_orient op assignment, TwoLevel.sum_ofOperands .raw,
      TwoLevel.sum_ofOperands .raw, hsame]
  rw [minimize_eq, minimize_eq, TwoLevel.terms_minimum_eq (TwoLevel.wellFormed_ofOperands op es)
    (TwoLevel.wellFormed_ofOperands op fs) hsum]

/-- The two-level form of operands among which is the annihilator is the annihilator. -/
theorem minimize_of_annihilator (hp : p.Faithful) {es : List Expr}
    (hannihilator : es.any (Expr.isTruth op.annihilator) = true) :
    p.minimize op es = .truth op.annihilator := by
  have hform := TwoLevel.wellFormed_ofOperands op es
  have hcover := (TwoLevel.ofOperands op es).wellFormed_cover
  have hwhole : (TwoLevel.ofOperands op es).cover.minimum.containsWhole = true := by
    refine Cover.containsWhole_minimum hcover fun point hlength ↦ ?_
    obtain ⟨assignment, rfl⟩ := TwoLevel.exists_row hform hlength
    rw [TwoLevel.row_mem_points_iff_sum hform, ← @Connective.orient_orient op assignment,
      TwoLevel.sum_ofOperands .raw]
    exact decides_join_of_annihilator .raw hannihilator
  rw [minimize, if_pos hwhole, hp.truth]

/-- The two-level form of no operands is the identity. -/
theorem minimize_nil (hp : p.Faithful) : p.minimize op [] = .truth op.identity := by
  have hcover := (TwoLevel.ofOperands op []).wellFormed_cover
  have hcubes : (TwoLevel.ofOperands op []).cover.minimum.cubes = [] := by
    refine Cover.cubes_minimum_eq_nil hcover fun point hpoint ↦ ?_
    obtain ⟨c, hc, -⟩ := (Cover.mem_points_iff hcover).mp hpoint
    obtain ⟨t, ht, -⟩ := List.mem_map.mp (Cover.mem_ofList.mp hc)
    exact absurd (Term.mem_distinct.mp ht) List.not_mem_nil
  rw [minimize, Cover.containsWhole, hcubes, List.any_nil, if_neg Bool.false_ne_true, hp.truth]
  simp [Expr.distinct, sortDistinct, dropRepeats, joinLeft]

/-- Operands of which not exactly one is left are brought into two-level form, even if there is none
left or the annihilator decides. -/
theorem combine_eq_minimize (hp : p.Faithful) {operands : List Expr}
    (hparts : (p.parts op operands).length ≠ 1) :
    p.combine op operands = p.minimize op (p.parts op operands) := by
  rw [combine, hp.truth, hp.truth]
  split_ifs with hannihilator
  · exact (minimize_of_annihilator hp hannihilator).symm
  · generalize p.parts op operands = parts at hparts ⊢
    rcases parts with _ | ⟨d, _ | ⟨e, rest⟩⟩
    · exact (minimize_nil hp).symm
    · exact absurd rfl hparts
    · rfl

/-- Lists of operands whose joins denote the same function have the same evaluated join, with the
same operands in the same order, unless either list is left with exactly one operand once its
operands are evaluated, operands of the connective are spliced in, and repeated ones and the
identity are dropped. The lists may mention different symbols, and any number of them. -/
theorem join_canonical {es fs : List Expr}
    (hsame : ∀ assignment : Symbol → Bool, (Expr.join .raw op es).holds assignment =
      (Expr.join .raw op fs).holds assignment)
    (hes : (standard.parts op (es.map standard.eval)).length ≠ 1)
    (hfs : (standard.parts op (fs.map standard.eval)).length ≠ 1) :
    standard.join .evaluated op es = standard.join .evaluated op fs := by
  have hp : standard.Faithful := ⟨fun _ ↦ rfl, fun _ ↦ rfl⟩
  have heval : ∀ (gs : List Expr) (assignment : Symbol → Bool),
      (Expr.join .raw op (standard.parts op (gs.map standard.eval))).holds assignment =
        (Expr.join .raw op gs).holds assignment := by
    intro gs assignment
    rw [holds_join_parts hp, holds_join_map_eval hp]
  show standard.combine op (es.map standard.eval) = standard.combine op (fs.map standard.eval)
  rw [combine_eq_minimize hp hes, combine_eq_minimize hp hfs]
  exact minimize_eq_of_holds_eq fun assignment ↦ by rw [heval, heval, hsame]

/-- A sum of two symbols. -/
def twoSymbols : List Expr :=
  [.symbol (.name "a"), .symbol (.name "b")]

/-- The same sum with an operand of a further symbol that changes nothing. -/
def threeSymbols : List Expr :=
  [.symbol (.name "b"), .join .raw .and [.symbol (.name "a"), .symbol (.name "c")],
    .symbol (.name "a")]

/-- The two lists are left with two and with three operands, and their joins are the same. -/
theorem join_twoSymbols_eq :
    (∀ assignment : Symbol → Bool, (Expr.join .raw .or twoSymbols).holds assignment =
      (Expr.join .raw .or threeSymbols).holds assignment) ∧
      (standard.parts .or (twoSymbols.map standard.eval)).length ≠ 1 ∧
        (standard.parts .or (threeSymbols.map standard.eval)).length ≠ 1 ∧
          standard.join .evaluated .or twoSymbols = standard.join .evaluated .or threeSymbols := by
  have hsame : ∀ assignment : Symbol → Bool, (Expr.join .raw .or twoSymbols).holds assignment =
      (Expr.join .raw .or threeSymbols).holds assignment := by
    intro assignment
    simp only [twoSymbols, threeSymbols, Expr.holds_join_or, Expr.holds_join_and, List.any_cons,
      List.all_cons, List.any_nil, List.all_nil, Expr.holds_symbol]
    cases assignment (.name "a") <;> cases assignment (.name "b") <;>
      cases assignment (.name "c") <;> rfl
  have htwo : (standard.parts .or (twoSymbols.map standard.eval)).length ≠ 1 := by cbv
  have hthree : (standard.parts .or (threeSymbols.map standard.eval)).length ≠ 1 := by cbv
  exact ⟨hsame, htwo, hthree, join_canonical hsame htwo hthree⟩

end Policy

end SwitchingAlgebra
