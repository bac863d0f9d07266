import Mathlib
import SwitchingAlgebra.Proofs.NeededLiterals
import SwitchingAlgebra.Proofs.Reachable

/-!
# Evaluated joins are minimum two-level forms

A list of terms that has the value of an evaluated join is a two-level form of its function, however
its literals are arranged: putting them in order and leaving out the terms that never hold takes no
further term and no further literal. Over the symbols of these terms a minimum cover has the terms
of the evaluated join again, since it depends on the function alone. So where the function depends
on at most sixteen symbols, the list has at least as many terms as the join has operands, and with
as many terms at least as many literals.

For AND the terms are clauses, and the function is turned around.

Main statement: `Reachable.minimum_form`.
-/

set_option autoImplicit false
set_option relaxedAutoImplicit false

namespace SwitchingAlgebra

open Policy

variable {op : Connective} {e : Expr} {es : List Expr} {mode : Mode} {t u : Term}
  {ts : List Term} {l : Literal} {assignment : Symbol → Bool}

namespace Term

/-! ### Literals in order -/

theorem length_le_of_insert? (hinsert : insert? l t = some u) : u.length ≤ t.length + 1 := by
  induction t generalizing u with
  | nil =>
    cases hinsert
    exact le_rfl
  | cons m rest ih =>
    rw [insert?] at hinsert
    split at hinsert
    · cases hinsert
      exact le_rfl
    · split_ifs at hinsert
      cases hinsert
      exact Nat.le_succ _
    · obtain ⟨inserted, hinserted, rfl⟩ := Option.map_eq_some_iff.mp hinsert
      exact Nat.succ_le_succ (ih hinserted)

theorem length_le_of_merge? {merged : Term} (hmerge : merge? t u = some merged) :
    merged.length ≤ t.length + u.length := by
  induction u generalizing t with
  | nil =>
    cases hmerge
    exact le_rfl
  | cons l rest ih =>
    obtain ⟨inserted, hinserted, hmerged⟩ := Option.bind_eq_some_iff.mp hmerge
    have hlength := length_le_of_insert? hinserted
    have hrest := ih hmerged
    rw [List.length_cons]
    omega

/-- The terms with their literals in order, without the terms that have opposite literals. -/
def ordered (ts : List Term) : List Term :=
  ts.filterMap (merge? [])

theorem increasing_of_mem_ordered (ht : t ∈ ordered ts) : t.Increasing := by
  obtain ⟨u, -, hmerge⟩ := List.mem_filterMap.mp ht
  exact Increasing.merge? List.Pairwise.nil hmerge

theorem allHold_ordered (ts : List Term) :
    allHold assignment .or (ordered ts) = allHold assignment .or ts := by
  have hmerged : allHold assignment .or (ordered ts) =
      ts.any fun t ↦ (merge? [] t).any (holds assignment .and) := List.any_filterMap
  have hnil : holds assignment .and [] = true := rfl
  rw [hmerged, allHold]
  simp only [any_merge?, hnil, Bool.true_and]

/-- The number of some terms with their total number of literals. -/
def price (ts : List Term) : Price :=
  ⟨ts.length, (ts.map List.length).sum⟩

theorem price_ordered_le (ts : List Term) : price (ordered ts) ≤ price ts := by
  refine Price.le_of_components (List.length_filterMap_le _ _) ?_
  show ((ordered ts).map List.length).sum ≤ (ts.map List.length).sum
  induction ts with
  | nil => exact le_rfl
  | cons t rest ih =>
    rw [ordered] at ih ⊢
    rw [List.filterMap_cons, List.map_cons, List.sum_cons]
    rcases hmerge : merge? [] t with _ | merged
    · dsimp only
      omega
    · have hlength := length_le_of_merge? hmerge
      rw [List.length_nil] at hlength
      rw [List.map_cons, List.sum_cons]
      omega

end Term

/-- A strictly increasing list of symbols is as long as the set of its symbols is large. -/
theorem encard_mem_eq_length {symbols : List Symbol}
    (hsymbols : symbols.Pairwise fun s t ↦ compare s t = .lt) :
    {s | s ∈ symbols}.encard = symbols.length := by
  have hnodup : symbols.Nodup := nodup_of_pairwise_lt hsymbols
  rw [← List.coe_toFinset, Set.encard_coe_eq_coe_finsetCard, List.toFinset_card_of_nodup hnodup]

namespace TwoLevel

variable {form : TwoLevel} {f : Cover}

/-! ### Prices of forms -/

theorem Presents.price_eq (hf : form.Presents f ts) : f.price = Term.price ts := by
  rw [Cover.price, Cover.literalCount_eq_sum, hf.map_literalCount, Term.price, ← hf.terms, termsOf,
    List.length_map]

/-- The cover of a form is no dearer than its terms. -/
theorem price_cover_le (hform : form.WellFormed) : form.cover.price ≤ Term.price form.terms := by
  have hterms : (form.terms.map form.cube).map Cube.literalCount = form.terms.map List.length := by
    rw [List.map_map]
    refine List.map_congr_left fun t ht ↦ ?_
    rw [Function.comp_apply, literalCount_eq_length_term width_cube,
      term_cube hform (hform.increasing_terms t ht) (hform.mem_symbols t ht)]
  refine Price.le_of_components ?_ ?_
  · exact (length_sortDistinct_le _).trans (List.length_map _).le
  · rw [Cover.price, Cover.literalCount_eq_sum, Term.price, ← hterms]
    exact sum_map_sortDistinct_le Cube.literalCount _

/-- The primes have literals in no more columns than the sum depends on symbols. -/
theorem literalColumns_length_le (hform : form.WellFormed) :
    ((CoveringTable.literalColumns form.cover.primes.width form.cover.primes.cubes).length : ℕ∞) ≤
      {s | DependsOn form.sum s}.encard := by
  rw [(presents_primes hform).literalColumns_length,
    ← encard_mem_eq_length (pairwise_sortDistinct _)]
  refine Set.encard_le_encard fun s hs ↦ ?_
  obtain ⟨t, ht, hs⟩ := List.mem_flatMap.mp (mem_sortDistinct.mp hs)
  obtain ⟨l, hl, rfl⟩ := List.mem_map.mp hs
  exact exists_isNeeded_iff.mp ⟨l, rfl, ((mem_termsOf_primes hform).mp ht).isNeeded hl⟩

/-- Where the sum depends on few enough symbols, the terms of a minimum cover are no dearer than
those of the form. -/
theorem price_minimum_le (hform : form.WellFormed)
    (hfew : {s | DependsOn form.sum s}.encard ≤ CoveringTable.maxColumns) :
    Term.price (form.termsOf form.cover.minimum) ≤ Term.price form.terms := by
  have hcolumns := (literalColumns_length_le hform).trans hfew
  rw [Cover.width_primes, Nat.cast_le] at hcolumns
  have hminimum := Cover.minimum_price_le form.wellFormed_cover hcolumns form.wellFormed_cover rfl
    rfl
  rw [(presents_minimum hform).price_eq] at hminimum
  exact Price.le_trans hminimum (price_cover_le hform)

end TwoLevel

namespace Expr

/-! ### Evaluated joins -/

theorem dependsOn_decision_iff {s : Symbol} :
    DependsOn (e.decision op) s ↔ DependsOn e.holds s := by
  rw [← exists_isNeeded_iff, ← exists_isNeeded_iff]
  simp only [isNeeded_decision_iff]

/-- The terms of a minimum two-level form are no dearer than any terms with its value. -/
theorem price_minimumTerms_le
    (hfew : {s | DependsOn (Expr.join mode op es).holds s}.encard ≤ CoveringTable.maxColumns)
    (hts : ∀ assignment, Term.allHold assignment op ts =
      (Expr.join mode op es).holds assignment) :
    Term.price (minimumTerms op es) ≤ Term.price ts := by
  have hform : (TwoLevel.ofTerms (Term.ordered ts)).WellFormed :=
    TwoLevel.wellFormed_ofTerms fun _ ↦ Term.increasing_of_mem_ordered
  have hsum : (TwoLevel.ofTerms (Term.ordered ts)).sum = (Expr.join mode op es).decision op := by
    ext assignment
    rw [decision, ← hts, Term.decides_allHold, Connective.orient_orient]
    exact Term.allHold_ordered ts
  have hsame : minimumTerms op es = (TwoLevel.ofTerms (Term.ordered ts)).termsOf
      (TwoLevel.ofTerms (Term.ordered ts)).cover.minimum :=
    TwoLevel.terms_minimum_eq (TwoLevel.wellFormed_ofOperands op es) hform
      ((sum_eq_decision mode op es).trans hsum.symm)
  rw [hsame]
  refine Price.le_trans (TwoLevel.price_minimum_le hform ?_) (Term.price_ordered_le ts)
  rw [hsum]
  simp only [dependsOn_decision_iff]
  exact hfew

/-- A minimum two-level form has no more operands than terms, and no more literals. -/
theorem IsMinimum.price_le (hes : IsMinimum op es) :
    (⟨es.length, (Expr.join .evaluated op es).literalLeaves.length⟩ : Price) ≤
      Term.price (minimumTerms op es) := by
  have hdistinct := hes.eq_distinct.2
  refine Price.le_of_components ?_ ?_
  · conv_lhs => rw [hdistinct]
    exact (length_sortDistinct_le _).trans (List.length_map _).le
  · rw [literalLeaves, literalLeavesAll_eq_flatMap, List.length_flatMap]
    conv_lhs => rw [hdistinct]
    refine (sum_map_sortDistinct_le (fun e : Expr ↦ e.literalLeaves.length) _).trans (le_of_eq ?_)
    rw [List.map_map]
    refine congrArg List.sum (List.map_congr_left fun t _ ↦ ?_)
    rw [Function.comp_apply, literalLeaves_term, literalsOf, List.length_map]

/-- An evaluated expression has as many symbols as its function depends on. -/
theorem Evaluated.encard_dependsOn (he : e.Evaluated) :
    {s | DependsOn e.holds s}.encard = e.symbols.length := by
  simp only [← he.mem_symbols_iff]
  exact encard_mem_eq_length (pairwise_sortDistinct _)

/-- Wherever an evaluated join stands in an expression that the operations reach, if its function
depends on at most sixteen symbols, any terms with its value, each read with the dual connective and
joined with its own, are at least as many as its operands; and if they are as many, they have at
least as many literals. -/
theorem Reachable.minimum_form (he : e.Reachable)
    (hnode : (Expr.join .evaluated op es).IsNode e)
    (hfew : {s | DependsOn (Expr.join .evaluated op es).holds s}.encard ≤ 16)
    (hts : ∀ assignment, Term.allHold assignment op ts =
      (Expr.join .evaluated op es).holds assignment) :
    es.length ≤ ts.length ∧ (ts.length = es.length →
      (Expr.join .evaluated op es).literalLeaves.length ≤ (ts.map List.length).sum) := by
  have hevaluated : (Expr.join .evaluated op es).Evaluated :=
    (he.settled.of_isNode hnode).evaluated_of_mode rfl
  cases hevaluated with | join hes =>
  have hprice : es.length < ts.length ∨ es.length = ts.length ∧
      (Expr.join .evaluated op es).literalLeaves.length ≤ (ts.map List.length).sum :=
    Price.le_iff.mp (Price.le_trans hes.price_le (price_minimumTerms_le hfew hts))
  omega

/-- The terms of the choice between two symbols, in another order and with a literal twice. -/
def repeatedTerms : List Term :=
  [[⟨.name "c", true⟩, ⟨.name "a", false⟩],
    [⟨.name "b", true⟩, ⟨.name "a", true⟩, ⟨.name "b", true⟩]]

/-- The choice below the negation in the guarded choice is a minimum form: terms of one form have
five literals, and terms of no form are fewer or have fewer than four. -/
theorem guardedChoice_minimum_form : guardedChoice.Reachable ∧
    evaluatedChoice.IsNode guardedChoice ∧
      {s | DependsOn evaluatedChoice.holds s}.encard ≤ 16 ∧
        (∀ assignment, Term.allHold assignment .or repeatedTerms =
          evaluatedChoice.holds assignment) ∧
          evaluatedChoice.literalLeaves.length ≤ (repeatedTerms.map List.length).sum ∧
            ∀ ts : List Term, (∀ assignment, Term.allHold assignment .or ts =
              evaluatedChoice.holds assignment) →
                2 ≤ ts.length ∧ (ts.length = 2 → 4 ≤ (ts.map List.length).sum) := by
  have hnode : evaluatedChoice.IsNode guardedChoice :=
    isNode_guardedChoice.tail (List.mem_singleton_self _)
  have hevaluated : evaluatedChoice.Evaluated :=
    (reachable_guardedChoice.settled.of_isNode hnode).evaluated_of_mode rfl
  have hfew : {s | DependsOn evaluatedChoice.holds s}.encard ≤ 16 := by
    have hsymbols : evaluatedChoice.symbols = [.name "a", .name "b", .name "c"] := by cbv
    rw [hevaluated.encard_dependsOn, hsymbols]
    decide
  have hvalue : ∀ assignment, Term.allHold assignment .or repeatedTerms =
      evaluatedChoice.holds assignment := by
    intro assignment
    simp only [repeatedTerms, evaluatedChoice, Term.allHold, Term.holds, Literal.holds,
      List.any_cons, List.any_nil, List.all_cons, List.all_nil, holds_join_or, holds_join_and,
      holds_not, holds_symbol]
    cases assignment (.name "a") <;> cases assignment (.name "b") <;>
      cases assignment (.name "c") <;> rfl
  have hleaves : evaluatedChoice.literalLeaves.length = 4 := by cbv
  have hminimum := reachable_guardedChoice.minimum_form hnode hfew hvalue
  refine ⟨reachable_guardedChoice, hnode, hfew, hvalue, hminimum.2 rfl, fun ts hts ↦ ?_⟩
  have hforms := reachable_guardedChoice.minimum_form hnode hfew hts
  rw [← evaluatedChoice, hleaves] at hforms
  exact hforms

end Expr

end SwitchingAlgebra
