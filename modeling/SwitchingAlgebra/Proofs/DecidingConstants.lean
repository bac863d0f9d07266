import Mathlib
import SwitchingAlgebra.Proofs.BooleanLaws
import SwitchingAlgebra.Proofs.NormalForms

/-!
# What constants decide

The constants in an expression may decide its value, whatever the symbols stand for. In three-valued
logic this is the value of the expression when all symbols are unknown: an operand that is the
annihilator decides a join, operands that are all the identity make it the identity, and otherwise
it is unknown.

A normal form is the identity alone wherever the expression always has that value, since no term is
left then. With the annihilator it is different. Terms are left out when they hold all literals of
a shorter one, but not when several of them decide the connective together, so the normal form is
the annihilator alone only where there is an empty term. Empty terms come from constants and never
from symbols.

Main statements: an expression has an empty term just when its constants decide the connective
(`nil_mem_terms_iff`), and what the normal form of an expression is that always has the value of
the annihilator (`normalForm_annihilator`).
-/

set_option autoImplicit false
set_option relaxedAutoImplicit false

namespace SwitchingAlgebra

open Policy

variable {op : Connective} {negated : Bool} {e : Expr} {es : List Expr} {t u : Term}
  {ts us : List Term} {values : List (Option Bool)}

/-! ### Three-valued logic -/

/-- The value of a join of operands whose values may be unknown. -/
def Connective.fixedValue? (op : Connective) (values : List (Option Bool)) : Option Bool :=
  if some op.annihilator ∈ values then some op.annihilator
  else if ∀ value ∈ values, value = some op.identity then some op.identity
  else none

theorem Connective.annihilator_ne_identity (op : Connective) : op.annihilator ≠ op.identity :=
  Bool.not_ne_self _

theorem Connective.fixedValue?_eq_annihilator_iff :
    op.fixedValue? values = some op.annihilator ↔ some op.annihilator ∈ values := by
  rw [fixedValue?]
  split_ifs with hannihilator
  · exact iff_of_true rfl hannihilator
  · exact iff_of_false (fun heq ↦ op.annihilator_ne_identity (Option.some.inj heq).symm)
      hannihilator
  · exact iff_of_false nofun hannihilator

theorem Connective.fixedValue?_eq_identity_iff : op.fixedValue? values = some op.identity ↔
    ∀ value ∈ values, value = some op.identity := by
  rw [fixedValue?]
  split_ifs with hannihilator hidentity
  · have hne : some op.annihilator ≠ some op.identity := fun heq ↦
      op.annihilator_ne_identity (Option.some.inj heq)
    exact iff_of_false hne fun hall ↦ hne (hall _ hannihilator)
  · exact iff_of_true rfl hidentity
  · exact iff_of_false nofun hidentity

namespace Expr

mutual

/-- The value that the constants of an expression decide: its value in three-valued logic when all
symbols are unknown. -/
def fixedValue? : Expr → Option Bool
  | truth value => some value
  | symbol _ => none
  | not _ operand => operand.fixedValue?.map (! ·)
  | join _ op operands => op.fixedValue? (fixedValues operands)

/-- The values that the constants of each expression decide. -/
def fixedValues : List Expr → List (Option Bool)
  | [] => []
  | e :: rest => e.fixedValue? :: fixedValues rest

end

theorem fixedValues_eq_map (es : List Expr) : fixedValues es = es.map fixedValue? := by
  induction es with
  | nil => rw [fixedValues, List.map_nil]
  | cons e rest ih => rw [fixedValues, ih, List.map_cons]

end Expr

/-! ### Empty terms -/

namespace Term

theorem insert?_ne_nil (l : Literal) (t : Term) : insert? l t ≠ some [] := by
  cases t with
  | nil => simp [insert?]
  | cons m rest =>
    rw [insert?]
    split
    · simp
    · split_ifs <;> simp
    · simp

theorem merge?_eq_some_nil_iff : merge? t u = some [] ↔ t = [] ∧ u = [] := by
  induction u generalizing t with
  | nil => simp [merge?]
  | cons l rest ih =>
    rw [merge?, Option.bind_eq_some_iff]
    refine iff_of_false ?_ fun hnil ↦ List.cons_ne_nil _ _ hnil.2
    rintro ⟨inserted, hinsert, hmerge⟩
    rw [(ih.mp hmerge).1] at hinsert
    exact insert?_ne_nil l t hinsert

theorem nil_mem_cross_iff : [] ∈ cross ts us ↔ [] ∈ ts ∧ [] ∈ us := by
  rw [cross, mem_distinct, List.mem_flatMap]
  simp only [List.mem_filterMap, merge?_eq_some_nil_iff]
  constructor
  · rintro ⟨_, ht, _, hu, rfl, rfl⟩
    exact ⟨ht, hu⟩
  · rintro ⟨ht, hu⟩
    exact ⟨[], ht, [], hu, rfl, rfl⟩

end Term

namespace Expr

theorem nil_mem_crossedTerms_iff : [] ∈ crossedTerms op es negated ts ↔
    [] ∈ ts ∧ ∀ e ∈ es, [] ∈ e.terms op negated := by
  induction es generalizing ts with
  | nil => simp [crossedTerms]
  | cons e rest ih => rw [crossedTerms, ih, Term.nil_mem_cross_iff, List.forall_mem_cons, and_assoc]

/-- An expression has an empty term when its constants decide that it is the annihilator, and its
negation has one when they decide that it is the identity. -/
theorem nil_mem_terms_iff (e : Expr) : ∀ negated : Bool,
    [] ∈ e.terms op negated ↔ e.fixedValue? = some (op.annihilator != negated) := by
  induction e using Expr.induct with
  | truth value =>
    intro negated
    rw [terms, fixedValue?]
    cases op <;> cases value <;> cases negated <;> decide
  | symbol name =>
    intro negated
    simp [terms, fixedValue?]
  | not mode operand ih =>
    intro negated
    rw [terms, ih, fixedValue?]
    cases operand.fixedValue? with
    | none => simp
    | some value => cases op <;> cases value <;> cases negated <;> decide
  | join mode child operands ih =>
    intro negated
    rw [terms, fixedValue?, fixedValues_eq_map]
    have hannihilator : (if negated then child.dual else child) = op →
        (op.annihilator != negated) = child.annihilator := by
      cases negated <;> cases child <;> cases op <;> decide
    have hidentity : (if negated then child.dual else child) ≠ op →
        (op.annihilator != negated) = child.identity := by
      cases negated <;> cases child <;> cases op <;> decide
    by_cases hchild : (if negated then child.dual else child) = op
    · rw [if_pos hchild, mem_gatheredTerms_iff, hannihilator hchild,
        Connective.fixedValue?_eq_annihilator_iff, List.mem_map, ← hannihilator hchild]
      exact exists_congr fun e ↦ and_congr_right fun he ↦ ih e he negated
    · rw [if_neg hchild, nil_mem_crossedTerms_iff, hidentity hchild,
        Connective.fixedValue?_eq_identity_iff, List.forall_mem_map, ← hidentity hchild]
      exact (and_iff_right (List.mem_singleton_self [])).trans
        (forall₂_congr fun e he ↦ ih e he negated)

/-! ### Normal forms of annihilators -/

theorem nil_mem_minimalTerms_iff : [] ∈ e.minimalTerms op ↔ [] ∈ e.terms op false := by
  rw [minimalTerms, Term.mem_minimal_iff (increasing_of_mem_distinct_terms op e),
    Term.mem_distinct]
  exact and_iff_left fun u _ hsubset ↦ List.subset_nil.mp hsubset

/-- A normal form is the annihilator alone just when the constants decide it. -/
theorem normalForm_eq_annihilator_iff : standard.normalForm op e = [.truth op.annihilator] ↔
    e.fixedValue? = some op.annihilator := by
  rw [normalForm_eq_truth_iff, nil_mem_minimalTerms_iff, nil_mem_terms_iff, Bool.bne_false]
  simp [op.annihilator_ne_identity]

/-- Joined and evaluated, a normal form comes to the annihilator wherever the expression always has
its value. -/
theorem join_normalForm_eq_annihilator
    (hvalue : ∀ assignment, e.holds assignment = op.annihilator) :
    standard.join .evaluated op (standard.normalForm op e) = .truth op.annihilator := by
  refine join_eq_annihilator (fun d hd ↦ .evaluated (evaluated_of_mem_normalForm hd))
    fun assignment ↦ ?_
  rw [← List.any_eq_true, ← Connective.decides_join .raw]
  have hjoin := @holds_join_normalForm assignment .raw op e
  rw [hvalue] at hjoin
  exact (congrArg op.decides hjoin).trans Connective.decides_annihilator

/-- A normal form of such an expression that is not the annihilator alone consists of two or more
clauses. -/
theorem clauses_of_normalForm_ne (hvalue : ∀ assignment, e.holds assignment = op.annihilator)
    (hne : standard.normalForm op e ≠ [.truth op.annihilator]) :
    2 ≤ (standard.normalForm op e).length ∧ ∀ d ∈ standard.normalForm op e, IsClause op d := by
  have hform := isNormalForm_normalForm op e
  have hjoin := join_normalForm_eq_annihilator hvalue
  have hclause : ∀ d ∈ standard.normalForm op e, IsClause op d := by
    refine hform.truth_or_isClause.resolve_left ?_
    rintro ⟨value, htruth⟩
    rcases normalForm_eq_truth_iff.mp htruth with ⟨hnil, -⟩ | ⟨hmem, -⟩
    · have hidentity := minimalTerms_eq_nil_iff.mp hnil fun _ ↦ true
      exact op.annihilator_ne_identity ((hvalue _).symm.trans hidentity)
    · exact hne (normalForm_of_nil_mem hmem)
  refine ⟨?_, hclause⟩
  match hnormal : standard.normalForm op e with
  | [] => exact absurd hnormal hform.ne_nil
  | [d] =>
    -- A single clause is evaluated to itself, which is no constant.
    have hd := hclause d (hnormal ▸ List.mem_singleton_self d)
    rw [hnormal, evaluating_standard.join_evaluated, List.map_singleton, hd.evaluated.eval_eq,
      combine_singleton hd.evaluated] at hjoin
    exact absurd hjoin (hd.ne_truth _)
  | _ :: _ :: rest => exact Nat.le_add_left 2 rest.length

/-- The normal form of an expression that always has the value of the annihilator is the annihilator
alone just when the constants of the expression decide it, and it always is when the expression is
evaluated. Otherwise it consists of two or more clauses, and only joining and evaluating these gives
the annihilator. -/
theorem normalForm_annihilator (he : e.Built)
    (hvalue : ∀ assignment, e.holds assignment = op.annihilator) :
    (standard.normalForm op e = [.truth op.annihilator] ↔
        e.fixedValue? = some op.annihilator) ∧
      (e.mode = .evaluated → standard.normalForm op e = [.truth op.annihilator]) ∧
      (standard.normalForm op e ≠ [.truth op.annihilator] →
        2 ≤ (standard.normalForm op e).length ∧
          ∀ d ∈ standard.normalForm op e, IsClause op d) ∧
      standard.join .evaluated op (standard.normalForm op e) = .truth op.annihilator := by
  refine ⟨normalForm_eq_annihilator_iff, fun hmode ↦ ?_, clauses_of_normalForm_ne hvalue,
    join_normalForm_eq_annihilator hvalue⟩
  rw [(he.settled.evaluated_of_mode hmode).eq_truth hvalue, normalForm_eq_annihilator_iff,
    fixedValue?]

/-- The sum of a symbol and its negation, as it is written. -/
def excludedMiddle : Expr :=
  .join .raw .or [.symbol (.name "a"), .not .raw (.symbol (.name "a"))]

theorem built_excludedMiddle : excludedMiddle.Built := by
  have hsymbol : (Expr.symbol (.name "a")).Built := .symbol _
  have hnegation : (Expr.not .raw (.symbol (.name "a"))).Built := hsymbol.negation .raw
  exact .join .raw .or (by simp [hsymbol, hnegation])

theorem holds_excludedMiddle (assignment : Symbol → Bool) :
    excludedMiddle.holds assignment = Connective.or.annihilator := by
  simp [excludedMiddle, Connective.annihilator, Connective.identity]

theorem normalForm_excludedMiddle : standard.normalForm .or excludedMiddle =
    [.symbol (.name "a"), .not .evaluated (.symbol (.name "a"))] := by
  cbv

/-- The sum is always true, and its normal form for OR is not the constant. -/
theorem excludedMiddle_not_recognized : excludedMiddle.Built ∧
    (∀ assignment, excludedMiddle.holds assignment = Connective.or.annihilator) ∧
      standard.normalForm .or excludedMiddle ≠ [.truth Connective.or.annihilator] := by
  refine ⟨built_excludedMiddle, holds_excludedMiddle, ?_⟩
  rw [normalForm_excludedMiddle]
  nofun

/-- It has no constants that would decide it. Both its clauses are left in the normal form, and they
are joined to the constant. -/
theorem normalForm_annihilator_excludedMiddle : excludedMiddle.Built ∧
    (∀ assignment, excludedMiddle.holds assignment = Connective.or.annihilator) ∧
      excludedMiddle.fixedValue? ≠ some true ∧
      (∀ d ∈ [.symbol (.name "a"), .not .evaluated (.symbol (.name "a"))], IsClause .or d) ∧
      standard.join .evaluated .or
        [.symbol (.name "a"), .not .evaluated (.symbol (.name "a"))] = .truth true := by
  obtain ⟨hrecognized, -, hclauses, hjoin⟩ :=
    @normalForm_annihilator .or _ built_excludedMiddle holds_excludedMiddle
  rw [normalForm_excludedMiddle] at hrecognized hclauses hjoin
  exact ⟨built_excludedMiddle, holds_excludedMiddle,
    fun hfixed ↦ absurd (hrecognized.mpr hfixed) nofun, (hclauses nofun).2, hjoin⟩

end Expr

end SwitchingAlgebra
