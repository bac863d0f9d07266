import Mathlib
import SwitchingAlgebra.Expr.Leaves
import SwitchingAlgebra.Proofs.Grouping

/-!
# The terms of a minimum two-level form

A join that is its own minimum two-level form has one operand for each term of a minimum cover of
its function. These terms are prime and their sum is the function, so the literals of one operand
are never all among those of another.

For AND the terms are clauses. Turned around (`Expr.decision`), they are products of a sum.

Main statements: `IsMinimum.mem_iff` for the operands and `IsMinimum.eq_of_literals_subset` for
their literals.
-/

set_option autoImplicit false
set_option relaxedAutoImplicit false

namespace SwitchingAlgebra

open Policy

variable {p : Policy} {op : Connective} {d e : Expr} {es : List Expr} {t u : Term} {l : Literal}
  {assignment : Symbol → Bool}

namespace Policy

/-! ### Literals and symbols of operands -/

theorem literal_injective {m : Literal}
    (heq : p.literal l.symbol l.positive = p.literal m.symbol m.positive) : l = m := by
  obtain ⟨s, positive⟩ := l
  obtain ⟨s', positive'⟩ := m
  cases positive <;> cases positive' <;> simp_all [literal]

theorem literal_mem_literalsOf : p.literal l.symbol l.positive ∈ p.literalsOf t ↔ l ∈ t := by
  rw [mem_literalsOf]
  constructor
  · rintro ⟨m, hm, heq⟩
    rwa [← literal_injective heq]
  · exact fun hl ↦ ⟨l, hl, rfl⟩

theorem literalsOf_subset (hsubset : p.literalsOf t ⊆ p.literalsOf u) : t ⊆ u := fun _ hl ↦
  literal_mem_literalsOf.mp (hsubset (literal_mem_literalsOf.mpr hl))

theorem literalLeaves_literal (s : Symbol) (positive : Bool) :
    (p.literal s positive).literalLeaves = [p.literal s positive] := by
  cases positive <;> simp [literal, Expr.literalLeaves]

theorem symbolLeaves_literal (s : Symbol) (positive : Bool) :
    (p.literal s positive).symbolLeaves = [s] := by
  cases positive <;> simp [literal, Expr.symbolLeaves]

end Policy

namespace Expr

theorem literalLeavesAll_eq_flatMap (es : List Expr) :
    literalLeavesAll es = es.flatMap literalLeaves := by
  induction es with
  | nil => rw [literalLeavesAll, List.flatMap_nil]
  | cons e rest ih => rw [literalLeavesAll, ih, List.flatMap_cons]

end Expr

namespace Policy

open SwitchingAlgebra.Expr

theorem flatMap_literalLeaves_literalsOf (t : Term) :
    (p.literalsOf t).flatMap literalLeaves = p.literalsOf t := by
  rw [literalsOf, List.flatMap_map]
  simp only [literalLeaves_literal]
  exact (List.map_eq_flatMap ..).symm

theorem flatMap_symbolLeaves_literalsOf (t : Term) :
    (p.literalsOf t).flatMap symbolLeaves = t.map Literal.symbol := by
  rw [literalsOf, List.flatMap_map]
  simp only [symbolLeaves_literal]
  exact (List.map_eq_flatMap ..).symm

/-- An operand has the leaves of its literals, whatever is taken for leaves. -/
theorem flatMap_leaves_term {α : Type} (leaves : Expr → List α)
    (htruth : ∀ value, leaves (.truth value) = [])
    (hjoin : ∀ mode op es, leaves (.join mode op es) = es.flatMap leaves) (ls : List Expr) :
    leaves (p.term op ls) = ls.flatMap leaves := by
  match ls with
  | [] => exact htruth _
  | [l] => exact (List.flatMap_singleton ..).symm
  | l :: m :: rest => exact hjoin _ _ _

/-- The literals of an operand are those of its term. -/
theorem literalLeaves_term (t : Term) :
    (p.term op (p.literalsOf t)).literalLeaves = p.literalsOf t := by
  rw [flatMap_leaves_term literalLeaves (fun _ ↦ by rw [literalLeaves])
    (fun _ _ _ ↦ by rw [literalLeaves, literalLeavesAll_eq_flatMap]),
    flatMap_literalLeaves_literalsOf]

theorem symbolLeaves_term (t : Term) :
    (p.term op (p.literalsOf t)).symbolLeaves = t.map Literal.symbol := by
  rw [flatMap_leaves_term symbolLeaves (fun _ ↦ by rw [symbolLeaves])
    (fun _ _ _ ↦ by rw [symbolLeaves, symbolLeavesAll_eq_flatMap]),
    flatMap_symbolLeaves_literalsOf]

theorem literals_term (ht : t.Increasing) :
    (p.term op (p.literalsOf t)).literals = p.literalsOf t := by
  rw [literals, literalLeaves_term]
  exact sortDistinct_eq_of_pairwise (pairwise_literalsOf ht) fun _ ↦ Iff.rfl

end Policy

namespace Expr

/-! ### Terms and operands -/

/-- The terms of the minimum cover of operands. -/
def minimumTerms (op : Connective) (es : List Expr) : List Term :=
  (TwoLevel.ofOperands op es).termsOf (TwoLevel.ofOperands op es).cover.minimum

/-- Whether an expression decides a connective under the assignment turned around. -/
def decision (op : Connective) (e : Expr) : (Symbol → Bool) → Bool :=
  fun assignment ↦ op.decides (e.holds (op.orient assignment))

theorem sum_eq_decision (mode : Mode) (op : Connective) (es : List Expr) :
    (TwoLevel.ofOperands op es).sum = (Expr.join mode op es).decision op := by
  ext assignment
  rw [decision, ← TwoLevel.sum_ofOperands, Connective.orient_orient]

theorem isPrime_of_mem_minimumTerms (mode : Mode) (ht : t ∈ minimumTerms op es) :
    Term.IsPrime ((Expr.join mode op es).decision op) t := by
  have hform := TwoLevel.wellFormed_ofOperands op es
  obtain ⟨c, hc, rfl⟩ := List.mem_map.mp ht
  have hprime := Cover.isPrime_of_mem_minimum (TwoLevel.wellFormed_cover _) hc
  rw [← sum_eq_decision]
  exact (TwoLevel.isPrime_iff hform hprime.1.1).mp hprime

/-- The sum of the terms is the function of the operands, turned around. -/
theorem allHold_minimumTerms (mode : Mode) (op : Connective) (es : List Expr) :
    Term.allHold assignment .or (minimumTerms op es) =
      (Expr.join mode op es).decision op assignment := by
  have hform := TwoLevel.wellFormed_ofOperands op es
  have hcover := (TwoLevel.ofOperands op es).wellFormed_cover
  rw [← sum_eq_decision, Bool.eq_iff_iff, ← TwoLevel.row_mem_points_iff_sum hform,
    ← Cover.points_minimum hcover]
  exact (TwoLevel.row_mem_points_cover hform (Cover.wellFormed_minimum hcover)
    (Cover.width_minimum hcover)).symm

/-- A minimum two-level form joins the operands of its terms, none of which is empty. -/
theorem IsMinimum.eq_distinct (hes : IsMinimum op es) : [] ∉ minimumTerms op es ∧
    es = Expr.distinct ((minimumTerms op es).map fun t ↦
      standard.term op (standard.literalsOf t)) := by
  have hform := TwoLevel.wellFormed_ofOperands op es
  have hminimum := hes
  rw [IsMinimum, minimize_eq] at hminimum
  split_ifs at hminimum with hnil
  refine ⟨hnil, ?_⟩
  have hclause : ∀ e ∈ Expr.distinct ((minimumTerms op es).map fun t ↦
      standard.term op (standard.literalsOf t)), IsClause op e := by
    intro e he
    obtain ⟨t, ht, rfl⟩ := List.mem_map.mp (mem_of_mem_sortDistinct he)
    exact isClause_term (isPrime_of_mem_minimumTerms .raw ht).1.1 fun hempty ↦ hnil (hempty ▸ ht)
  rw [← minimumTerms] at hminimum
  generalize Expr.distinct ((minimumTerms op es).map fun t ↦
    standard.term op (standard.literalsOf t)) = operands at hminimum hclause ⊢
  rcases operands with _ | ⟨d, _ | ⟨e, rest⟩⟩
  · cases hminimum
  · exact absurd hminimum ((hclause d List.mem_cons_self).ne_join _ _)
  · exact (join.inj hminimum).2.2.symm

/-- The operands of a minimum two-level form are those of its terms. -/
theorem IsMinimum.mem_iff (hes : IsMinimum op es) :
    e ∈ es ↔ ∃ t ∈ minimumTerms op es, standard.term op (standard.literalsOf t) = e := by
  obtain ⟨hnil, hdistinct⟩ := hes.eq_distinct
  have hevaluated : ∀ d ∈ (minimumTerms op es).map fun t ↦
      standard.term op (standard.literalsOf t), d.Evaluated := by
    refine List.forall_mem_map.mpr fun t ht ↦ @IsClause.evaluated op _ ?_
    exact isClause_term (isPrime_of_mem_minimumTerms .raw ht).1.1 fun hempty ↦ hnil (hempty ▸ ht)
  conv_lhs => rw [hdistinct]
  rw [mem_distinct hevaluated, List.mem_map]

/-- The literals of an operand of a minimum two-level form are those of no other operand, with or
without further ones. -/
theorem IsMinimum.eq_of_literals_subset (hes : IsMinimum op es) (hd : d ∈ es) (he : e ∈ es)
    (hsubset : d.literals ⊆ e.literals) : d = e := by
  obtain ⟨t, ht, rfl⟩ := hes.mem_iff.mp hd
  obtain ⟨u, hu, rfl⟩ := hes.mem_iff.mp he
  have htprime := isPrime_of_mem_minimumTerms .raw ht
  have huprime := isPrime_of_mem_minimumTerms .raw hu
  rw [literals_term htprime.1.1, literals_term huprime.1.1] at hsubset
  rw [huprime.2 t htprime.1 (Term.implies_of_subset (literalsOf_subset hsubset))]

end Expr

end SwitchingAlgebra
