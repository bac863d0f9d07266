import Mathlib
import SwitchingAlgebra.Proofs.Reachable
import SwitchingAlgebra.Proofs.Rearrangement
import SwitchingAlgebra.Proofs.Symmetries

/-!
# Evaluation and duality

AND and OR change places with the constants. The terms of an expression with respect to a connective
are those of the exchanged expression with respect to the dual one, so both are brought into
two-level form through the same cover, whatever is chosen from it. The clauses made from its cubes
differ in their connective alone. A join of literals comes after every literal in either form, and
two joins are compared by their numbers of literals and then by the literals, so the clauses are
sorted alike.

Main statement: an expression with the connectives and constants exchanged is evaluated to the
evaluated form with the connectives and constants exchanged, operand for operand
(`eval_exchanged`).
-/

set_option autoImplicit false
set_option relaxedAutoImplicit false

namespace SwitchingAlgebra.Expr

open Policy

variable {op : Connective} {e : Expr} {es : List Expr}

/-! ### The exchange -/

mutual

/-- The expression with AND in the place of OR, true in the place of false, and the other way
around. Symbols, negations and marks stay as they are. -/
def exchanged : Expr → Expr
  | truth value => truth !value
  | symbol name => symbol name
  | not mode operand => not mode operand.exchanged
  | join mode op operands => join mode op.dual (exchangedAll operands)

/-- The expressions with connectives and constants exchanged. -/
def exchangedAll : List Expr → List Expr
  | [] => []
  | e :: rest => e.exchanged :: exchangedAll rest

end

theorem exchangedAll_eq_map (es : List Expr) : exchangedAll es = es.map exchanged := by
  induction es with
  | nil => rw [exchangedAll, List.map_nil]
  | cons e rest ih => rw [exchangedAll, ih, List.map_cons]

theorem exchanged_join (mode : Mode) (op : Connective) (es : List Expr) :
    (join mode op es).exchanged = join mode op.dual (es.map exchanged) := by
  rw [exchanged, exchangedAll_eq_map]

@[simp]
theorem exchanged_exchanged (e : Expr) : e.exchanged.exchanged = e := by
  induction e using Expr.induct with
  | truth value => rw [exchanged, exchanged, Bool.not_not]
  | symbol name => rw [exchanged, exchanged]
  | not mode operand ih => rw [exchanged, exchanged, ih]
  | join mode op operands ih =>
    have hoperands : (operands.map exchanged).map exchanged = operands := by
      rw [List.map_map]
      exact (List.map_congr_left ih).trans (List.map_id operands)
    rw [exchanged_join, exchanged_join, hoperands, Connective.dual_dual]

theorem nodeMap_exchanged : NodeMap Connective.dual (! ·) exchanged where
  truth value := by rw [exchanged]
  symbol s := ⟨s, by rw [exchanged]⟩
  not mode e := by rw [exchanged]
  join := exchanged_join
  turn_injective := Function.LeftInverse.injective Connective.dual_dual
  flip_not _ := rfl
  identity := Connective.identity_dual

/-! ### Terms -/

theorem gatheredTerms_exchanged {negated : Bool}
    (hes : ∀ e ∈ es, e.exchanged.terms op.dual negated = e.terms op negated) :
    gatheredTerms op.dual (es.map exchanged) negated = gatheredTerms op es negated := by
  induction es with
  | nil => rw [List.map_nil, gatheredTerms, gatheredTerms]
  | cons e rest ih =>
    obtain ⟨he, hrest⟩ := List.forall_mem_cons.mp hes
    rw [List.map_cons, gatheredTerms, gatheredTerms, he, ih hrest]

theorem crossedTerms_exchanged {negated : Bool}
    (hes : ∀ e ∈ es, e.exchanged.terms op.dual negated = e.terms op negated) :
    ∀ acc : List Term,
      crossedTerms op.dual (es.map exchanged) negated acc = crossedTerms op es negated acc := by
  induction es with
  | nil =>
    intro acc
    rw [List.map_nil, crossedTerms, crossedTerms]
  | cons e rest ih =>
    intro acc
    obtain ⟨he, hrest⟩ := List.forall_mem_cons.mp hes
    rw [List.map_cons, crossedTerms, crossedTerms, he, ih hrest]

/-- The terms of the exchanged expression with respect to the dual connective are those of the
expression. -/
theorem terms_exchanged (e : Expr) :
    ∀ negated : Bool, e.exchanged.terms op.dual negated = e.terms op negated := by
  induction e using Expr.induct with
  | truth value =>
    intro negated
    have hidentity : ((!value) != negated) = op.dual.identity ↔
        (value != negated) = op.identity := by
      rw [Connective.identity_dual]
      cases value <;> cases negated <;> simp
    rw [exchanged, terms, terms]
    simp only [hidentity]
  | symbol name =>
    intro negated
    rw [exchanged, terms, terms]
  | not mode operand ih =>
    intro negated
    rw [exchanged, terms, terms, ih]
  | join mode child operands ih =>
    intro negated
    have hchild : (if negated then child.dual.dual else child.dual) = op.dual ↔
        (if negated then child.dual else child) = op := by
      cases negated <;> cases child <;> cases op <;> decide
    rw [exchanged_join, terms, terms, gatheredTerms_exchanged fun e he ↦ ih e he negated,
      crossedTerms_exchanged fun e he ↦ ih e he negated]
    simp only [hchild]

/-- So exchanged operands have the same two-level form. -/
theorem ofOperands_exchanged (op : Connective) (es : List Expr) :
    TwoLevel.ofOperands op.dual (es.map exchanged) = TwoLevel.ofOperands op es := by
  have hterms : ((es.map exchanged).flatMap fun e ↦ e.terms op.dual false) =
      es.flatMap fun e ↦ e.terms op false := by
    rw [List.flatMap_map]
    exact List.flatMap_congr fun e _ ↦ terms_exchanged e false
  rw [TwoLevel.ofOperands, TwoLevel.ofOperands, hterms]

/-! ### Clauses -/

theorem map_exchanged_literalsOf (t : Term) :
    (standard.literalsOf t).map exchanged = standard.literalsOf t := by
  rw [literalsOf, List.map_map]
  refine List.map_congr_left fun l _ ↦ ?_
  obtain ⟨s, positive⟩ := l
  cases positive <;> simp [literal, exchanged]

/-- A clause is exchanged by joining its literals with the other connective. -/
theorem exchanged_term (op : Connective) (t : Term) :
    (standard.term op (standard.literalsOf t)).exchanged =
      standard.term op.dual (standard.literalsOf t) := by
  have hliterals := map_exchanged_literalsOf t
  generalize standard.literalsOf t = ls at hliterals
  match ls with
  | [] => simp [term, exchanged, standard, Connective.annihilator]
  | [l] => exact List.singleton_inj.mp hliterals
  | l :: m :: rest =>
    show (join .evaluated op.dual (l :: m :: rest)).exchanged = _
    rw [exchanged_join, hliterals]
    rfl

/-- Clauses compare alike under either connective. -/
theorem compare_term_dual (op : Connective) (t u : Term) :
    compare (standard.term op.dual (standard.literalsOf t))
        (standard.term op.dual (standard.literalsOf u)) =
      compare (standard.term op (standard.literalsOf t))
        (standard.term op (standard.literalsOf u)) := by
  have hself : ∀ e : Expr, compare e e = .eq := fun _ ↦ Std.ReflCmp.compare_self
  have hop : ∀ op : Connective, compare op op = .eq := fun op ↦ by cases op <;> rfl
  match t, u with
  | [], [] => exact (hself _).trans (hself _).symm
  | [], ⟨s, positive⟩ :: rest => cases positive <;> cases rest <;> rfl
  | ⟨s, positive⟩ :: rest, [] => cases positive <;> cases rest <;> rfl
  | [_], [_] => rfl
  | [⟨s, positive⟩], _ :: _ :: _ => cases positive <;> rfl
  | _ :: _ :: _, [⟨s, positive⟩] => cases positive <;> rfl
  | l :: m :: rest, l' :: m' :: rest' =>
    show compare (join .evaluated op.dual.dual (standard.literalsOf (l :: m :: rest)))
        (join .evaluated op.dual.dual (standard.literalsOf (l' :: m' :: rest'))) =
      compare (join .evaluated op.dual (standard.literalsOf (l :: m :: rest)))
        (join .evaluated op.dual (standard.literalsOf (l' :: m' :: rest')))
    rw [compare_join, compare_join, hop, hop]

/-! ### Evaluation -/

theorem symmetry_exchanged :
    Symmetry (fun _ ↦ True) Connective.dual (! ·) exchanged where
  toNodeMap := nodeMap_exchanged
  injective _ _ _ _ heq := Function.LeftInverse.injective exchanged_exchanged heq
  minimize {op es} _ := by
    refine nodeMap_exchanged.minimize_eq id ?_ (fun _ ↦ Iff.rfl) ?_ ?_
    · rw [ofOperands_exchanged, List.map_id]
    · exact fun t ↦ (exchanged_term op t).symm
    · intro t _ u _
      rw [exchanged_term, exchanged_term, compare_term_dual]

/-- An expression that is built by the standard policy, with AND and OR and with the constants
exchanged and all marks cleared, is evaluated to the evaluated form of the expression with AND and
OR and with the constants exchanged. The operands stand in the same order in both. -/
theorem eval_exchanged (he : e.Built) : e.exchanged.cleared.eval = e.eval.exchanged := by
  have hsymbols : e.MentionsOnly fun _ ↦ True := fun _ _ ↦ trivial
  rw [eval_cleared _ (symmetry_exchanged.settled_map he.settled hsymbols),
    symmetry_exchanged.eval he.settled hsymbols]

/-- The choice between two symbols, evaluated and then exchanged. -/
def exchangedChoice : Expr :=
  .join .evaluated .and [.join .evaluated .or [.symbol (.name "a"), .symbol (.name "b")],
    .join .evaluated .or [.not .evaluated (.symbol (.name "a")), .symbol (.name "c")]]

/-- The written choice is built, and its exchange is evaluated to the exchange of the evaluated
choice. -/
theorem eval_exchanged_writtenChoice : writtenChoice.Built ∧
    writtenChoice.exchanged.cleared.eval = exchangedChoice := by
  have heval : writtenChoice.eval.exchanged = exchangedChoice := by cbv
  exact ⟨built_writtenChoice, (eval_exchanged built_writtenChoice).trans heval⟩

end SwitchingAlgebra.Expr
