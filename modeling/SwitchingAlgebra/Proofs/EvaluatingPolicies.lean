import Mathlib
import SwitchingAlgebra.Proofs.EvaluatedForms

/-!
# Policies that evaluate alike

The standard, the prefixed and the eager policy build the constants and connectives they are asked
for, and evaluated nodes where they are asked for these. They differ in the symbols they choose for
written ones and in what they build where raw nodes are asked for. Evaluation asks for neither, so
it is the same through all of them.

Main statement: evaluation through such a policy is evaluation through the standard one
(`Evaluating.eval_eq`).
-/

set_option autoImplicit false
set_option relaxedAutoImplicit false

namespace SwitchingAlgebra.Policy

variable {p : Policy}

/-- A policy that builds the constants and connectives it is asked for, and evaluated nodes where it
is asked for these. -/
structure Evaluating (p : Policy) : Prop extends Faithful p where
  negationMode : p.negationMode .evaluated = .evaluated
  joinMode : p.joinMode .evaluated = .evaluated

theorem evaluating_standard : Evaluating standard :=
  ⟨⟨fun _ ↦ rfl, fun _ ↦ rfl⟩, rfl, rfl⟩

theorem evaluating_prefixed : Evaluating prefixed :=
  ⟨⟨fun _ ↦ rfl, fun _ ↦ rfl⟩, rfl, rfl⟩

theorem evaluating_eager : Evaluating eager :=
  ⟨⟨fun _ ↦ rfl, fun _ ↦ rfl⟩, rfl, rfl⟩

namespace Evaluating

theorem literal_eq (hp : p.Evaluating) (s : Symbol) (positive : Bool) :
    p.literal s positive = standard.literal s positive := by
  rw [literal, literal, hp.negationMode]
  rfl

theorem literalsOf_eq (hp : p.Evaluating) (t : Term) :
    p.literalsOf t = standard.literalsOf t :=
  List.map_congr_left fun l _ ↦ hp.literal_eq l.symbol l.positive

theorem term_eq (hp : p.Evaluating) (op : Connective) (ls : List Expr) :
    p.term op ls = standard.term op ls := by
  match ls with
  | [] => rw [term, term, hp.truth]; rfl
  | [l] => rfl
  | l :: m :: rest =>
    show Expr.join (p.joinMode .evaluated) (p.connective op.dual) (l :: m :: rest) = _
    rw [hp.joinMode, hp.connective]
    rfl

theorem minimize_eq (hp : p.Evaluating) (op : Connective) (es : List Expr) :
    p.minimize op es = standard.minimize op es := by
  have hclause : (fun t ↦ p.term op (p.literalsOf t)) =
      fun t ↦ standard.term op (standard.literalsOf t) := by
    ext t
    rw [hp.term_eq, hp.literalsOf_eq]
  rw [Policy.minimize_eq, Policy.minimize_eq, hclause, hp.truth, hp.truth]
  rfl

theorem parts_eq (hp : p.Evaluating) (op : Connective) (es : List Expr) :
    p.parts op es = standard.parts op es := by
  rw [parts, parts, hp.truth]
  rfl

theorem combine_eq (hp : p.Evaluating) (op : Connective) (es : List Expr) :
    p.combine op es = standard.combine op es := by
  rw [combine, combine, hp.parts_eq, hp.truth, hp.truth]
  simp only [hp.minimize_eq]
  rfl

theorem complement_eq (hp : p.Evaluating) (e : Expr) : p.complement e = standard.complement e := by
  cases e with
  | truth value => rw [complement, complement, hp.truth]; rfl
  | _ => rw [complement, complement]

/-- Evaluation is the same through all policies that evaluate. -/
theorem eval_eq (hp : p.Evaluating) (e : Expr) : p.eval e = e.eval := by
  rw [Expr.eval]
  induction e using Expr.induct with
  | truth value => rw [eval, eval]
  | symbol name => rw [eval, eval]
  | not mode operand ih =>
    cases mode with
    | evaluated => rw [eval, eval]
    | raw => rw [eval, eval, ih, hp.complement_eq]
  | join mode op operands ih =>
    cases mode with
    | evaluated => rw [eval, eval]
    | raw =>
      rw [eval, eval, evalAll_eq_map, evalAll_eq_map, List.map_congr_left ih, hp.combine_eq]

theorem map_eval_eq (hp : p.Evaluating) (es : List Expr) : es.map p.eval = es.map Expr.eval :=
  List.map_congr_left fun e _ ↦ hp.eval_eq e

/-- Evaluated negations are built alike. -/
theorem negation_evaluated (hp : p.Evaluating) (e : Expr) :
    p.negation .evaluated e = standard.complement e.eval := by
  rw [negation, hp.negationMode]
  show p.complement (p.eval e) = _
  rw [hp.eval_eq, hp.complement_eq]

/-- So are evaluated joins. -/
theorem join_evaluated (hp : p.Evaluating) (op : Connective) (es : List Expr) :
    p.join .evaluated op es = standard.combine op (es.map Expr.eval) := by
  rw [join, hp.joinMode]
  show p.combine (p.connective op) (es.map p.eval) = _
  rw [hp.connective, hp.map_eval_eq, hp.combine_eq]

end Evaluating

end SwitchingAlgebra.Policy
