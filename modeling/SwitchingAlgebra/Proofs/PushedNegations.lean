import Mathlib
import SwitchingAlgebra.Proofs.NestedCalls
import SwitchingAlgebra.Proofs.OperandOrder
import SwitchingAlgebra.Proofs.Reachable

/-!
# Negations pushed down

In negation normal form every negation stands in front of a constant or a symbol. Pushing the
negations of such an expression down changes nothing in it, marks included, however deep the
recursion goes.

Whatever else the pushing of negations starts with, it ends with this form. What a run of negations
of even length stands in front of and what De Morgan's law makes of a negated join is pushed down
in turn. It need not be a join: a single operand may be left of it, and that may be a negated join
again. An evaluated join has no negations to push, so where something is pushed in an operand the
join is raw, and a raw join is put together again from operands in this form.

Main statement: an expression that is built by the standard policy ends in negation normal form, and
it stays as it is just when it has that form to begin with (`literalize_spec`).
-/

set_option autoImplicit false
set_option relaxedAutoImplicit false

namespace SwitchingAlgebra.Expr

open Policy

variable {mode : Mode} {op : Connective} {d e operand : Expr} {es : List Expr}

/-! ### Negation normal form -/

/-- Every negation in the expression stands in front of a constant or a symbol. -/
def IsPushedDown (e : Expr) : Prop :=
  ∀ mode operand, (Expr.not mode operand).IsNode e → (Expr.not mode operand).isLiteral = true

theorem isPushedDown_of_operands_eq_nil (hleaf : e.operands = []) : e.IsPushedDown := by
  intro mode operand hnode
  rcases isNode_iff.mp hnode with rfl | ⟨d, hd, -⟩
  · cases hleaf
  · rw [hleaf] at hd
    cases hd

theorem isPushedDown_not_iff : (Expr.not mode operand).IsPushedDown ↔
    (Expr.not mode operand).isLiteral = true := by
  refine ⟨fun hpushed ↦ hpushed mode operand .refl, fun hliteral ↦ ?_⟩
  intro mode' operand' hnode
  rcases isNode_iff.mp hnode with hself | ⟨f, hmem, hnode⟩
  · rwa [hself]
  · rw [List.mem_singleton.mp hmem] at hnode
    cases operand with
    | truth | symbol => exact isPushedDown_of_operands_eq_nil rfl mode' operand' hnode
    | _ => cases hliteral

theorem isPushedDown_join_iff :
    (Expr.join mode op es).IsPushedDown ↔ ∀ e ∈ es, e.IsPushedDown := by
  constructor
  · exact fun hpushed e he mode' operand hnode ↦ hpushed mode' operand (hnode.head he)
  · intro hes mode' operand hnode
    rcases isNode_iff.mp hnode with hself | ⟨e, he, hnode⟩
    · cases hself
    · exact hes e he mode' operand hnode

/-- What is left of a run of negations, if it is no join, is a constant or a symbol. -/
theorem isPushedDown_not_core (mode : Mode) (hcore : operand.core.connective? = none) :
    (Expr.not mode operand.core).IsPushedDown := by
  have hnot := negations_core operand
  generalize operand.core = core at hcore hnot
  rw [isPushedDown_not_iff]
  cases core with
  | truth value => rfl
  | symbol name => rfl
  | not mode operand => cases hnot
  | join mode op es => cases hcore

/-! ### What stays as it is -/

theorem IsPushedDown.literalizeWithin_eq_none (p : Policy) (e : Expr) :
    ∀ depth : Nat, e.IsPushedDown → p.literalizeWithin depth e = none := by
  induction e using Expr.induct with
  | truth value => exact fun depth _ ↦ literalizeWithin_truth p depth value
  | symbol name => exact fun depth _ ↦ literalizeWithin_symbol p depth name
  | not mode operand =>
    intro depth he
    have hliteral := isPushedDown_not_iff.mp he
    cases depth with
    | zero => exact literalizeWithin_zero p _
    | succ depth =>
      cases operand with
      | truth value => rfl
      | symbol name => rfl
      | _ => cases hliteral
  | join mode op operands ih =>
    intro depth he
    cases depth with
    | zero => exact literalizeWithin_zero p _
    | succ depth =>
      exact literalizeWithin_join_eq_none fun d hd ↦
        ih d hd depth (isPushedDown_join_iff.mp he d hd)

theorem IsPushedDown.literalize_eq (he : e.IsPushedDown) : standard.literalize e = e := by
  rw [literalize, he.literalizeWithin_eq_none, Option.getD_none]

/-! ### What the pushing of negations ends with -/

/-- A negation is pushed down when the calls for what it stands in front of push theirs down. -/
theorem isPushedDown_literalizeWithin_not {depth : Nat}
    (hcalls : ∀ d, standard.PushesInto (.not mode operand) d →
      ((standard.literalizeWithin depth d).getD d).IsPushedDown) :
    ((standard.literalizeWithin (depth + 1) (.not mode operand)).getD
      (.not mode operand)).IsPushedDown := by
  rcases Nat.mod_two_eq_zero_or_one (operand.negations + 1) with heven | hodd
  · rw [literalizeWithin_even heven, Option.getD_some]
    exact hcalls _ (.core heven)
  · cases hconnective : operand.core.connective? with
    | none =>
      rw [literalizeWithin_odd_leaf rfl hodd hconnective]
      split_ifs with hsingle
      · rw [Option.getD_none, ← core_eq_of_negations_eq_zero hsingle]
        exact isPushedDown_not_core mode hconnective
      · exact isPushedDown_not_core .raw hconnective
    | some op =>
      obtain ⟨inner, es, hjoin⟩ := exists_eq_join_of_connective? hconnective
      rw [literalizeWithin_odd_join rfl hodd hjoin, Option.getD_some]
      exact hcalls _ (.moved hodd hjoin)

/-- A join is pushed down when the calls for its operands push theirs down. -/
theorem isPushedDown_literalizeWithin_join {depth : Nat} (he : (Expr.join mode op es).Settled)
    (hcalls : ∀ d ∈ es, ((standard.literalizeWithin depth d).getD d).IsPushedDown) :
    ((standard.literalizeWithin (depth + 1) (.join mode op es)).getD
      (.join mode op es)).IsPushedDown := by
  rw [literalizeWithin_join]
  split_ifs with hall
  · rw [Option.getD_none, isPushedDown_join_iff]
    intro d hd
    have hnone : standard.literalizeWithin depth d = none := by
      rw [List.all_map, List.all_eq_true] at hall
      exact Option.isNone_iff_eq_none.mp (hall d hd)
    have hpushed := hcalls d hd
    rwa [hnone, Option.getD_none] at hpushed
  · rw [mode_eq_raw_of_pushed he hall, Option.getD_some]
    exact isPushedDown_join_iff.mpr (List.forall_mem_map.mpr hcalls)

/-- No negation is left in front of a join wherever the calls end. -/
theorem Settled.isPushedDown_literalizeWithin {depth : Nat} (he : e.Settled)
    (hends : EndsWithin standard.PushesInto depth e) :
    ((standard.literalizeWithin depth e).getD e).IsPushedDown := by
  have hkeeps := evaluating_standard.keeps_settled
  induction depth generalizing e with
  | zero => exact hends.elim
  | succ depth ih =>
    cases e with
    | truth value =>
      rw [literalizeWithin_truth]
      exact isPushedDown_of_operands_eq_nil rfl
    | symbol name =>
      rw [literalizeWithin_symbol]
      exact isPushedDown_of_operands_eq_nil rfl
    | not mode operand =>
      refine isPushedDown_literalizeWithin_not fun d hcall ↦ ih ?_ (hends d hcall)
      have hcore := hkeeps.core (he.of_mem_operands (List.mem_singleton_self operand))
      cases hcall with
      | core => exact hcore
      | moved _ hjoin => exact hkeeps.moved fun d hd ↦ (hjoin ▸ hcore).of_mem_operands hd
    | join mode op operands =>
      exact isPushedDown_literalizeWithin_join he fun d hd ↦
        ih (he.of_mem_operands hd) (hends d (.operand hd))

theorem Built.isPushedDown_literalize (he : e.Built) : (standard.literalize e).IsPushedDown :=
  he.settled.isPushedDown_literalizeWithin (evaluating_standard.descends.pushing he.settled)

/-- Pushing the negations of an expression down ends in negation normal form. Nothing changes just
when the expression has that form already, so doing it again changes nothing. -/
theorem literalize_spec (he : e.Built) : (standard.literalize e).IsPushedDown ∧
    (standard.literalize e = e ↔ e.IsPushedDown) ∧
      standard.literalize (standard.literalize e) = standard.literalize e := by
  have hpushed := he.isPushedDown_literalize
  exact ⟨hpushed, ⟨fun heq ↦ heq ▸ hpushed, IsPushedDown.literalize_eq⟩, hpushed.literalize_eq⟩

/-- The guarded choice with its negation pushed down. The product is still raw, and De Morgan's law
has made an evaluated join of the evaluated choice. -/
def pushedChoice : Expr :=
  .join .raw .and [.join .evaluated .and
      [.join .evaluated .or [.symbol (.name "a"), .not .evaluated (.symbol (.name "c"))],
        .join .evaluated .or
          [.not .evaluated (.symbol (.name "a")), .not .evaluated (.symbol (.name "b"))]],
    .symbol (.name "e")]

/-- The guarded choice has a negated join and changes, the pushed one has none and stays. -/
theorem literalize_guardedChoice : guardedChoice.Built ∧ pushedChoice.IsPushedDown ∧
    ¬ guardedChoice.IsPushedDown ∧ standard.literalize pushedChoice = pushedChoice := by
  have hbuilt : guardedChoice.Built := reachable_iff_built.mp reachable_guardedChoice
  have hpushed : standard.literalize guardedChoice = pushedChoice := by
    rw [guardedChoice_eq]
    cbv
  have hne : pushedChoice ≠ guardedChoice := by
    rw [guardedChoice_eq]
    simp [pushedChoice]
  obtain ⟨hform, hstays, hagain⟩ := literalize_spec hbuilt
  rw [hpushed] at hform hstays hagain
  exact ⟨hbuilt, hform, fun h ↦ hne (hstays.mpr h), hagain⟩

end SwitchingAlgebra.Expr
