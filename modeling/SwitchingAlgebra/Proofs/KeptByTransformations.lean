import Mathlib
import SwitchingAlgebra.Proofs.EvaluatedSymbols
import SwitchingAlgebra.Proofs.EvaluatingPolicies
import SwitchingAlgebra.Proofs.Grouping
import SwitchingAlgebra.Proofs.TransformationSteps

/-!
# What the transformations keep

A transformation takes an expression apart into operands and has the policy build nodes of them. So
it keeps every property that passes to operands and to the nodes that the policy builds. That the
expression is settled is such a property for a policy that evaluates, and that it mentions no
symbols but certain ones is such a property for every policy.

The value is kept as well where the policy builds the constants and connectives it is asked for. A
run of negations matters by its parity alone. A choice of one alternative of every operand is
decided in some place, in whatever way it is chosen, when all alternatives of one operand are.

Main statements: distribution and the pushing of negations keep such a property
(`Keeps.distributeWithin`, `Keeps.literalizeWithin`) and the value (`holds_distributeWithin`,
`holds_literalizeWithin`), at whatever depth they are cut off.
-/

set_option autoImplicit false
set_option relaxedAutoImplicit false

namespace SwitchingAlgebra.Policy

open SwitchingAlgebra.Expr

variable {p : Policy} {op : Connective} {mode mode' : Mode} {C : Expr → Prop} {d e : Expr}
  {es : List Expr} {assignment : Symbol → Bool}

/-! ### Properties -/

/-- A property that passes to operands and to the nodes that the policy builds. -/
structure Keeps (p : Policy) (C : Expr → Prop) : Prop where
  operand : ∀ {d e : Expr}, C e → d ∈ e.operands → C d
  negation : ∀ (mode : Mode) {e : Expr}, C e → C (p.negation mode e)
  join : ∀ (mode : Mode) (op : Connective) {es : List Expr}, (∀ e ∈ es, C e) →
    C (p.join mode op es)

/-- For a policy that evaluates, settled expressions are kept. -/
theorem Evaluating.keeps_settled (hp : p.Evaluating) : p.Keeps Settled where
  operand := Settled.of_mem_operands
  negation mode e he := by
    rw [Policy.negation]
    split
    · rw [hp.eval_eq, hp.complement_eq]
      exact .evaluated (evaluated_complement he.evaluated_eval)
    · exact .not he
  join mode op es hes := by
    rw [Policy.join, hp.connective]
    split
    · rw [hp.map_eval_eq, hp.combine_eq]
      exact .evaluated (evaluated_combine (List.forall_mem_map.mpr fun e he ↦
        (hes e he).evaluated_eval))
    · exact .join hes

/-- No policy brings in a symbol. -/
theorem keeps_mentionsOnly (p : Policy) (P : Symbol → Prop) : p.Keeps (MentionsOnly P) where
  operand := MentionsOnly.of_mem_operands
  negation mode e he := by
    rw [Policy.negation]
    split
    · exact mentionsOnly_complement (p.mentionsOnly_eval e he)
    · exact mentionsOnly_not_iff.mpr he
  join mode op es hes := by
    rw [Policy.join]
    split
    · exact mentionsOnly_combine (List.forall_mem_map.mpr fun e he ↦
        p.mentionsOnly_eval e (hes e he))
    · exact mentionsOnly_join_iff.mpr hes

namespace Keeps

theorem core (hC : p.Keeps C) (he : C e) : C e.core :=
  inherits_core hC.operand e he

theorem cancel (hC : p.Keeps C) (he : C e) : C (p.cancel e) := by
  rw [Policy.cancel]
  split_ifs
  · exact he
  · exact hC.core he
  · exact hC.negation .raw (hC.core he)

/-- The join that De Morgan's law makes of the operands of a negated one. -/
theorem moved (hC : p.Keeps C) (hes : ∀ e ∈ es, C e) :
    C (p.join .evaluated op (es.map (p.negation .evaluated))) :=
  hC.join .evaluated op (List.forall_mem_map.mpr fun e he ↦ hC.negation .evaluated (hes e he))

theorem deMorgan (hC : p.Keeps C) (he : C e) : C (p.deMorgan e) := by
  unfold Policy.deMorgan
  split
  · have hjoin := hC.operand he (List.mem_singleton_self _)
    exact hC.moved fun d hd ↦ hC.operand hjoin hd
  · exact he

theorem of_mem_splice (hC : p.Keeps C) (he : C e) (hd : d ∈ e.splice op) : C d := by
  rcases mem_operands_of_mem_splice hd with rfl | hd
  · exact he
  · exact hC.operand he hd

theorem flatten (hC : p.Keeps C) (e : Expr) : C e → C (p.flatten e) := by
  induction e using Expr.induct with
  | truth value =>
    rw [Policy.flatten]
    exact id
  | symbol name =>
    rw [Policy.flatten]
    exact id
  | not mode operand ih =>
    intro he
    rw [Policy.flatten]
    exact hC.negation .raw (ih (hC.operand he (List.mem_singleton_self operand)))
  | join mode op operands ih =>
    intro he
    rw [Policy.flatten, flattenAll_eq]
    refine hC.join .raw op fun d hd ↦ ?_
    obtain ⟨operand, hoperand, hd⟩ := List.mem_flatMap.mp hd
    exact hC.of_mem_splice (ih operand hoperand (hC.operand he hoperand)) hd

/-- The elements of a choice are alternatives of operands. -/
theorem of_mem_choices (hC : p.Keeps C) (he : C (.join mode op es)) {child : Connective}
    {choice : List Expr} (hchoice : choice ∈ choices (es.map (alternatives child))) :
    ∀ d ∈ choice, C d := by
  intro d hd
  obtain ⟨_, halternatives, hd⟩ := exists_mem_of_mem_choices hchoice hd
  obtain ⟨operand, hoperand, rfl⟩ := List.mem_map.mp halternatives
  rw [alternatives_eq_splice] at hd
  exact hC.of_mem_splice (hC.operand he hoperand) hd

theorem distributeWithin (hC : p.Keeps C) (depth : Nat) (he : C e) :
    C (p.distributeWithin depth e) := by
  induction depth generalizing e with
  | zero => rwa [Policy.distributeWithin]
  | succ depth ih =>
    match e with
    | .truth _ | .symbol _ | .not _ _ => simpa only [Policy.distributeWithin] using he
    | .join mode op operands =>
      rw [Policy.distributeWithin]
      split_ifs
      · refine hC.join .evaluated _ (List.forall_mem_map.mpr fun choice hchoice ↦ ih ?_)
        exact hC.join .evaluated op (hC.of_mem_choices he hchoice)
      · exact he

theorem literalizeWithin (hC : p.Keeps C) (depth : Nat) (he : C e) :
    C ((p.literalizeWithin depth e).getD e) := by
  induction depth generalizing e with
  | zero => rwa [literalizeWithin_zero, Option.getD_none]
  | succ depth ih =>
    cases e with
    | truth value => rwa [literalizeWithin_truth, Option.getD_none]
    | symbol name => rwa [literalizeWithin_symbol, Option.getD_none]
    | not mode operand =>
      have hcancel := hC.cancel he
      rw [literalizeWithin_not]
      split
      · next heq =>
        rw [heq] at hcancel
        exact ih (hC.deMorgan hcancel)
      · next heq =>
        rw [heq] at hcancel
        split_ifs
        · exact he
        · exact hcancel
      · exact ih hcancel
    | join mode op operands =>
      rw [literalizeWithin_join]
      split_ifs
      · exact he
      · exact hC.join mode op (List.forall_mem_map.mpr fun operand hoperand ↦
          ih (hC.operand he hoperand))

end Keeps

/-! ### Values -/

theorem holds_negation (hp : p.Faithful) (mode : Mode) (e : Expr) :
    (p.negation mode e).holds assignment = !e.holds assignment := by
  rw [negation]
  split
  · rw [holds_complement hp, holds_eval hp]
  · rw [holds_not]

/-- A join has one value in whichever mode and by whichever policy it is built. -/
theorem holds_built_join (hp : p.Faithful) (mode mode' : Mode) (op : Connective)
    (es : List Expr) :
    (p.join mode op es).holds assignment = (Expr.join mode' op es).holds assignment := by
  have hmarks : (Expr.join .raw op es).holds assignment =
      (Expr.join mode' op es).holds assignment := by
    cases op
    · rw [holds_join_and, holds_join_and]
    · rw [holds_join_or, holds_join_or]
  rw [join, hp.connective, ← hmarks]
  split
  · rw [holds_combine hp .raw, holds_join_map_eval hp]
  · rfl

/-- The leading negations turn the value around when their number is odd. -/
theorem holds_eq_core (e : Expr) :
    e.holds assignment = (e.core.holds assignment ^^ decide (e.negations % 2 = 1)) := by
  induction e using Expr.induct with
  | not mode operand ih =>
    rw [holds_not, ih, core, negations]
    rcases Nat.mod_two_eq_zero_or_one operand.negations with heven | hodd
    · simp [heven, Nat.add_mod]
    · simp [hodd, Nat.add_mod]
  | _ => simp [core, negations]

theorem holds_cancel (hp : p.Faithful) (e : Expr) :
    (p.cancel e).holds assignment = e.holds assignment := by
  rw [cancel]
  split_ifs with hfew heven
  · rfl
  · simp [holds_eq_core e, heven]
  · simp [holds_eq_core e, holds_negation hp, Nat.mod_two_ne_zero.mp heven]

theorem holds_deMorgan (hp : p.Faithful) (e : Expr) :
    (p.deMorgan e).holds assignment = e.holds assignment := by
  unfold deMorgan
  split
  · next op es =>
    apply @Connective.decides_injective op
    rw [holds_built_join hp .evaluated .raw, Connective.decides_join_dual, holds_not,
      ← Bool.bne_true, Connective.decides_bne, Connective.decides_join, Bool.bne_true,
      List.not_any_eq_all_not, List.all_map]
    refine List.all_congr rfl fun e ↦ ?_
    rw [Function.comp_apply, holds_negation hp, ← Bool.bne_true, Connective.decides_bne,
      Bool.bne_true]
  · rfl

theorem holds_flatten (hp : p.Faithful) (e : Expr) :
    (p.flatten e).holds assignment = e.holds assignment := by
  induction e using Expr.induct with
  | truth value => rw [flatten]
  | symbol name => rw [flatten]
  | not mode operand ih => rw [flatten, holds_negation hp, ih, holds_not]
  | join mode op operands ih =>
    rw [flatten, flattenAll_eq, holds_built_join hp .raw mode,
      ← List.flatMap_map p.flatten (splice op), holds_join_splice]
    exact holds_join_map ih

/-! #### Distribution -/

/-- The alternatives of an operand decide the dual connective together. -/
theorem all_alternatives (op : Connective) (e : Expr) :
    ((e.alternatives op.dual).all fun d ↦ op.decides (d.holds assignment)) =
      op.decides (e.holds assignment) := by
  cases e with
  | join mode child es =>
    rw [alternatives]
    split_ifs with hchild
    · rw [hchild, Connective.decides_join_dual]
    · simp
  | _ => simp [alternatives]

/-- All choices have an element with a property when all elements of one of the lists have it. -/
theorem all_choices {α : Type} (q : α → Bool) (lists : List (List α)) :
    ((choices lists).all fun choice ↦ choice.any q) = lists.any fun xs ↦ xs.all q := by
  induction lists with
  | nil => rfl
  | cons xs rest ih =>
    have hxs : ∀ b : Bool, (xs.all fun x ↦ q x || b) = (xs.all q || b) := by
      intro b
      cases b <;> simp
    rw [choices, List.all_flatMap, List.any_cons, ← ih, ← hxs]
    refine List.all_congr rfl fun x ↦ ?_
    rw [List.all_map]
    cases hx : q x <;> simp [Function.comp_def, hx]

theorem holds_distributeWithin (hp : p.Faithful) (depth : Nat) (e : Expr) :
    (p.distributeWithin depth e).holds assignment = e.holds assignment := by
  induction depth generalizing e with
  | zero => rw [distributeWithin]
  | succ depth ih =>
    match e with
    | .truth _ | .symbol _ | .not _ _ => simp only [distributeWithin]
    | .join mode op operands =>
      rw [distributeWithin]
      split_ifs
      · apply @Connective.decides_injective op
        rw [holds_built_join hp .evaluated .raw, Connective.decides_join_dual, List.all_map]
        have hchoice : ∀ choice : List Expr,
            ((fun e ↦ op.decides (e.holds assignment)) ∘ fun choice ↦
              p.distributeWithin depth (p.join .evaluated op choice)) choice =
                choice.any fun e ↦ op.decides (e.holds assignment) := by
          intro choice
          rw [Function.comp_apply, ih, holds_built_join hp .evaluated .raw,
            Connective.decides_join]
        rw [List.all_congr rfl hchoice, all_choices, List.any_map, Connective.decides_join]
        exact List.any_congr rfl fun e ↦ all_alternatives op e
      · rfl

/-! #### Pushing negations down -/

theorem holds_literalizeWithin (hp : p.Faithful) (depth : Nat) (e : Expr) :
    ((p.literalizeWithin depth e).getD e).holds assignment = e.holds assignment := by
  induction depth generalizing e with
  | zero => rw [literalizeWithin_zero, Option.getD_none]
  | succ depth ih =>
    cases e with
    | truth value => rw [literalizeWithin_truth, Option.getD_none]
    | symbol name => rw [literalizeWithin_symbol, Option.getD_none]
    | not mode operand =>
      have hcancel := @holds_cancel p assignment hp (.not mode operand)
      rw [literalizeWithin_not]
      split
      · next heq =>
        rw [Option.getD_some, ih, holds_deMorgan hp, ← heq, hcancel]
      · next heq =>
        split_ifs
        · rfl
        · rw [Option.getD_some, ← heq, hcancel]
      · rw [Option.getD_some, ih, hcancel]
    | join mode op operands =>
      rw [literalizeWithin_join]
      split_ifs
      · rfl
      · rw [Option.getD_some, holds_built_join hp mode mode]
        exact holds_join_map fun e _ ↦ ih e

end SwitchingAlgebra.Policy
