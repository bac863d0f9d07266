import Mathlib
import SwitchingAlgebra.Proofs.EvaluatedForms
import SwitchingAlgebra.Transform.Distribution
import SwitchingAlgebra.Transform.Negation

/-!
# The steps of the transformations

Distribution takes one alternative of every operand in every way. Pushing negations down first looks
at the run of negations that an expression starts with: a run of even length goes away, one of odd
length stays in front of a constant or a symbol as a single negation, and in front of a join De
Morgan's law takes it. A two-level form has no negations to push.

Main statements: a list is a choice when its elements are taken from the lists in turn
(`mem_choices_iff`), one equation for each kind of run (`literalizeWithin_even`,
`literalizeWithin_odd_join`, `literalizeWithin_odd_leaf`), and nothing is pushed in a minimum
two-level form (`literalizeWithin_isMinimum`).
-/

set_option autoImplicit false
set_option relaxedAutoImplicit false

namespace SwitchingAlgebra

open Policy

variable {p : Policy} {op : Connective} {mode mode' : Mode} {depth : Nat} {e operand : Expr}
  {es : List Expr}

/-! ### Choices -/

/-- A choice takes one element of each list, in the order of the lists. -/
theorem mem_choices_iff {α : Type} {lists : List (List α)} {choice : List α} :
    choice ∈ choices lists ↔ List.Forall₂ (· ∈ ·) choice lists := by
  induction lists generalizing choice with
  | nil => rw [choices, List.mem_singleton, List.forall₂_nil_right_iff]
  | cons xs rest ih =>
    rw [choices, List.forall₂_cons_right_iff, List.mem_flatMap]
    simp only [List.mem_map, ih]
    constructor
    · rintro ⟨x, hx, others, hothers, rfl⟩
      exact ⟨x, others, hx, hothers, rfl⟩
    · rintro ⟨x, others, hx, hothers, rfl⟩
      exact ⟨x, hx, others, hothers, rfl⟩

/-- The elements of a choice are taken from the lists. -/
theorem exists_mem_of_mem_choices {α : Type} {lists : List (List α)} {choice : List α} {x : α}
    (hchoice : choice ∈ choices lists) (hx : x ∈ choice) : ∃ xs ∈ lists, x ∈ xs := by
  rw [mem_choices_iff] at hchoice
  induction hchoice with
  | nil => cases hx
  | cons hhead _ ih =>
    rcases List.mem_cons.mp hx with rfl | hx
    · exact ⟨_, List.mem_cons_self, hhead⟩
    · obtain ⟨xs, hxs, hmem⟩ := ih hx
      exact ⟨xs, List.mem_cons_of_mem _ hxs, hmem⟩

namespace Expr

theorem alternatives_eq_splice (op : Connective) (e : Expr) : e.alternatives op = e.splice op := by
  cases e <;> rfl

/-! ### Runs of negations -/

/-- What passes from every expression to its operands passes to what its negations stand in front
of. -/
theorem inherits_core {P : Expr → Prop} (hoperands : ∀ {d e : Expr}, P e → d ∈ e.operands → P d)
    (e : Expr) : P e → P e.core := by
  induction e using Expr.induct with
  | not mode operand ih => exact fun he ↦ ih (hoperands he (List.mem_singleton_self operand))
  | _ => exact id

theorem negations_core (e : Expr) : e.core.negations = 0 := by
  induction e using Expr.induct with
  | not mode operand ih => rwa [core]
  | _ => rfl

theorem core_eq_of_negations_eq_zero (he : e.negations = 0) : e.core = e := by
  match e with
  | .not mode operand => cases he
  | .truth _ | .symbol _ | .join _ _ _ => rfl

/-- A run of even length goes away. -/
theorem cancel_even (heven : (operand.negations + 1) % 2 = 0) :
    p.cancel (.not mode operand) = operand.core := by
  have hmany : ¬ operand.negations + 1 ≤ 1 := by omega
  rw [cancel, negations, if_neg hmany, if_pos heven, core]

/-- A run of odd length becomes a single negation. -/
theorem exists_cancel_odd (mode : Mode) (hraw : p.negationMode .raw = .raw)
    (hodd : (operand.negations + 1) % 2 = 1) :
    ∃ mode', p.cancel (.not mode operand) = .not mode' operand.core := by
  rw [cancel, negations, core]
  by_cases hone : operand.negations = 0
  · rw [if_pos (by omega), core_eq_of_negations_eq_zero hone]
    exact ⟨mode, rfl⟩
  · rw [if_neg (by omega), if_neg (by omega), negation, hraw]
    exact ⟨.raw, rfl⟩

theorem literalizeWithin_even (heven : (operand.negations + 1) % 2 = 0) :
    p.literalizeWithin (depth + 1) (.not mode operand) =
      some ((p.literalizeWithin depth operand.core).getD operand.core) := by
  have hcore : operand.core.negations = 0 := negations_core operand
  rw [literalizeWithin_not, cancel_even heven]
  generalize operand.core = core at hcore
  cases core with
  | not mode operand => cases hcore
  | _ => rfl

theorem literalizeWithin_odd_join (hraw : p.negationMode .raw = .raw)
    (hodd : (operand.negations + 1) % 2 = 1) (hcore : operand.core = .join mode' op es) :
    p.literalizeWithin (depth + 1) (.not mode operand) =
      some ((p.literalizeWithin depth
          (p.join .evaluated op.dual (es.map (p.negation .evaluated)))).getD
        (p.join .evaluated op.dual (es.map (p.negation .evaluated)))) := by
  obtain ⟨mode'', hcancel⟩ := exists_cancel_odd mode hraw hodd
  rw [literalizeWithin_not, hcancel, hcore]
  rfl

theorem literalizeWithin_odd_leaf (hraw : p.negationMode .raw = .raw)
    (hodd : (operand.negations + 1) % 2 = 1) (hcore : operand.core.connective? = none) :
    p.literalizeWithin (depth + 1) (.not mode operand) =
      if operand.negations = 0 then none else some (.not .raw operand.core) := by
  have hnot : operand.core.negations = 0 := negations_core operand
  have hcancel : p.cancel (.not mode operand) =
      if operand.negations = 0 then .not mode operand.core else .not .raw operand.core := by
    rw [cancel, negations, core]
    by_cases hone : operand.negations = 0
    · rw [if_pos (by omega), if_pos hone, core_eq_of_negations_eq_zero hone]
    · rw [if_neg (by omega), if_neg (by omega), if_neg hone, negation, hraw]
  rw [literalizeWithin_not, hcancel]
  generalize operand.core = core at hcore hnot
  by_cases hone : operand.negations = 0
  · rw [if_pos hone, if_pos hone]
    cases core with
    | not mode operand => cases hnot
    | join mode op es => cases hcore
    | _ => simp only [hone, if_true]
  · rw [if_neg hone, if_neg hone]
    cases core with
    | not mode operand => cases hnot
    | join mode op es => cases hcore
    | _ => simp only [hone, if_false]

/-- In a join in which nothing is pushed in any operand nothing is pushed. -/
theorem literalizeWithin_join_eq_none (hes : ∀ e ∈ es, p.literalizeWithin depth e = none) :
    p.literalizeWithin (depth + 1) (.join mode op es) = none := by
  have hnone : (es.map (p.literalizeWithin depth)).all Option.isNone = true := by
    rw [List.all_map, List.all_eq_true]
    intro e he
    rw [Function.comp_apply, hes e he]
    rfl
  rw [literalizeWithin_join, if_pos hnone]

/-! ### Two-level forms -/

theorem literalizeWithin_literal (p : Policy) (depth : Nat) (s : Symbol) (positive : Bool) :
    p.literalizeWithin depth (standard.literal s positive) = none := by
  cases depth with
  | zero => rw [literalizeWithin_zero]
  | succ depth => cases positive <;> rfl

theorem literalizeWithin_clause (p : Policy) (depth : Nat) (he : IsClause op e) :
    p.literalizeWithin depth e = none := by
  cases he with
  | literal s positive => exact literalizeWithin_literal p depth s positive
  | @join t ht hlength =>
    cases depth with
    | zero => rw [literalizeWithin_zero]
    | succ depth =>
      refine literalizeWithin_join_eq_none fun e he ↦ ?_
      obtain ⟨l, -, rfl⟩ := mem_literalsOf.mp he
      exact literalizeWithin_literal p depth _ _

/-- Nothing is pushed in a minimum two-level form. -/
theorem literalizeWithin_isMinimum (p : Policy) (depth : Nat) (hes : IsMinimum op es) :
    p.literalizeWithin depth (.join mode op es) = none := by
  cases depth with
  | zero => rw [literalizeWithin_zero]
  | succ depth =>
    exact literalizeWithin_join_eq_none fun e he ↦
      literalizeWithin_clause p depth (hes.spec.2.2 e he)

end Expr

end SwitchingAlgebra
