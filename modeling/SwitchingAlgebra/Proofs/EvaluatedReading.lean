import Mathlib
import SwitchingAlgebra.Proofs.PrefixedReading
import SwitchingAlgebra.Proofs.RoundTrip

/-!
# Reading with and without evaluation

A builder that evaluates brings every node into evaluated form as soon as its operands are read; one
that does not leaves all nodes as they are written. Read side by side from the same tokens, each
expression of the first is the evaluated form of the corresponding expression of the second, in the
open chains as well as at the end. Where an error is found, it is found before anything is built
from the token, so both find the same one. The same holds for any two builders if nothing is asked
of the expressions.

Main statements: what a builder finds wrong with a text, and where, does not depend on the builder
(`Builder.outcome_eq`), and reading with evaluation is reading without it and evaluating, errors
included (`readEvaluated_is_evaluated_readRaw`).
-/

set_option autoImplicit false
set_option relaxedAutoImplicit false

namespace SwitchingAlgebra.Reading

open Grammar

variable {R : Expr → Expr → Prop} {b b' : Builder}

/-- Builders that make related nodes from a derivation make them from a text as well. -/
theorem Builder.Tracks.of_relates (hrelates : Relates R b.construction b'.construction) :
    Builder.Tracks R (fun _ ↦ True) b b' where
  number value _ := hrelates.number value
  name text _ := hrelates.name text
  negate := hrelates.negation
  join := hrelates.join

/-- Two builders read a text alike as far as related expressions show. -/
theorem agree_read (hrelates : Relates R b.construction b'.construction) (text : String) :
    Agree R (b.read text) (b'.read text) :=
  (Builder.Tracks.of_relates hrelates).read fun _ _ _ _ ↦ trivial

/-- Whether reading succeeds, and the error if it does not. -/
def outcome (reading : Except Error Expr) : Except Error Unit :=
  reading.map fun _ ↦ ()

theorem Agree.outcome_eq {x y : Except Error Expr} (hagree : Agree R x y) :
    outcome x = outcome y := by
  cases hagree with
  | ok _ => rfl
  | error error => rfl

/-- The outcome of reading a text is the same for all policies and modes. -/
theorem Builder.outcome_eq (b b' : Builder) (text : String) :
    outcome (b.read text) = outcome (b'.read text) :=
  (agree_read (R := fun _ _ ↦ True) ⟨fun _ ↦ trivial, fun _ ↦ trivial, fun _ ↦ trivial,
    fun _ _ _ _ ↦ trivial⟩ text).outcome_eq

/-- Read with evaluation, a text stands for the evaluated form of what it is written as. -/
theorem agree_readRaw_readEvaluated (text : String) :
    Agree IsEvaluation (readRaw text) (readEvaluated text) := by
  have hrelates : Relates IsEvaluation (Builder.construction ⟨.standard, .raw⟩)
      (Builder.construction ⟨.standard, .evaluated⟩) := by
    rw [construction_raw]
    exact relates_isEvaluation
  exact agree_read hrelates text

/-- Every text is read with evaluation as the evaluated form of what it is read as without
evaluation, marks included, or both readings find the same error at the same place. Whatever the
policy and the mode, a text is read with the same success or the same error. -/
theorem readEvaluated_is_evaluated_readRaw (text : String) :
    readEvaluated text = (readRaw text).map Expr.eval ∧
      ∀ b b' : Builder, outcome (b.read text) = outcome (b'.read text) := by
  refine ⟨?_, fun b b' ↦ b.outcome_eq b' text⟩
  exact ((agree_readRaw_readEvaluated text).imp fun _ _ hevaluation ↦ hevaluation.2).map_eq

/-- What is read with evaluation has the value of what is written. -/
theorem exists_readRaw_eq_ok {text : String} {e : Expr} (hread : readEvaluated text = .ok e) :
    ∃ tree, readRaw text = .ok tree ∧
      ∀ assignment, e.holds assignment = tree.holds assignment := by
  have hagree := agree_readRaw_readEvaluated text
  rw [hread] at hagree
  cases htree : readRaw text with
  | error error =>
    rw [htree] at hagree
    cases hagree
  | ok tree =>
    rw [htree] at hagree
    obtain ⟨-, rfl⟩ : IsEvaluation tree e := by
      cases hagree with
      | ok hevaluation => exact hevaluation
    exact ⟨tree, rfl, fun assignment ↦ Policy.holds_eval Policy.faithful_standard tree⟩

end SwitchingAlgebra.Reading
