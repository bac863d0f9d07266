import Mathlib
import SwitchingAlgebra.NormalForm
import SwitchingAlgebra.Proofs.CrossedTerms
import SwitchingAlgebra.Proofs.KeptByTransformations
import SwitchingAlgebra.Proofs.Rearrangement
import SwitchingAlgebra.Proofs.Sizes
import SwitchingAlgebra.Proofs.TransformationSteps

/-!
# The order of operands is irrelevant

Two expressions are equal when their operands can be rearranged, at any depth, so that they differ
in marks alone. What is made of equal expressions is equal again. Where operands are combined, the
combined operands are the same up to their order, and so is what is left of them. Where operands are
kept, they are kept in another order. A choice of alternatives of the operands is, rearranged, a
choice of equal alternatives of the rearranged operands.

An evaluated join stays as it is where a raw join with the same operands is rebuilt, but only where
there is something to push down, and in an evaluated join there is not.

Main statements: equal expressions are evaluated to the same expression
(`Settled.eval_eq_of_shape_eq`), have the same terms (`mem_terms_iff_of_shape_eq`), and are
transformed to equal expressions (`transformations_ignore_order`).
-/

set_option autoImplicit false
set_option relaxedAutoImplicit false

namespace SwitchingAlgebra.Expr

open Policy

variable {op : Connective} {mode mode' : Mode} {a b d e : Expr} {es fs : List Expr}
  {negated : Bool} {t : Term}

/-! ### Expressions of one shape -/

theorem eq_truth_of_shape_eq {value : Bool} (hshape : (truth value).shape = e.shape) :
    e = .truth value := by
  cases rearranges_of_shape_eq _ _ hshape
  rfl

theorem eq_symbol_of_shape_eq {s : Symbol} (hshape : (symbol s).shape = e.shape) :
    e = .symbol s := by
  cases rearranges_of_shape_eq _ _ hshape
  rfl

theorem exists_eq_not_of_shape_eq (hshape : (not mode d).shape = e.shape) :
    ∃ mode' operand, e = .not mode' operand ∧ d.shape = operand.shape := by
  cases rearranges_of_shape_eq _ _ hshape with
  | not _ mode' hoperand => exact ⟨mode', _, rfl, hoperand.shape_eq⟩

/-- The operands of the first list are those of the second one, rearranged at any depth. -/
def OperandsAlike (es fs : List Expr) : Prop :=
  (es.map shape).Perm (fs.map shape)

theorem exists_eq_join_of_shape_eq (hshape : (join mode op es).shape = e.shape) :
    ∃ mode' fs, e = .join mode' op fs ∧ OperandsAlike es fs := by
  cases rearranges_of_shape_eq _ _ hshape with
  | @join _ mode' _ _ _ fs hperm hlength hoperands =>
    rw [shape_join, shape_join, Shape.join.injEq] at hshape
    exact ⟨mode', fs, rfl, Shape.perm_of_mergeSort_eq hshape.2.1⟩

theorem OperandsAlike.shape_join_eq (hoperands : OperandsAlike es fs) (mode mode' : Mode) :
    (join mode op es).shape = (join mode' op fs).shape := by
  rw [shape_join, shape_join, Shape.mergeSort_eq_of_perm hoperands]

namespace OperandsAlike

theorem symm (hoperands : OperandsAlike es fs) : OperandsAlike fs es :=
  List.Perm.symm hoperands

/-- The operands can be arranged so that they agree one by one. -/
theorem exists_arranged (hoperands : OperandsAlike es fs) : ∃ arranged, es.Perm arranged ∧
    List.Forall₂ (fun d f ↦ d ∈ es ∧ f ∈ fs ∧ d.shape = f.shape) arranged fs := by
  obtain ⟨arranged, hperm, hmap⟩ := exists_perm_of_perm_map_shape hoperands
  obtain ⟨hlength, hpairs⟩ := map_shape_eq_iff.mp hmap
  refine ⟨arranged, hperm, List.forall₂_iff_zip.mpr ⟨hlength, fun {d f} hpair ↦ ?_⟩⟩
  obtain ⟨hd, hf⟩ := List.of_mem_zip hpair
  exact ⟨hperm.mem_iff.mpr hd, hf, hpairs (d, f) hpair⟩

/-- What operands contribute to a list is the same up to its order. -/
theorem flatMap {α : Type} {g : Expr → List α} (hoperands : OperandsAlike es fs)
    (hg : ∀ d ∈ es, ∀ f ∈ fs, d.shape = f.shape → (g d).Perm (g f)) :
    (es.flatMap g).Perm (fs.flatMap g) := by
  obtain ⟨arranged, hperm, hall⟩ := hoperands.exists_arranged
  have hpairs : List.Forall₂ (fun d f ↦ (g d).Perm (g f)) arranged fs :=
    hall.imp fun d f ⟨hd, hf, hshape⟩ ↦ hg d hd f hf hshape
  refine (hperm.flatMap_right g).trans ?_
  clear hall hperm hoperands hg
  induction hpairs with
  | nil => exact .refl _
  | cons hpair _ ih => exact hpair.append ih

/-- So is what becomes of each of them. -/
theorem map {α : Type} {g : Expr → α} (hoperands : OperandsAlike es fs)
    (hg : ∀ d ∈ es, ∀ f ∈ fs, d.shape = f.shape → g d = g f) : (es.map g).Perm (fs.map g) := by
  rw [List.map_eq_flatMap, List.map_eq_flatMap]
  exact hoperands.flatMap fun d hd f hf hshape ↦ by rw [hg d hd f hf hshape]

/-- To something taken of every operand corresponds something taken of every operand of the other
list, when it does operand by operand. -/
theorem exists_choice {α : Type} {R : α → Expr → Prop} {S : α → α → Prop}
    (hoperands : OperandsAlike es fs)
    (hmatch : ∀ d ∈ es, ∀ f ∈ fs, d.shape = f.shape → ∀ x, R x d → ∃ y, R y f ∧ S x y)
    {choice : List α} (hchoice : List.Forall₂ R choice es) :
    ∃ arranged matched, choice.Perm arranged ∧ List.Forall₂ S arranged matched ∧
      List.Forall₂ R matched fs := by
  obtain ⟨operands, hperm, hall⟩ := hoperands.exists_arranged
  have hcomp : Relation.Comp (List.Forall₂ R) List.Perm choice operands := ⟨es, hchoice, hperm⟩
  rw [List.forall₂_comp_perm_eq_perm_comp_forall₂] at hcomp
  obtain ⟨arranged, harranged, hR⟩ := hcomp
  suffices hmatched : ∃ matched, List.Forall₂ S arranged matched ∧ List.Forall₂ R matched fs by
    obtain ⟨matched, hS, hR⟩ := hmatched
    exact ⟨arranged, matched, harranged, hS, hR⟩
  have hpairs : List.Forall₂ (fun d f ↦ ∀ x, R x d → ∃ y, R y f ∧ S x y) operands fs :=
    hall.imp fun d f ⟨hd, hf, hshape⟩ ↦ hmatch d hd f hf hshape
  clear hall hperm harranged hoperands hmatch
  induction hR generalizing fs with
  | nil =>
    cases hpairs
    exact ⟨[], .nil, .nil⟩
  | cons hx _ ih =>
    cases hpairs with
    | cons hpair hpairs =>
      obtain ⟨y, hy, hS⟩ := hpair _ hx
      obtain ⟨matched, hSs, hRs⟩ := ih hpairs
      exact ⟨y :: matched, .cons hS hSs, .cons hy hRs⟩

end OperandsAlike

theorem size_eq_of_shape_eq (d : Expr) : ∀ e : Expr, d.shape = e.shape → d.size = e.size := by
  induction d using Expr.induct with
  | truth value =>
    intro e hshape
    rw [eq_truth_of_shape_eq hshape]
  | symbol name =>
    intro e hshape
    rw [eq_symbol_of_shape_eq hshape]
  | not mode operand ih =>
    intro e hshape
    obtain ⟨mode', operand', rfl, hoperand⟩ := exists_eq_not_of_shape_eq hshape
    rw [size_not, size_not, ih operand' hoperand]
  | join mode op operands ih =>
    intro e hshape
    obtain ⟨mode', fs, rfl, hoperands⟩ := exists_eq_join_of_shape_eq hshape
    have hperm := hoperands.map fun d hd f _ hshape ↦ ih d hd f hshape
    rw [size_join, size_join, hperm.sum_eq]

theorem connective?_eq_of_shape_eq (hshape : d.shape = e.shape) :
    d.connective? = e.connective? := by
  cases d with
  | truth value => rw [eq_truth_of_shape_eq hshape]
  | symbol name => rw [eq_symbol_of_shape_eq hshape]
  | not mode operand =>
    obtain ⟨mode', operand', rfl, -⟩ := exists_eq_not_of_shape_eq hshape
    rfl
  | join mode op operands =>
    obtain ⟨mode', fs, rfl, -⟩ := exists_eq_join_of_shape_eq hshape
    rfl

/-- Expressions of one shape contribute the same to a join, up to the order. -/
theorem operandsAlike_splice (hshape : d.shape = e.shape) :
    OperandsAlike (d.splice op) (e.splice op) := by
  have hself : OperandsAlike [d] [e] := by simp [OperandsAlike, hshape]
  cases d with
  | truth value =>
    rw [eq_truth_of_shape_eq hshape]
    exact .refl _
  | symbol name =>
    rw [eq_symbol_of_shape_eq hshape]
    exact .refl _
  | not mode operand =>
    obtain ⟨mode', operand', rfl, -⟩ := exists_eq_not_of_shape_eq hshape
    exact hself
  | join mode child operands =>
    obtain ⟨mode', fs, rfl, hoperands⟩ := exists_eq_join_of_shape_eq hshape
    rw [splice, splice]
    by_cases hchild : child = op
    · rw [if_pos hchild, if_pos hchild]
      exact hoperands
    · rw [if_neg hchild, if_neg hchild]
      exact hself

/-! ### Evaluation -/

theorem combine_eq_of_perm (hes : ∀ e ∈ es, e.Evaluated) (hperm : es.Perm fs) :
    standard.combine op es = standard.combine op fs :=
  combine_eq_of_mem_iff hes fun _ ↦ hperm.mem_iff

/-- Settled expressions of one shape are evaluated to the same expression. -/
theorem eval_eq_of_shape_eq (d : Expr) :
    ∀ e : Expr, d.Settled → e.Settled → d.shape = e.shape → d.eval = e.eval := by
  induction d using Expr.induct with
  | truth value =>
    intro e _ _ hshape
    rw [eq_truth_of_shape_eq hshape]
  | symbol name =>
    intro e _ _ hshape
    rw [eq_symbol_of_shape_eq hshape]
  | not mode operand ih =>
    intro e hd he hshape
    obtain ⟨mode', operand', rfl, hoperand⟩ := exists_eq_not_of_shape_eq hshape
    rw [hd.eval_not, he.eval_not, ih operand' (hd.of_mem_operands (List.mem_singleton_self _))
      (he.of_mem_operands (List.mem_singleton_self _)) hoperand]
  | join mode op operands ih =>
    intro e hd he hshape
    obtain ⟨mode', fs, rfl, hoperands⟩ := exists_eq_join_of_shape_eq hshape
    rw [hd.eval_join, he.eval_join]
    refine combine_eq_of_perm (List.forall_mem_map.mpr fun x hx ↦
      (hd.of_mem_operands hx).evaluated_eval) (hoperands.map fun x hx f hf hshape ↦ ?_)
    exact ih x hx f (hd.of_mem_operands hx) (he.of_mem_operands hf) hshape

theorem Settled.eval_eq_of_shape_eq (hd : d.Settled) (he : e.Settled)
    (hshape : d.shape = e.shape) : d.eval = e.eval :=
  Expr.eval_eq_of_shape_eq d e hd he hshape

/-- Evaluated joins of operands that are alike are the same. -/
theorem join_evaluated_eq (hes : ∀ e ∈ es, e.Settled) (hfs : ∀ f ∈ fs, f.Settled)
    (hoperands : OperandsAlike es fs) :
    standard.join .evaluated op es = standard.join .evaluated op fs := by
  rw [evaluating_standard.join_evaluated, evaluating_standard.join_evaluated]
  refine combine_eq_of_perm (List.forall_mem_map.mpr fun e he ↦ (hes e he).evaluated_eval)
    (hoperands.map fun d hd f hf hshape ↦ ?_)
  exact (hes d hd).eval_eq_of_shape_eq (hfs f hf) hshape

/-! ### Negations -/

theorem negations_eq_of_shape_eq (hshape : d.shape = e.shape) : d.negations = e.negations := by
  rw [← negations_shape, hshape, negations_shape]

theorem shape_core_eq_of_shape_eq (hshape : d.shape = e.shape) : d.core.shape = e.core.shape := by
  rw [← core_shape, hshape, core_shape]

theorem shape_cancel (hshape : d.shape = e.shape) :
    (standard.cancel d).shape = (standard.cancel e).shape := by
  have hcore := shape_core_eq_of_shape_eq hshape
  rw [cancel, cancel, negations_eq_of_shape_eq hshape]
  split_ifs
  · exact hshape
  · exact hcore
  · show (Expr.not .raw d.core).shape = (Expr.not .raw e.core).shape
    rw [shape, shape, hcore]

/-- De Morgan's law gives the same join of negated operands that are alike. -/
theorem join_negation_eq (hes : ∀ e ∈ es, e.Settled) (hfs : ∀ f ∈ fs, f.Settled)
    (hoperands : OperandsAlike es fs) :
    standard.join .evaluated op (es.map (standard.negation .evaluated)) =
      standard.join .evaluated op (fs.map (standard.negation .evaluated)) := by
  have hnegated : ∀ {gs : List Expr}, (∀ g ∈ gs, g.Settled) →
      ∀ g ∈ gs.map (standard.negation .evaluated), g.Settled := fun hgs ↦
    List.forall_mem_map.mpr fun g hg ↦ settled_negation .evaluated (hgs g hg)
  refine join_evaluated_eq (hnegated hes) (hnegated hfs) ?_
  rw [OperandsAlike, List.map_map, List.map_map]
  refine hoperands.map fun d hd f hf hshape ↦ ?_
  rw [Function.comp_apply, Function.comp_apply, evaluating_standard.negation_evaluated,
    evaluating_standard.negation_evaluated, (hes d hd).eval_eq_of_shape_eq (hfs f hf) hshape]

theorem shape_deMorgan (hd : d.Settled) (he : e.Settled) (hshape : d.shape = e.shape) :
    (standard.deMorgan d).shape = (standard.deMorgan e).shape := by
  match d with
  | .truth _ => rw [eq_truth_of_shape_eq hshape]
  | .symbol _ => rw [eq_symbol_of_shape_eq hshape]
  | .join _ _ _ =>
    obtain ⟨mode', fs, rfl, -⟩ := exists_eq_join_of_shape_eq hshape
    exact hshape
  | .not _ operand =>
    obtain ⟨mode', operand', rfl, hoperand⟩ := exists_eq_not_of_shape_eq hshape
    match operand with
    | .truth _ =>
      rw [eq_truth_of_shape_eq hoperand] at hshape ⊢
      exact hshape
    | .symbol _ =>
      rw [eq_symbol_of_shape_eq hoperand] at hshape ⊢
      exact hshape
    | .not _ _ =>
      obtain ⟨mode'', operand'', rfl, -⟩ := exists_eq_not_of_shape_eq hoperand
      exact hshape
    | .join _ op es =>
      obtain ⟨mode'', fs, rfl, hoperands⟩ := exists_eq_join_of_shape_eq hoperand
      have hes := hd.of_mem_operands (List.mem_singleton_self _)
      have hfs := he.of_mem_operands (List.mem_singleton_self _)
      exact congrArg shape (join_negation_eq (fun x hx ↦ hes.of_mem_operands hx)
        (fun f hf ↦ hfs.of_mem_operands hf) hoperands)

/-! ### Flattening -/

theorem shape_flatten (d : Expr) : ∀ e : Expr, d.shape = e.shape →
    (standard.flatten d).shape = (standard.flatten e).shape := by
  induction d using Expr.induct with
  | truth value =>
    intro e hshape
    rw [eq_truth_of_shape_eq hshape]
  | symbol name =>
    intro e hshape
    rw [eq_symbol_of_shape_eq hshape]
  | not mode operand ih =>
    intro e hshape
    obtain ⟨mode', operand', rfl, hoperand⟩ := exists_eq_not_of_shape_eq hshape
    rw [flatten_not, flatten_not, shape, shape, ih operand' hoperand]
  | join mode op operands ih =>
    intro e hshape
    obtain ⟨mode', fs, rfl, hoperands⟩ := exists_eq_join_of_shape_eq hshape
    rw [flatten_join, flatten_join]
    refine OperandsAlike.shape_join_eq ?_ .raw .raw
    rw [OperandsAlike, List.map_flatMap, List.map_flatMap]
    exact hoperands.flatMap fun x hx f _ hshape ↦ operandsAlike_splice (ih x hx f hshape)

/-! ### Distribution -/

/-- A choice of alternatives of the operands is up to its order a choice of alternatives of operands
that are alike. -/
theorem exists_choice_alike (hoperands : OperandsAlike es fs) {choice : List Expr}
    (hchoice : choice ∈ choices (es.map (alternatives op))) :
    ∃ matched ∈ choices (fs.map (alternatives op)), OperandsAlike choice matched := by
  have hmatch : ∀ d ∈ es, ∀ f ∈ fs, d.shape = f.shape → ∀ x, x ∈ d.alternatives op →
      ∃ y, y ∈ f.alternatives op ∧ x.shape = y.shape := by
    intro d _ f _ hshape x hx
    rw [alternatives_eq_splice] at hx ⊢
    have hsplice : OperandsAlike (d.splice op) (f.splice op) := operandsAlike_splice hshape
    obtain ⟨y, hy, hequal⟩ := List.mem_map.mp (hsplice.mem_iff.mp (List.mem_map_of_mem hx))
    exact ⟨y, hy, hequal.symm⟩
  rw [mem_choices_iff, List.forall₂_map_right_iff] at hchoice
  obtain ⟨arranged, matched, hperm, hshapes, htaken⟩ := hoperands.exists_choice hmatch hchoice
  have hmap : arranged.map shape = matched.map shape := by
    rwa [← List.forall₂_eq_eq_eq, List.forall₂_map_left_iff, List.forall₂_map_right_iff]
  refine ⟨matched, ?_, (hperm.map shape).trans (.of_eq hmap)⟩
  rw [mem_choices_iff, List.forall₂_map_right_iff]
  exact htaken

/-- What distribution joins is made of the same choices where operands are alike. -/
theorem mem_distributed_of_alike {depth : Nat} (hes : (Expr.join mode op es).Settled)
    (hfs : (Expr.join mode' op fs).Settled) (hoperands : OperandsAlike es fs) {x : Expr}
    (hx : x ∈ (choices (es.map (alternatives op.dual))).map fun choice ↦
      standard.distributeWithin depth (standard.join .evaluated op choice)) :
    x ∈ (choices (fs.map (alternatives op.dual))).map fun choice ↦
      standard.distributeWithin depth (standard.join .evaluated op choice) := by
  obtain ⟨choice, hchoice, rfl⟩ := List.mem_map.mp hx
  obtain ⟨matched, hmatched, halike⟩ := exists_choice_alike hoperands hchoice
  refine List.mem_map.mpr ⟨matched, hmatched, ?_⟩
  rw [join_evaluated_eq (evaluating_standard.keeps_settled.of_mem_choices hes hchoice)
    (evaluating_standard.keeps_settled.of_mem_choices hfs hmatched) halike]

theorem shape_distribute (hd : d.Settled) (he : e.Settled) (hshape : d.shape = e.shape) :
    (standard.distribute d).shape = (standard.distribute e).shape := by
  rw [distribute, distribute, distributionDepth, distributionDepth, size_eq_of_shape_eq d e hshape]
  match d with
  | .truth _ => rw [eq_truth_of_shape_eq hshape]
  | .symbol _ => rw [eq_symbol_of_shape_eq hshape]
  | .not _ _ =>
    obtain ⟨mode', operand', rfl, -⟩ := exists_eq_not_of_shape_eq hshape
    exact hshape
  | .join mode op es =>
    obtain ⟨mode', fs, rfl, hoperands⟩ := exists_eq_join_of_shape_eq hshape
    have hany : (es.any fun e ↦ e.connective? == some op.dual) =
        fs.any fun e ↦ e.connective? == some op.dual := by
      have hperm := hoperands.map fun x _ f _ hshape ↦ connective?_eq_of_shape_eq hshape
      have hmapped := hperm.any_eq (f := (· == some op.dual))
      rwa [List.any_map, List.any_map] at hmapped
    rw [distributeWithin, distributeWithin, hany]
    split_ifs
    · -- The choices are joined to the same expressions, so both joins are the same.
      rw [evaluating_standard.join_evaluated, evaluating_standard.join_evaluated]
      refine congrArg shape (combine_eq_of_mem_iff (List.forall_mem_map.mpr fun x hx ↦ ?_)
        fun x ↦ ?_)
      · obtain ⟨choice, hchoice, rfl⟩ := List.mem_map.mp hx
        have hkeeps := evaluating_standard.keeps_settled
        exact (hkeeps.distributeWithin _
          (hkeeps.join .evaluated op (hkeeps.of_mem_choices hd hchoice))).evaluated_eval
      · rw [List.mem_map, List.mem_map]
        refine exists_congr fun y ↦ and_congr_left fun _ ↦ ?_
        exact ⟨mem_distributed_of_alike hd he hoperands,
          mem_distributed_of_alike he hd hoperands.symm⟩
    · exact hshape

/-! ### Negations pushed down -/

theorem isMinimum_of_settled_evaluated (he : (Expr.join .evaluated op es).Settled) :
    IsMinimum op es := by
  cases he with | evaluated he =>
  cases he with | join hes => exact hes

/-- Nothing is pushed down in an evaluated join. -/
theorem mode_eq_raw_of_pushed {depth : Nat} (he : (Expr.join mode op es).Settled)
    (hsome : ¬ (es.map (standard.literalizeWithin depth)).all Option.isNone = true) :
    mode = .raw := by
  cases mode with
  | raw => rfl
  | evaluated =>
    have hnone : standard.literalizeWithin (depth + 1) (.join .evaluated op es) = none :=
      literalizeWithin_isMinimum standard (depth + 1) (isMinimum_of_settled_evaluated he)
    rw [literalizeWithin_join, if_neg hsome] at hnone
    cases hnone

/-- Pushing negations down changes expressions of one shape alike, or neither of them, where it is
cut off at the depth. -/
def PushedAlike (depth : Nat) : Prop :=
  ∀ d e : Expr, d.Settled → e.Settled → d.shape = e.shape →
    (standard.literalizeWithin depth d).map shape = (standard.literalizeWithin depth e).map shape

namespace PushedAlike

variable {depth : Nat}

theorem shape_getD (halike : PushedAlike depth) (hd : d.Settled) (he : e.Settled)
    (hshape : d.shape = e.shape) :
    ((standard.literalizeWithin depth d).getD d).shape =
      ((standard.literalizeWithin depth e).getD e).shape := by
  rw [← Option.getD_map shape, ← Option.getD_map shape, halike d e hd he hshape, hshape]

/-- One more step takes the negations in front of expressions of one shape. -/
theorem not (halike : PushedAlike depth) (hd : d.Settled) (he : e.Settled)
    (hshape : d.shape = e.shape) :
    (standard.literalizeWithin (depth + 1) (.not mode d)).map shape =
      (standard.literalizeWithin (depth + 1) (.not mode' e)).map shape := by
  have hnegations := negations_eq_of_shape_eq hshape
  have hcore := shape_core_eq_of_shape_eq hshape
  have hdcore := evaluating_standard.keeps_settled.core hd
  have hecore := evaluating_standard.keeps_settled.core he
  rcases Nat.mod_two_eq_zero_or_one (d.negations + 1) with heven | hodd
  · rw [literalizeWithin_even heven, literalizeWithin_even (hnegations ▸ heven)]
    exact congrArg some (halike.shape_getD hdcore hecore hcore)
  · cases hconnective : d.core.connective? with
    | none =>
      rw [literalizeWithin_odd_leaf rfl hodd hconnective,
        literalizeWithin_odd_leaf rfl (hnegations ▸ hodd)
          (connective?_eq_of_shape_eq hcore ▸ hconnective), hnegations]
      split_ifs
      · rfl
      · show some (Expr.not .raw d.core).shape = some (Expr.not .raw e.core).shape
        rw [shape, shape, hcore]
    | some op =>
      -- De Morgan's law makes the same join of both.
      obtain ⟨inner, es, hjoin⟩ := exists_eq_join_of_connective? hconnective
      obtain ⟨inner', fs, hjoin', hoperands⟩ := exists_eq_join_of_shape_eq (hjoin ▸ hcore)
      have hes : ∀ x ∈ es, x.Settled := fun x hx ↦ (hjoin ▸ hdcore).of_mem_operands hx
      have hfs : ∀ f ∈ fs, f.Settled := fun f hf ↦ (hjoin' ▸ hecore).of_mem_operands hf
      rw [literalizeWithin_odd_join rfl hodd hjoin,
        literalizeWithin_odd_join rfl (hnegations ▸ hodd) hjoin',
        join_negation_eq hes hfs hoperands]

/-- One more step pushes negations down in operands that are alike, or in none of them. -/
theorem join (halike : PushedAlike depth) (hd : (Expr.join mode op es).Settled)
    (he : (Expr.join mode' op fs).Settled) (hoperands : OperandsAlike es fs) :
    (standard.literalizeWithin (depth + 1) (.join mode op es)).map shape =
      (standard.literalizeWithin (depth + 1) (.join mode' op fs)).map shape := by
  have hall : (es.map (standard.literalizeWithin depth)).all Option.isNone =
      (fs.map (standard.literalizeWithin depth)).all Option.isNone := by
    have hperm := hoperands.map (g := fun x ↦ (standard.literalizeWithin depth x).isNone)
      fun x hx f hf hshape ↦ by
        have hnone := congrArg Option.isNone
          (halike x f (hd.of_mem_operands hx) (he.of_mem_operands hf) hshape)
        rwa [Option.isNone_map, Option.isNone_map] at hnone
    have hmapped := hperm.all_eq (f := id)
    rwa [List.all_map, List.all_map] at hmapped ⊢
  rw [literalizeWithin_join, literalizeWithin_join]
  by_cases hnone : (es.map (standard.literalizeWithin depth)).all Option.isNone = true
  · rw [if_pos hnone, if_pos (hall ▸ hnone)]
  · rw [if_neg hnone, if_neg (hall ▸ hnone), mode_eq_raw_of_pushed hd hnone,
      mode_eq_raw_of_pushed he (hall ▸ hnone)]
    refine congrArg some (OperandsAlike.shape_join_eq ?_ .raw .raw)
    rw [OperandsAlike, List.map_map, List.map_map]
    exact hoperands.map fun x hx f hf hshape ↦
      halike.shape_getD (hd.of_mem_operands hx) (he.of_mem_operands hf) hshape

end PushedAlike

/-- At every depth negations are pushed down alike. -/
theorem pushedAlike (depth : Nat) : PushedAlike depth := by
  induction depth with
  | zero =>
    intro d e _ _ _
    rw [literalizeWithin_zero, literalizeWithin_zero]
  | succ depth ih =>
    intro d e hd he hshape
    cases d with
    | truth value => rw [eq_truth_of_shape_eq hshape]
    | symbol name => rw [eq_symbol_of_shape_eq hshape]
    | not mode operand =>
      obtain ⟨mode', operand', rfl, hoperand⟩ := exists_eq_not_of_shape_eq hshape
      exact ih.not (hd.of_mem_operands (List.mem_singleton_self _))
        (he.of_mem_operands (List.mem_singleton_self _)) hoperand
    | join mode op es =>
      obtain ⟨mode', fs, rfl, hoperands⟩ := exists_eq_join_of_shape_eq hshape
      exact ih.join hd he hoperands

theorem shape_literalize (hd : d.Settled) (he : e.Settled) (hshape : d.shape = e.shape) :
    (standard.literalize d).shape = (standard.literalize e).shape := by
  rw [literalize, literalize, literalizeDepth, literalizeDepth, size_eq_of_shape_eq d e hshape]
  exact (pushedAlike _).shape_getD hd he hshape

/-! ### Terms -/

/-- The crossed terms of operands that are alike are the same. -/
theorem mem_crossedTerms_of_alike {acc : List Term} (hacc : ∀ t ∈ acc, t.Increasing)
    (hoperands : OperandsAlike es fs)
    (hterms : ∀ d ∈ es, ∀ f ∈ fs, d.shape = f.shape →
      ∀ u ∈ d.terms op negated, u ∈ f.terms op negated)
    (ht : t ∈ crossedTerms op es negated acc) : t ∈ crossedTerms op fs negated acc := by
  obtain ⟨first, hfirst, choice, hchoice, hincreasing, hholds⟩ := (mem_crossedTerms_iff hacc).mp ht
  obtain ⟨arranged, matched, hperm, hsame, hmatched⟩ := hoperands.exists_choice (S := (· = ·))
    (fun d hd f hf hshape u hu ↦ ⟨u, hterms d hd f hf hshape u hu, rfl⟩) hchoice
  rw [List.forall₂_eq_eq_eq] at hsame
  refine (mem_crossedTerms_iff hacc).mpr ⟨first, hfirst, matched, hmatched, hincreasing,
    fun assignment ↦ ?_⟩
  rw [hholds, hperm.all_eq, hsame]

/-- Expressions of one shape have the same terms. -/
theorem mem_terms_iff_of_shape_eq (d : Expr) : ∀ e : Expr, d.shape = e.shape →
    ∀ (negated : Bool) (t : Term), t ∈ d.terms op negated ↔ t ∈ e.terms op negated := by
  induction d using Expr.induct with
  | truth value =>
    intro e hshape negated t
    rw [eq_truth_of_shape_eq hshape]
  | symbol name =>
    intro e hshape negated t
    rw [eq_symbol_of_shape_eq hshape]
  | not mode operand ih =>
    intro e hshape negated t
    obtain ⟨mode', operand', rfl, hoperand⟩ := exists_eq_not_of_shape_eq hshape
    rw [terms, terms, ih operand' hoperand]
  | join mode child operands ih =>
    intro e hshape negated t
    obtain ⟨mode', fs, rfl, hoperands⟩ := exists_eq_join_of_shape_eq hshape
    have hone : ∀ u ∈ [([] : Term)], Term.Increasing u := by simp [Term.Increasing]
    rw [terms, terms]
    by_cases hchild : (if negated then child.dual else child) = op
    · rw [if_pos hchild, if_pos hchild, mem_gatheredTerms_iff, mem_gatheredTerms_iff]
      constructor
      · rintro ⟨x, hx, ht⟩
        obtain ⟨f, hf, hequal⟩ := List.mem_map.mp (hoperands.mem_iff.mp (List.mem_map_of_mem hx))
        exact ⟨f, hf, (ih x hx f hequal.symm negated t).mp ht⟩
      · rintro ⟨f, hf, ht⟩
        obtain ⟨x, hx, hequal⟩ := List.mem_map.mp (hoperands.mem_iff.mpr (List.mem_map_of_mem hf))
        exact ⟨x, hx, (ih x hx f hequal negated t).mpr ht⟩
    · rw [if_neg hchild, if_neg hchild]
      constructor
      · exact mem_crossedTerms_of_alike hone hoperands fun x hx f _ hshape u hu ↦
          (ih x hx f hshape negated u).mp hu
      · exact mem_crossedTerms_of_alike hone hoperands.symm fun f _ x hx hshape u hu ↦
          (ih x hx f hshape.symm negated u).mpr hu

/-- So they have the same normal forms. -/
theorem normalForm_eq_of_shape_eq (op : Connective) (hshape : d.shape = e.shape) :
    standard.normalForm op d = standard.normalForm op e := by
  have hterms : Term.distinct (d.terms op false) = Term.distinct (e.terms op false) := by
    refine eq_of_pairwise_of_mem_iff asymm_of_orientedCmp (pairwise_sortDistinct _)
      (pairwise_sortDistinct _) fun t ↦ ?_
    exact Term.mem_distinct.trans
      ((mem_terms_iff_of_shape_eq d e hshape false t).trans Term.mem_distinct.symm)
  rw [normalForm, normalForm, hterms]

/-! ### All transformations -/

theorem beq_iff_shape_eq : (d == e) = true ↔ d.shape = e.shape := by
  rw [← compare_eq_iff_shape_eq]
  show (compare d e == .eq) = true ↔ _
  exact beq_iff_eq

/-- The order of operands is irrelevant: equal expressions that are built by the standard policy are
evaluated to the same expression, they are transformed to equal expressions, and they have the same
normal forms. -/
theorem transformations_ignore_order (ha : a.Built) (hb : b.Built) (hequal : a == b) :
    a.eval = b.eval ∧ standard.cancel a == standard.cancel b ∧
      standard.deMorgan a == standard.deMorgan b ∧ standard.flatten a == standard.flatten b ∧
        standard.distribute a == standard.distribute b ∧
          standard.literalize a == standard.literalize b ∧
            ∀ op, standard.normalForm op a = standard.normalForm op b := by
  have hshape := beq_iff_shape_eq.mp hequal
  refine ⟨ha.settled.eval_eq_of_shape_eq hb.settled hshape, ?_, ?_, ?_, ?_, ?_,
    fun op ↦ normalForm_eq_of_shape_eq op hshape⟩
  · exact beq_iff_shape_eq.mpr (shape_cancel hshape)
  · exact beq_iff_shape_eq.mpr (shape_deMorgan ha.settled hb.settled hshape)
  · exact beq_iff_shape_eq.mpr (shape_flatten a b hshape)
  · exact beq_iff_shape_eq.mpr (shape_distribute ha.settled hb.settled hshape)
  · exact beq_iff_shape_eq.mpr (shape_literalize ha.settled hb.settled hshape)

/-- A negated product of a sum and a symbol, with the sum evaluated. -/
def negatedProductOfSum : Expr :=
  standard.negation .raw (standard.join .raw .and
    [standard.join .evaluated .or [.symbol (.name "a"), .symbol (.name "b")], .symbol (.name "c")])

/-- The same product as written, with the operands in another order. -/
def shuffledProductOfSum : Expr :=
  standard.negation .raw (standard.join .raw .and [.symbol (.name "c"),
    standard.join .raw .or [.symbol (.name "b"), .symbol (.name "a")]])

/-- The two products are built and equal. They are evaluated to the same expression, their negations
are pushed down to equal expressions, and they have the same conjunctive and disjunctive normal
forms. -/
theorem productOfSum_ignores_order : negatedProductOfSum.Built ∧ shuffledProductOfSum.Built ∧
    negatedProductOfSum == shuffledProductOfSum ∧
      negatedProductOfSum.eval = shuffledProductOfSum.eval ∧
        standard.literalize negatedProductOfSum == standard.literalize shuffledProductOfSum ∧
          ∀ op, standard.normalForm op negatedProductOfSum =
            standard.normalForm op shuffledProductOfSum := by
  have hsymbols : ∀ s t : Symbol, ∀ e ∈ [symbol s, symbol t], e.Built := by simp [Built.symbol]
  have hsum : (standard.join .evaluated .or [.symbol (.name "a"), .symbol (.name "b")]).Built :=
    .join .evaluated .or (hsymbols _ _)
  have hshuffled : (standard.join .raw .or [.symbol (.name "b"), .symbol (.name "a")]).Built :=
    .join .raw .or (hsymbols _ _)
  have ha : negatedProductOfSum.Built :=
    .negation .raw (.join .raw .and (by simp [hsum, Built.symbol]))
  have hb : shuffledProductOfSum.Built :=
    .negation .raw (.join .raw .and (by simp [hshuffled, Built.symbol]))
  have hequal : (negatedProductOfSum == shuffledProductOfSum) = true := by cbv
  obtain ⟨heval, -, -, -, -, hliteralize, hnormal⟩ := transformations_ignore_order ha hb hequal
  exact ⟨ha, hb, hequal, heval, hliteralize, hnormal⟩

end SwitchingAlgebra.Expr
