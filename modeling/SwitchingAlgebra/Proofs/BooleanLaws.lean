import Mathlib
import SwitchingAlgebra.Proofs.Reachable

/-!
# Boolean laws

Evaluated nodes obey the laws of Boolean algebra as equalities of expressions, and not only of
values. An evaluated expression whose value is the same under all assignments is a constant, so a
join that is decided under every assignment is the annihilator, whatever its operands look like.
This settles complements, and with them operands that are listed one by one next to the negation of
their join.

The laws that leave an operand alone do not come from its value, since such an operand is not
brought into two-level form anew. They hold because repetitions and the identity are dropped before
the number of operands counts.

Main statements: a join that is always decided is the annihilator (`join_eq_annihilator`), and the
laws for both connectives (`boolean_laws`).
-/

set_option autoImplicit false
set_option relaxedAutoImplicit false

namespace SwitchingAlgebra

open Policy

variable {op : Connective} {a b e : Expr} {es fs : List Expr}

theorem Connective.decides_not (value : Bool) : op.decides (!value) = !op.decides value := by
  rw [← Bool.bne_true, Connective.decides_bne, Bool.bne_true]

namespace Expr

/-! ### Decided joins -/

/-- A join of which some operand decides the connective under every assignment is the
annihilator. -/
theorem join_eq_annihilator (hes : ∀ e ∈ es, e.Settled)
    (hdecided : ∀ assignment, ∃ e ∈ es, op.decides (e.holds assignment) = true) :
    standard.join .evaluated op es = .truth op.annihilator := by
  have hevaluated : (standard.join .evaluated op es).Evaluated := by
    rw [evaluating_standard.join_evaluated]
    exact evaluated_combine (List.forall_mem_map.mpr fun e he ↦ (hes e he).evaluated_eval)
  refine hevaluated.eq_truth fun assignment ↦ ?_
  apply @Connective.decides_injective op
  rw [holds_built_join faithful_standard .evaluated .raw, Connective.decides_join,
    Connective.decides_annihilator]
  exact List.any_eq_true.mpr (hdecided assignment)

/-- Operands that have the value of an expression when they are joined give the annihilator together
with the negation of the expression, wherever it stands among them. -/
theorem join_negation_eq_annihilator (ha : a.Settled) (hes : ∀ e ∈ es, e.Settled)
    (hvalue : ∀ assignment, (join .raw op es).holds assignment = a.holds assignment)
    (hperm : fs.Perm (standard.negation .evaluated a :: es)) :
    standard.join .evaluated op fs = .truth op.annihilator := by
  refine join_eq_annihilator (fun e he ↦ ?_) fun assignment ↦ ?_
  · exact List.forall_mem_cons.mpr ⟨settled_negation .evaluated ha, hes⟩ e (hperm.mem_iff.mp he)
  · suffices hany : ((standard.negation .evaluated a :: es).any fun e ↦
        op.decides (e.holds assignment)) = true by
      obtain ⟨e, he, hdecides⟩ := List.any_eq_true.mp hany
      exact ⟨e, hperm.mem_iff.mpr he, hdecides⟩
    rw [List.any_cons, ← Connective.decides_join .raw, hvalue, holds_negation faithful_standard,
      Connective.decides_not, Bool.not_or_self]

/-! ### Dropped operands -/

theorem join_self (ha : a.Settled) (op : Connective) :
    standard.join .evaluated op [a, a] = a.eval := by
  have hoperands : ∀ e ∈ [a.eval, a.eval], e.Evaluated := by simp [ha.evaluated_eval]
  calc standard.join .evaluated op [a, a]
      = standard.combine op [a.eval, a.eval] := evaluating_standard.join_evaluated op [a, a]
    _ = standard.combine op [a.eval] := combine_eq_of_mem_iff hoperands fun e ↦ by simp
    _ = a.eval := combine_singleton ha.evaluated_eval

theorem join_identity (ha : a.Settled) (op : Connective) :
    standard.join .evaluated op [a, .truth op.identity] = a.eval := by
  have hone : ∀ e ∈ [a.eval], e.Evaluated := List.forall_mem_singleton.mpr ha.evaluated_eval
  have hoperands : ∀ e ∈ [a.eval, .truth op.identity], e.Evaluated :=
    List.forall_mem_cons.mpr ⟨ha.evaluated_eval, List.forall_mem_singleton.mpr (.truth _)⟩
  -- The identity contributes nothing but itself, and that is dropped.
  have hparts : standard.parts op [a.eval, .truth op.identity] = standard.parts op [a.eval] := by
    refine parts_congr hoperands hone fun d hd ↦ ?_
    simp [splice, hd]
  calc standard.join .evaluated op [a, .truth op.identity]
      = standard.combine op [a.eval, .truth op.identity] :=
        evaluating_standard.join_evaluated op [a, .truth op.identity]
    _ = standard.combine op [a.eval] := combine_eq_of_parts_eq hparts
    _ = a.eval := combine_singleton ha.evaluated_eval

theorem join_comm (ha : a.Settled) (hb : b.Settled) (op : Connective) :
    standard.join .evaluated op [a, b] = standard.join .evaluated op [b, a] := by
  have hoperands : ∀ e ∈ [a.eval, b.eval], e.Evaluated := by
    simp [ha.evaluated_eval, hb.evaluated_eval]
  rw [evaluating_standard.join_evaluated, evaluating_standard.join_evaluated]
  exact combine_eq_of_mem_iff hoperands fun e ↦ by simp [or_comm]

/-! ### Negations -/

theorem Evaluated.complement_complement (he : e.Evaluated) :
    standard.complement (standard.complement e) = e := by
  cases he with
  | truth value => exact congrArg Expr.truth (Bool.not_not value)
  | _ => rfl

theorem negation_negation (ha : a.Settled) :
    standard.negation .evaluated (standard.negation .evaluated a) = a.eval := by
  have hcomplement : (standard.complement a.eval).Evaluated :=
    evaluated_complement ha.evaluated_eval
  rw [evaluating_standard.negation_evaluated, evaluating_standard.negation_evaluated,
    hcomplement.eval_eq, ha.evaluated_eval.complement_complement]

/-! ### All laws -/

/-- Boolean laws for expressions that are built by the standard policy, with all further nodes built
evaluated. An operand joined with itself or with the identity gives its evaluated form. Joined with
the annihilator or with its negation it gives the annihilator, also when it is a join of the
connective and its own operands stand next to its negation, in whatever order. Two operands may
change places, and a double negation gives the evaluated form. -/
theorem boolean_laws (ha : a.Built) (hb : b.Built) (op : Connective) :
    standard.join .evaluated op [a, a] = a.eval ∧
      standard.join .evaluated op [a, .truth op.identity] = a.eval ∧
      standard.join .evaluated op [a, .truth op.annihilator] = .truth op.annihilator ∧
      standard.join .evaluated op [a, standard.negation .evaluated a] = .truth op.annihilator ∧
      (∀ mode es, a = .join mode op es → ∀ fs : List Expr,
        fs.Perm (standard.negation .evaluated a :: es) →
          standard.join .evaluated op fs = .truth op.annihilator) ∧
      standard.join .evaluated op [a, b] = standard.join .evaluated op [b, a] ∧
      standard.negation .evaluated (standard.negation .evaluated a) = a.eval := by
  have hsettled := ha.settled
  refine ⟨join_self hsettled op, join_identity hsettled op, ?_, ?_, ?_,
    join_comm hsettled hb.settled op, negation_negation hsettled⟩
  · refine join_eq_annihilator ?_ fun _ ↦ ⟨.truth op.annihilator, ?_, ?_⟩
    · exact List.forall_mem_cons.mpr
        ⟨hsettled, List.forall_mem_singleton.mpr (.evaluated (.truth _))⟩
    · exact List.mem_cons_of_mem _ (List.mem_singleton_self _)
    · rw [holds_truth, Connective.decides_annihilator]
  · refine join_negation_eq_annihilator hsettled (List.forall_mem_singleton.mpr hsettled)
      (fun assignment ↦ ?_) (.swap _ _ [])
    cases op <;> simp
  · rintro mode es rfl fs hperm
    have hes : ∀ e ∈ es, e.Settled := fun e he ↦ hsettled.of_mem_operands he
    refine join_negation_eq_annihilator hsettled hes (fun assignment ↦ ?_) hperm
    cases op <;> simp

/-- The laws for the written choice between two symbols. Its operands next to its negation give the
annihilator, although no two of them are opposite. -/
theorem boolean_laws_writtenChoice : writtenChoice.Built ∧ evaluatedChoice.Built ∧
    standard.join .evaluated .and [writtenChoice, writtenChoice] = evaluatedChoice ∧
      standard.join .evaluated .or (standard.negation .evaluated writtenChoice ::
        writtenChoice.operands) = .truth true ∧
      standard.join .evaluated .or [writtenChoice, evaluatedChoice] =
        standard.join .evaluated .or [evaluatedChoice, writtenChoice] ∧
      standard.negation .evaluated (standard.negation .evaluated writtenChoice) =
        evaluatedChoice := by
  have heval : writtenChoice.eval = evaluatedChoice := by cbv
  have hevaluated : evaluatedChoice.Built :=
    (heval ▸ built_writtenChoice.settled.evaluated_eval).built
  obtain ⟨hself, -⟩ := boolean_laws built_writtenChoice hevaluated .and
  obtain ⟨-, -, -, -, hoperands, hcomm, hnegation⟩ :=
    boolean_laws built_writtenChoice hevaluated .or
  exact ⟨built_writtenChoice, hevaluated, hself.trans heval, hoperands .raw _ rfl _ (.refl _),
    hcomm, hnegation.trans heval⟩

end Expr

end SwitchingAlgebra
