import Mathlib
import SwitchingAlgebra.Proofs.OperandOrder
import SwitchingAlgebra.Proofs.Reachable
import SwitchingAlgebra.Proofs.TransformationSequences

/-!
# What distribution ends with

Distribution joins every choice of alternatives, goes on in what has become of it, and joins the
results with the dual connective. A join is evaluated to a two-level form of its connective, or a
single operand is left of it, which is then the result as it stands.

A join in two-level form is distributed to a two-level form of the dual connective, since its
choices are choices of literals. A choice of which one operand is left is another matter. That
operand may be the negation of a join, in which there is nothing to distribute, or a join of the
dual connective, in which distribution starts again in the opposite direction. If the same operand
is left of every choice that does not vanish, the join collapses to it.

Whether it does can be seen before anything is distributed: an operand is left alone exactly if all
operands of the choice are evaluated to it or to the identity (`join_choice_eq_iff`), and a
choice vanishes exactly if its operands have the function of the annihilator
(`distribute_choice_eq_identity_iff`). If the join does not collapse, it is distributed to a
two-level form, since different expressions that turn back are distributed to different results, of
which none is left alone.

Main statement: a join that is built by the standard policy and has an operand of the dual
connective is distributed to a two-level form of the dual connective or to the negated join that it
collapses to (`distribute_spec`).
-/

set_option autoImplicit false
set_option relaxedAutoImplicit false

namespace SwitchingAlgebra.Expr

open Policy

variable {op : Connective} {mode : Mode} {d e : Expr} {es fs : List Expr} {depth : Nat}

/-! ### Two-level forms -/

/-- A two-level form with the connective on the outside: a constant, a clause, or a join of two or
more clauses. -/
inductive InTwoLevelForm (op : Connective) : Expr → Prop
  | truth (value : Bool) : InTwoLevelForm op (.truth value)
  | clause {e : Expr} (he : IsClause op e) : InTwoLevelForm op e
  | join {es : List Expr} (hes : IsTwoLevel op es) : InTwoLevelForm op (.join .evaluated op es)

/-- No join of the connective in the expression has an operand of the dual connective. -/
def IsDistributed (op : Connective) (e : Expr) : Prop :=
  ∀ mode es, (Expr.join mode op es).IsNode e → ∀ d ∈ es, d.connective? ≠ some op.dual

theorem inTwoLevelForm_minimize (op : Connective) (es : List Expr) :
    InTwoLevelForm op (standard.minimize op es) := by
  rcases minimize_cases op es with ⟨value, htruth⟩ | hclause | ⟨fs, hjoin, -⟩
  · rw [htruth]
    exact .truth value
  · exact .clause hclause
  · rw [hjoin]
    exact .join (isMinimum_of_minimize_eq hjoin).isTwoLevel

theorem IsEvaluatedLiteral.inTwoLevelForm (he : e.IsEvaluatedLiteral) : InTwoLevelForm op e := by
  obtain ⟨s, positive, rfl⟩ := he
  exact .clause (.literal s positive)

theorem InTwoLevelForm.of_mem_operands (he : InTwoLevelForm op e) (hd : d ∈ e.operands) :
    InTwoLevelForm op d := by
  cases he with
  | truth value => cases hd
  | join hes => exact .clause (hes.isClause d hd)
  | clause he =>
    cases he with
    | literal s positive =>
      cases positive with
      | true => cases hd
      | false =>
        rw [List.mem_singleton.mp hd]
        exact .clause (.literal s true)
    | join =>
      obtain ⟨l, -, rfl⟩ := mem_literalsOf.mp hd
      exact .clause (.literal l.symbol l.positive)

/-- No join is negated in a two-level form. -/
theorem InTwoLevelForm.ne_not_join (he : InTwoLevelForm op e) (mode mode' : Mode)
    (child : Connective) (es : List Expr) : e ≠ .not mode (.join mode' child es) := by
  rintro rfl
  generalize hnot : Expr.not mode (.join mode' child es) = e at he
  cases he with
  | truth value => cases hnot
  | join => cases hnot
  | clause he =>
    cases he with
    | literal s positive => cases positive <;> cases hnot
    | join => cases hnot

/-- In a two-level form the joins of the inner connective have none but literals. -/
theorem InTwoLevelForm.connective?_eq_none {child : Connective}
    (he : InTwoLevelForm op (.join mode child es)) (hchild : child ≠ op) (hd : d ∈ es) :
    d.connective? = none := by
  generalize hjoin : Expr.join mode child es = e at he
  cases he with
  | truth value => cases hjoin
  | join => exact absurd (Expr.join.inj hjoin).2.1 hchild
  | clause he =>
    subst hjoin
    exact (he.isEvaluatedLiteral_of_mem hd).connective?_eq_none

/-- So nothing is left to distribute in a two-level form of the dual connective. -/
theorem InTwoLevelForm.isDistributed (he : InTwoLevelForm op.dual e) : e.IsDistributed op := by
  intro mode es hnode d hd
  have hjoin := hnode.inherits InTwoLevelForm.of_mem_operands he
  rw [hjoin.connective?_eq_none op.dual_ne.symm hd]
  nofun

/-- Evaluated operands are combined to a two-level form, unless a single one of them is left. -/
theorem inTwoLevelForm_combine_or_mem (hes : ∀ e ∈ es, e.Evaluated) :
    InTwoLevelForm op (standard.combine op es) ∨ standard.combine op es ∈ es := by
  rcases combine_cases op es with ⟨value, htruth⟩ | hpart | ⟨fs, hminimum⟩
  · rw [htruth]
    exact .inl (.truth value)
  · obtain ⟨e, he, hspliced⟩ := exists_mem_splice_of_mem_parts hpart
    rcases (hes e he).isMinimum_or_splice_eq op with ⟨fs, rfl, hfs⟩ | hsplice
    · rw [splice, if_pos rfl] at hspliced
      exact .inl (.clause (hfs.spec.2.2 _ hspliced))
    · rw [hsplice, List.mem_singleton] at hspliced
      exact .inr (hspliced ▸ he)
  · rw [hminimum]
    exact .inl (inTwoLevelForm_minimize op fs)

/-! ### Distribution of evaluated expressions -/

theorem distributeWithin_eq_of_forall {p : Policy} (hes : ∀ e ∈ es, e.connective? ≠ some op.dual) :
    p.distributeWithin depth (.join mode op es) = .join mode op es := by
  cases depth with
  | zero => rfl
  | succ depth =>
    have hnone : ¬ es.any (fun e ↦ e.connective? == some op.dual) = true := by
      simpa using hes
    rw [distributeWithin, if_neg hnone]

theorem IsClause.distributeWithin_eq (p : Policy) (depth : Nat) (he : IsClause op e) :
    p.distributeWithin depth e = e := by
  cases e with
  | truth value => exact distributeWithin_truth p depth value
  | symbol name => exact distributeWithin_symbol p depth name
  | not mode operand => exact distributeWithin_not p depth mode operand
  | join mode child es =>
    refine distributeWithin_eq_of_forall fun d hd ↦ ?_
    rw [(he.isEvaluatedLiteral_of_mem hd).connective?_eq_none]
    nofun

theorem Evaluated.distributeWithin (he : e.Evaluated) (depth : Nat) :
    (standard.distributeWithin depth e).Evaluated := by
  have hkeeps := evaluating_standard.keeps_settled
  cases depth with
  | zero => exact he
  | succ depth =>
    cases e with
    | join mode op es =>
      rw [Policy.distributeWithin]
      split_ifs
      · refine evaluated_join evaluating_standard (List.forall_mem_map.mpr fun choice hchoice ↦ ?_)
        exact hkeeps.distributeWithin depth
          (hkeeps.join .evaluated op (hkeeps.of_mem_choices (.evaluated he) hchoice))
      · exact he
    | _ => exact he

/-- What has become of a choice of alternatives is evaluated. -/
theorem evaluated_join_choice (he : (Expr.join mode op es).Settled) {choice : List Expr}
    (hchoice : choice ∈ choices (es.map (alternatives op.dual))) :
    (standard.join .evaluated op choice).Evaluated :=
  evaluated_join evaluating_standard
    (evaluating_standard.keeps_settled.of_mem_choices he hchoice)

theorem evaluated_distributed_choices (he : (Expr.join mode op es).Settled) (depth : Nat) :
    ∀ t ∈ (choices (es.map (alternatives op.dual))).map fun choice ↦
      standard.distributeWithin depth (standard.join .evaluated op choice), t.Evaluated :=
  List.forall_mem_map.mpr fun _ hchoice ↦ (evaluated_join_choice he hchoice).distributeWithin depth

/-- What has become of the choices is combined with the dual connective. -/
theorem distributeWithin_succ_join (he : (Expr.join mode op es).Settled)
    (hdual : ∃ e ∈ es, e.connective? = some op.dual) (depth : Nat) :
    standard.distributeWithin (depth + 1) (.join mode op es) = standard.combine op.dual
      ((choices (es.map (alternatives op.dual))).map fun choice ↦
        standard.distributeWithin depth (standard.join .evaluated op choice)) := by
  have hany : es.any (fun e ↦ e.connective? == some op.dual) = true := by simpa using hdual
  rw [Policy.distributeWithin, if_pos hany, evaluating_standard.join_evaluated,
    map_eval_eq (evaluated_distributed_choices he depth)]

/-- Distribution ends with a two-level form of the dual connective, unless what a single choice has
become is left. -/
theorem inTwoLevelForm_distributeWithin_or_choice (he : (Expr.join mode op es).Settled)
    (hdual : ∃ e ∈ es, e.connective? = some op.dual) (depth : Nat) :
    InTwoLevelForm op.dual (standard.distributeWithin (depth + 1) (.join mode op es)) ∨
      ∃ choice ∈ choices (es.map (alternatives op.dual)),
        standard.distributeWithin (depth + 1) (.join mode op es) =
          standard.distributeWithin depth (standard.join .evaluated op choice) := by
  rw [distributeWithin_succ_join he hdual]
  refine (inTwoLevelForm_combine_or_mem (evaluated_distributed_choices he depth)).imp_right
    fun hmem ↦ ?_
  obtain ⟨choice, hchoice, heq⟩ := List.mem_map.mp hmem
  exact ⟨choice, hchoice, heq.symm⟩

/-- Evaluated literals are joined to what distribution leaves as it is. -/
theorem inTwoLevelForm_distributeWithin_join (hes : ∀ e ∈ es, e.IsEvaluatedLiteral) (depth : Nat) :
    InTwoLevelForm op.dual (standard.distributeWithin depth (standard.join .evaluated op es)) := by
  rcases @join_literals_cases standard op es evaluating_standard hes with ⟨value, htruth⟩ | hclause
  · rw [htruth, distributeWithin_truth]
    exact .truth value
  · rw [hclause.distributeWithin_eq]
    exact .clause hclause

/-- A join in two-level form is distributed to a two-level form of the dual connective. -/
theorem IsMinimum.inTwoLevelForm_distributeWithin (hes : IsMinimum op es) (depth : Nat) :
    InTwoLevelForm op.dual (standard.distributeWithin (depth + 1) (.join .evaluated op es)) := by
  by_cases hdual : ∃ e ∈ es, e.connective? = some op.dual
  · rcases inTwoLevelForm_distributeWithin_or_choice (.evaluated (.join hes)) hdual depth with
      hform | ⟨choice, hchoice, heq⟩
    · exact hform
    · rw [heq]
      exact inTwoLevelForm_distributeWithin_join
        (fun d hd ↦ hes.isEvaluatedLiteral_of_mem_choice hchoice hd) depth
  · -- All operands are literals, so the join is a clause.
    have hliterals : ∀ e ∈ es, e.IsEvaluatedLiteral := by
      intro e he
      cases hes.spec.2.2 e he with
      | literal s positive => exact ⟨s, positive, rfl⟩
      | join => exact absurd ⟨_, he, rfl⟩ hdual
    have hjoin : standard.join .evaluated op es = .join .evaluated op es := by
      rw [evaluating_standard.join_evaluated, map_eval_eq fun e he ↦ (hliterals e he).evaluated,
        combine_of_isMinimum hes]
    rw [← hjoin]
    exact inTwoLevelForm_distributeWithin_join hliterals (depth + 1)

/-- An evaluated expression is distributed alike at every sufficient depth. -/
theorem Evaluated.distributeWithin_eq_distribute (he : e.Evaluated) (hdepth : 2 ≤ depth) :
    standard.distributeWithin depth e = standard.distribute e := by
  have hregular : standard.Regular := regular_of_mem (by simp)
  have hends := he.endsWithin_distribution evaluating_standard
  have hat : ∀ {more : Nat}, 2 ≤ more →
      some (standard.distributeWithin more e) = some (standard.distributeWithin 2 e) := by
    intro more hmore
    rw [← hregular.distributeUpTo_eq le_rfl hends hmore,
      hregular.distributeUpTo_eq le_rfl (hends.mono hmore) le_rfl]
  have henough : 2 ≤ distributionDepth e := by
    rw [distributionDepth]
    omega
  exact Option.some.inj ((hat hdepth).trans (hat henough).symm)

/-! ### What turns back -/

/-- A negated join, in which nothing is distributed. -/
def IsNegatedJoin (e : Expr) : Prop :=
  ∃ inner es, e = .not .evaluated (.join .evaluated inner es)

/-- A join of the dual connective that is itself distributed, in the opposite direction. -/
def IsReversed (op : Connective) (e : Expr) : Prop :=
  ∃ es, e = .join .evaluated op.dual es ∧ ∃ d ∈ es, d.connective? = some op

/-- An evaluated expression that is not distributed to a two-level form of the dual connective. -/
def TurnsBack (op : Connective) (e : Expr) : Prop :=
  e.IsNegatedJoin ∨ e.IsReversed op

/-- Any other evaluated expression is distributed to a two-level form of the dual connective. -/
theorem Evaluated.inTwoLevelForm_distribute_or (he : e.Evaluated) (op : Connective) :
    InTwoLevelForm op.dual (standard.distribute e) ∨ e.TurnsBack op := by
  cases he with
  | truth value => exact .inl (.truth value)
  | symbol name => exact .inl (.clause (.literal name true))
  | notSymbol name => exact .inl (.clause (.literal name false))
  | notJoin => exact .inr (.inl ⟨_, _, rfl⟩)
  | @join child es hes =>
    rcases Connective.eq_or_eq_dual op child with rfl | rfl
    · exact .inl (hes.inTwoLevelForm_distributeWithin _)
    · by_cases hdual : ∃ d ∈ es, d.connective? = some op
      · exact .inr (.inr ⟨es, rfl, hdual⟩)
      · refine .inl ?_
        rw [distribute, distributeWithin_eq_of_forall]
        · exact .join hes.isTwoLevel
        · rw [op.dual_dual]
          exact fun d hd heq ↦ hdual ⟨d, hd, heq⟩

/-- An expression in two-level form is not one of these. -/
theorem InTwoLevelForm.not_turnsBack (he : InTwoLevelForm op e) : ¬ e.TurnsBack op := by
  rintro (⟨inner, es, rfl⟩ | ⟨es, rfl, d, hd, hop⟩)
  · exact he.ne_not_join .evaluated .evaluated inner es rfl
  · rw [he.connective?_eq_none op.dual_ne hd] at hop
    cases hop

theorem IsNegatedJoin.distribute_eq (he : e.IsNegatedJoin) : standard.distribute e = e := by
  obtain ⟨inner, es, rfl⟩ := he
  exact distributeWithin_not _ _ _ _

theorem IsNegatedJoin.not_inTwoLevelForm (he : e.IsNegatedJoin) : ¬ InTwoLevelForm op e := by
  obtain ⟨inner, es, rfl⟩ := he
  exact fun hform ↦ hform.ne_not_join _ _ _ _ rfl

theorem IsReversed.inTwoLevelForm_distribute (he : e.Evaluated) (hreversed : e.IsReversed op) :
    InTwoLevelForm op (standard.distribute e) := by
  obtain ⟨es, rfl, -⟩ := hreversed
  have hes : IsMinimum op.dual es := isMinimum_of_settled_evaluated (.evaluated he)
  have hback : InTwoLevelForm op.dual.dual (standard.distribute (.join .evaluated op.dual es)) :=
    hes.inTwoLevelForm_distributeWithin _
  rwa [op.dual_dual] at hback

theorem holds_distribute (e : Expr) (assignment : Symbol → Bool) :
    (standard.distribute e).holds assignment = e.holds assignment :=
  holds_distributeWithin faithful_standard _ _

theorem IsClause.exists_term (he : IsClause op e) :
    ∃ t : Term, t.Increasing ∧ e = standard.term op (standard.literalsOf t) := by
  cases he with
  | literal s positive => exact ⟨[⟨s, positive⟩], Term.increasing_singleton _, rfl⟩
  | @join t ht hlength =>
    obtain ⟨l, m, rest, rfl⟩ := exists_eq_cons_cons hlength
    exact ⟨l :: m :: rest, ht, rfl⟩

theorem decision_term (t : Term) (assignment : Symbol → Bool) :
    (standard.term op (standard.literalsOf t)).decision op assignment =
      t.holds assignment .and := by
  rw [decision, decides_term faithful_standard, literalsOf, List.all_map, Term.holds]
  congr 1
  ext l
  rw [Function.comp_apply, holds_literal, Connective.decides_holds, Connective.orient_orient]

/-- A minimum two-level form does not have the function of a clause, which would be its only prime
term. -/
theorem IsMinimum.not_clause (hes : IsMinimum op es) (he : IsClause op e) :
    ¬ ∀ assignment, (Expr.join .evaluated op es).holds assignment = e.holds assignment := by
  intro hsame
  obtain ⟨u, hu, rfl⟩ := he.exists_term
  have hvalue : ∀ assignment,
      (Expr.join .evaluated op es).decision op assignment = u.holds assignment .and := by
    intro assignment
    rw [← @decision_term op, decision, decision, hsame]
  have hall : ∀ d ∈ es, d = standard.term op (standard.literalsOf u) := by
    intro d hd
    obtain ⟨t, ht, rfl⟩ := hes.mem_iff.mp hd
    have hprime := isPrime_of_mem_minimumTerms .evaluated ht
    rw [hprime.2 u ⟨hu, fun assignment hholds ↦ (hvalue assignment).trans hholds⟩
      fun assignment hholds ↦ (hvalue assignment).symm.trans (hprime.1.2 assignment hholds)]
  -- But the operands are different from one another.
  obtain ⟨d, d', rest, rfl⟩ := exists_eq_cons_cons hes.spec.1
  have hlt := List.rel_of_pairwise_cons hes.spec.2.1 List.mem_cons_self
  rw [hall d List.mem_cons_self, hall d' (List.mem_cons_of_mem _ List.mem_cons_self)] at hlt
  exact asymm_of_orientedCmp _ _ hlt hlt

/-- Minimum two-level forms of one function are equal. -/
theorem IsMinimum.eq_of_holds_eq (hes : IsMinimum op es) (hfs : IsMinimum op fs)
    (hsame : ∀ assignment, (Expr.join .evaluated op es).holds assignment =
      (Expr.join .evaluated op fs).holds assignment) : es = fs := by
  have hminimize : standard.minimize op es = standard.minimize op fs :=
    minimize_eq_of_holds_eq fun assignment ↦ by cases op <;> simpa using hsame assignment
  exact (Expr.join.inj (hes.symm.trans (hminimize.trans hfs))).2.2

/-- What turns back is not distributed to a two-level form of the dual connective. -/
theorem Evaluated.not_inTwoLevelForm_distribute (he : e.Evaluated) (hturns : e.TurnsBack op) :
    ¬ InTwoLevelForm op.dual (standard.distribute e) := by
  intro hform
  rcases hturns with hnegated | hreversed
  · rw [hnegated.distribute_eq] at hform
    exact hnegated.not_inTwoLevelForm hform
  · have hback : InTwoLevelForm op (standard.distribute e) := hreversed.inTwoLevelForm_distribute he
    have hevaluated : (standard.distribute e).Evaluated := he.distributeWithin _
    have hsame := fun assignment ↦ (holds_distribute e assignment).symm
    obtain ⟨es, rfl, d, hd, hop⟩ := hreversed
    have hes : IsMinimum op.dual es := isMinimum_of_settled_evaluated (.evaluated he)
    generalize standard.distribute (.join .evaluated op.dual es) = r at hform hback hevaluated hsame
    cases hform with
    | truth value => exact hes.not_constant value hsame
    | clause hclause => exact hes.not_clause hclause hsame
    | @join fs _ =>
      -- The result would be the join itself, and yet have no operand that is a join.
      have hfs : IsMinimum op.dual fs := isMinimum_of_settled_evaluated (.evaluated hevaluated)
      rw [hes.eq_of_holds_eq hfs hsame] at hd
      rw [hback.connective?_eq_none op.dual_ne hd] at hop
      cases hop

/-- Expressions that turn back are distributed to different results. -/
theorem TurnsBack.eq_of_distribute_eq {x y : Expr} (hx : x.Evaluated) (hy : y.Evaluated)
    (hxturns : x.TurnsBack op) (hyturns : y.TurnsBack op)
    (hequal : standard.distribute x = standard.distribute y) : x = y := by
  rcases hxturns with hxnegated | hxreversed <;> rcases hyturns with hynegated | hyreversed
  · rwa [hxnegated.distribute_eq, hynegated.distribute_eq] at hequal
  · have hback := hyreversed.inTwoLevelForm_distribute hy
    rw [← hequal, hxnegated.distribute_eq] at hback
    exact absurd hback hxnegated.not_inTwoLevelForm
  · have hback := hxreversed.inTwoLevelForm_distribute hx
    rw [hequal, hynegated.distribute_eq] at hback
    exact absurd hback hynegated.not_inTwoLevelForm
  · obtain ⟨es, rfl, -⟩ := hxreversed
    obtain ⟨fs, rfl, -⟩ := hyreversed
    have hes : IsMinimum op.dual es := isMinimum_of_settled_evaluated (.evaluated hx)
    have hfs : IsMinimum op.dual fs := isMinimum_of_settled_evaluated (.evaluated hy)
    rw [hes.eq_of_holds_eq hfs fun assignment ↦ by
      rw [← holds_distribute, hequal, holds_distribute]]

/-- The alternatives in an evaluated join are literals, which do not turn back. -/
theorem mode_eq_raw_of_turnsBack (he : (Expr.join mode op es).Settled)
    (hd : d ∈ es.flatMap (alternatives op.dual)) (hturns : d.eval.TurnsBack op) : mode = .raw := by
  cases mode with
  | raw => rfl
  | evaluated =>
    obtain ⟨clause, hclause, hd⟩ := List.mem_flatMap.mp hd
    have hliteral : d.IsEvaluatedLiteral :=
      ((isMinimum_of_settled_evaluated he).spec.2.2 clause hclause).isEvaluatedLiteral hd
    rw [hliteral.evaluated.eval_eq] at hturns
    exact absurd hturns hliteral.inTwoLevelForm.not_turnsBack

/-! ### Operands of which one is left -/

/-- A single evaluated expression is left of operands of the connective: they come to it or to the
identity. -/
structure LeavesOnly (op : Connective) (es : List Expr) (x : Expr) : Prop where
  exists_eval_eq : ∃ d ∈ es, d.eval = x
  eval_eq_or : ∀ d ∈ es, d.eval = x ∨ d.eval = .truth op.identity

/-- Nothing is left of operands of the connective: under every assignment some of them are the
annihilator. -/
def Vanishes (op : Connective) (es : List Expr) : Prop :=
  ∀ assignment, ∃ d ∈ es, d.holds assignment = op.annihilator

/-- Evaluated operands come to an expression that is not in two-level form when they are this
expression and the identity. -/
theorem combine_eq_iff {x : Expr} (hes : ∀ e ∈ es, e.Evaluated) (hx : ¬ InTwoLevelForm op x) :
    standard.combine op es = x ↔ x ∈ es ∧ ∀ e ∈ es, e = x ∨ e = .truth op.identity := by
  constructor
  · intro hcombine
    have hone : (standard.parts op es).length = 1 := by
      by_contra hlength
      rw [combine_eq_minimize_of_length_ne hlength] at hcombine
      exact hx (hcombine ▸ inTwoLevelForm_minimize op es)
    obtain ⟨d, hparts⟩ := List.length_eq_one_iff.mp hone
    rw [combine_of_parts_eq_singleton hparts] at hcombine
    subst hcombine
    obtain ⟨hmem, -, -, hall⟩ := (parts_eq_singleton_iff hes).mp hparts
    exact ⟨hmem, hall⟩
  · rintro ⟨hmem, hall⟩
    refine combine_of_parts_eq_singleton ((parts_eq_singleton_iff hes).mpr ⟨hmem, ?_, ?_, hall⟩)
    · rcases (hes x hmem).isMinimum_or_splice_eq op with ⟨fs, rfl, hfs⟩ | hsplice
      · exact absurd (.join hfs.isTwoLevel) hx
      · exact hsplice
    · rintro rfl
      exact hx (.truth _)

/-- A choice comes to an expression that turns back when nothing else is left of it. -/
theorem join_choice_eq_iff {x : Expr} {choice : List Expr} (he : (Expr.join mode op es).Settled)
    (hchoice : choice ∈ choices (es.map (alternatives op.dual))) (hturns : x.TurnsBack op) :
    standard.join .evaluated op choice = x ↔ LeavesOnly op choice x := by
  have hsettled := evaluating_standard.keeps_settled.of_mem_choices he hchoice
  rw [evaluating_standard.join_evaluated,
    combine_eq_iff (List.forall_mem_map.mpr fun d hd ↦ (hsettled d hd).evaluated_eval)
      fun hform ↦ hform.not_turnsBack hturns, List.mem_map, List.forall_mem_map]
  exact ⟨fun hleft ↦ ⟨hleft.1, hleft.2⟩, fun hleft ↦ ⟨hleft.1, hleft.2⟩⟩

/-- A choice that vanishes, and no other, comes to the identity of the dual connective. -/
theorem distribute_choice_eq_identity_iff (he : (Expr.join mode op es).Settled)
    {choice : List Expr} (hchoice : choice ∈ choices (es.map (alternatives op.dual))) :
    standard.distribute (standard.join .evaluated op choice) = .truth op.dual.identity ↔
      Vanishes op choice := by
  have hholds : ∀ assignment,
      (standard.distribute (standard.join .evaluated op choice)).holds assignment =
          op.dual.identity ↔ ∃ d ∈ choice, d.holds assignment = op.annihilator := by
    intro assignment
    rw [holds_distribute, holds_built_join faithful_standard .evaluated .raw,
      Connective.identity_dual, ← Connective.annihilator, ← beq_iff_eq, ← Connective.decides,
      Connective.decides_join, List.any_eq_true]
    simp only [Connective.decides, beq_iff_eq]
  constructor
  · intro hidentity assignment
    rw [← hholds, hidentity, holds_truth]
  · intro hvanishes
    exact ((evaluated_join_choice he hchoice).distributeWithin _).eq_truth fun assignment ↦
      (hholds assignment).mpr (hvanishes assignment)

/-! ### What distribution ends with -/

/-- A join is distributed to an expression that is not in two-level form when this is all that is
left of what has become of the choices. -/
theorem distribute_eq_iff {x : Expr} (he : (Expr.join mode op es).Settled)
    (hdual : ∃ e ∈ es, e.connective? = some op.dual) (hx : ¬ InTwoLevelForm op.dual x) :
    standard.distribute (.join mode op es) = x ↔
      (∃ choice ∈ choices (es.map (alternatives op.dual)),
        standard.distribute (standard.join .evaluated op choice) = x) ∧
      ∀ choice ∈ choices (es.map (alternatives op.dual)),
        standard.distribute (standard.join .evaluated op choice) = x ∨ Vanishes op choice := by
  obtain ⟨depth, hdepth⟩ : ∃ depth, distributionDepth (.join mode op es) = depth + 3 :=
    ⟨(Expr.join mode op es).size + 1, rfl⟩
  have hsame : ∀ choice ∈ choices (es.map (alternatives op.dual)),
      standard.distributeWithin (depth + 2) (standard.join .evaluated op choice) =
        standard.distribute (standard.join .evaluated op choice) := fun choice hchoice ↦
    (evaluated_join_choice he hchoice).distributeWithin_eq_distribute (Nat.le_add_left 2 depth)
  rw [distribute, hdepth, distributeWithin_succ_join he hdual,
    combine_eq_iff (evaluated_distributed_choices he _) hx, List.mem_map, List.forall_mem_map]
  refine and_congr (exists_congr fun choice ↦ and_congr_right fun hchoice ↦ ?_)
    (forall₂_congr fun choice hchoice ↦ ?_)
  · rw [hsame choice hchoice]
  · rw [hsame choice hchoice, distribute_choice_eq_identity_iff he hchoice]

/-- A join collapses to an evaluated expression when this is all that is left of one or more of the
choices and the others vanish. -/
structure CollapsesTo (op : Connective) (es : List Expr) (x : Expr) : Prop where
  exists_choice : ∃ choice ∈ choices (es.map (alternatives op.dual)), LeavesOnly op choice x
  forall_choice : ∀ choice ∈ choices (es.map (alternatives op.dual)),
    LeavesOnly op choice x ∨ Vanishes op choice

section Collapse

variable {x : Expr}

/-- A join collapses to what an alternative is evaluated to. -/
theorem CollapsesTo.exists_alternative (hcollapses : CollapsesTo op es x) :
    ∃ d ∈ es.flatMap (alternatives op.dual), d.eval = x := by
  obtain ⟨choice, hchoice, ⟨d, hd, heval⟩, -⟩ := hcollapses.exists_choice
  obtain ⟨_, halternatives, hmem⟩ := exists_mem_of_mem_choices hchoice hd
  obtain ⟨operand, hoperand, rfl⟩ := List.mem_map.mp halternatives
  exact ⟨d, List.mem_flatMap.mpr ⟨operand, hoperand, hmem⟩, heval⟩

theorem CollapsesTo.evaluated (he : (Expr.join mode op es).Settled)
    (hcollapses : CollapsesTo op es x) : x.Evaluated := by
  obtain ⟨choice, hchoice, ⟨d, hd, rfl⟩, -⟩ := hcollapses.exists_choice
  exact (evaluating_standard.keeps_settled.of_mem_choices he hchoice d hd).evaluated_eval

/-- A join that collapses to an expression that turns back is distributed to what this expression is
distributed to. -/
theorem CollapsesTo.distribute_eq (he : (Expr.join mode op es).Settled)
    (hdual : ∃ e ∈ es, e.connective? = some op.dual) (hcollapses : CollapsesTo op es x)
    (hturns : x.TurnsBack op) :
    standard.distribute (.join mode op es) = standard.distribute x := by
  have hleft : ∀ choice ∈ choices (es.map (alternatives op.dual)), LeavesOnly op choice x →
      standard.join .evaluated op choice = x := fun choice hchoice ↦
    (join_choice_eq_iff he hchoice hturns).mpr
  refine (distribute_eq_iff he hdual
    ((hcollapses.evaluated he).not_inTwoLevelForm_distribute hturns)).mpr ⟨?_, ?_⟩
  · obtain ⟨choice, hchoice, honly⟩ := hcollapses.exists_choice
    exact ⟨choice, hchoice, by rw [hleft choice hchoice honly]⟩
  · intro choice hchoice
    refine (hcollapses.forall_choice choice hchoice).imp_left fun honly ↦ ?_
    rw [hleft choice hchoice honly]

/-- A join that is not distributed to a two-level form of the dual connective collapses to an
expression that turns back. -/
theorem exists_collapsesTo (he : (Expr.join mode op es).Settled)
    (hdual : ∃ e ∈ es, e.connective? = some op.dual)
    (hform : ¬ InTwoLevelForm op.dual (standard.distribute (.join mode op es))) :
    ∃ x, x.TurnsBack op ∧ CollapsesTo op es x := by
  obtain ⟨⟨choice, hchoice, hequal⟩, hall⟩ := (distribute_eq_iff he hdual hform).mp rfl
  generalize standard.distribute (.join mode op es) = result at hform hequal hall
  have hturns : ∀ other ∈ choices (es.map (alternatives op.dual)),
      standard.distribute (standard.join .evaluated op other) = result →
        (standard.join .evaluated op other).TurnsBack op := by
    rintro other hother rfl
    exact ((evaluated_join_choice he hother).inTwoLevelForm_distribute_or op).resolve_left hform
  have hchosen := hturns choice hchoice hequal
  refine ⟨_, hchosen, ⟨choice, hchoice, (join_choice_eq_iff he hchoice hchosen).mp rfl⟩,
    fun other hother ↦ (hall other hother).imp_left fun hresult ↦ ?_⟩
  refine (join_choice_eq_iff he hother hchosen).mp ?_
  exact (hturns other hother hresult).eq_of_distribute_eq (evaluated_join_choice he hother)
    (evaluated_join_choice he hchoice) hchosen (hresult.trans hequal.symm)

end Collapse

/-- A join with an operand of the dual connective is distributed to a two-level form of the dual
connective, in which no join of its own connective has an operand of the dual one. The exception is
a join that collapses to a negated join: it is distributed to that one as it stands, and no other
join is distributed to a negated join. Left out are joins that collapse to a join of the dual
connective over one of their own. Evaluated joins collapse in neither of these ways. -/
theorem distribute_spec (he : (Expr.join mode op es).Built)
    (hdual : ∃ e ∈ es, e.connective? = some op.dual) :
    ((∀ x : Expr, x.IsNegatedJoin ∨ x.IsReversed op → ¬ CollapsesTo op es x) →
      InTwoLevelForm op.dual (standard.distribute (.join mode op es)) ∧
        (standard.distribute (.join mode op es)).IsDistributed op) ∧
    (∀ x : Expr, x.IsNegatedJoin →
      (standard.distribute (.join mode op es) = x ↔ CollapsesTo op es x)) ∧
    (∀ x : Expr, x.IsNegatedJoin ∨ x.IsReversed op → CollapsesTo op es x → mode = .raw) := by
  refine ⟨fun hnot ↦ ?_, fun x hx ↦ ⟨?_, fun hcollapses ↦ ?_⟩, fun x hturns hcollapses ↦ ?_⟩
  · have hform : InTwoLevelForm op.dual (standard.distribute (.join mode op es)) := by
      by_contra hout
      obtain ⟨x, hturns, hcollapses⟩ := exists_collapsesTo he.settled hdual hout
      exact hnot x hturns hcollapses
    exact ⟨hform, hform.isDistributed⟩
  · rintro rfl
    obtain ⟨y, hturns, hcollapses⟩ := exists_collapsesTo he.settled hdual hx.not_inTwoLevelForm
    have hequal := hcollapses.distribute_eq he.settled hdual hturns
    rcases hturns with hnegated | hreversed
    · rw [hequal, hnegated.distribute_eq]
      exact hcollapses
    · have hback := hreversed.inTwoLevelForm_distribute (hcollapses.evaluated he.settled)
      exact absurd (hequal ▸ hback) hx.not_inTwoLevelForm
  · rw [hcollapses.distribute_eq he.settled hdual (.inl hx), hx.distribute_eq]
  · obtain ⟨d, hd, rfl⟩ := hcollapses.exists_alternative
    exact mode_eq_raw_of_turnsBack he.settled hd hturns

/-- A product with a sum, as it is written. -/
def productWithSum : Expr :=
  .join .raw .and [.symbol (.name "a"), .join .raw .or [.symbol (.name "b"), .symbol (.name "c")]]

/-- The product distributed over the sum. -/
def sumOfProducts : Expr :=
  .join .evaluated .or [.join .evaluated .and [.symbol (.name "a"), .symbol (.name "b")],
    .join .evaluated .and [.symbol (.name "a"), .symbol (.name "c")]]

/-- The alternatives in the product are symbols, so it is distributed to a sum of products. -/
theorem distribute_productWithSum : productWithSum.Built ∧
    (∃ e ∈ productWithSum.operands, e.connective? = some Connective.and.dual) ∧
      InTwoLevelForm .or sumOfProducts ∧ sumOfProducts.IsDistributed .and := by
  have hsum : (Expr.join .raw .or [.symbol (.name "b"), .symbol (.name "c")]).Built :=
    .join .raw .or (by simp [Built.symbol])
  have hbuilt : productWithSum.Built := .join .raw .and (by simp [hsum, Built.symbol])
  have hdual : ∃ e ∈ productWithSum.operands, e.connective? = some Connective.and.dual :=
    ⟨_, List.mem_cons_of_mem _ List.mem_cons_self, rfl⟩
  have hdistribute : standard.distribute productWithSum = sumOfProducts := by cbv
  refine ⟨hbuilt, hdual, ?_⟩
  rw [← hdistribute]
  refine (distribute_spec hbuilt hdual).1 fun x hturns hcollapses ↦ ?_
  obtain ⟨d, hd, rfl⟩ := hcollapses.exists_alternative
  have hd : d ∈ ["a", "b", "c"].map fun text ↦ Expr.symbol (.name text) := hd
  obtain ⟨text, -, rfl⟩ := List.mem_map.mp hd
  have hsymbol : (Expr.symbol (.name text)).Evaluated := .symbol _
  rw [hsymbol.eval_eq] at hturns
  exact InTwoLevelForm.not_turnsBack (.clause (.literal (.name text) true)) hturns

/-- A product of true with a sum of false and another expression, as it is written. Nothing but this
expression is left of it. -/
def paddedProduct (e : Expr) : Expr :=
  .join .raw .and [.truth true, .join .raw .or [.truth false, e]]

theorem built_paddedProduct (he : e.Built) : (paddedProduct e).Built := by
  have hsum : (Expr.join .raw .or [.truth false, e]).Built :=
    .join .raw .or (by simp [he, Built.truth])
  exact .join .raw .and (by simp [hsum, Built.truth])

/-- A sum with a product. -/
def sumWithProduct : Expr :=
  .join .raw .or [.symbol (.name "x"),
    .join .raw .and [.symbol (.name "y"), .symbol (.name "z")]]

/-- A negated product. -/
def negatedPair : Expr :=
  .not .raw (.join .raw .and [.symbol (.name "x"), .symbol (.name "y")])

/-- Where a sum with a product is left, it is distributed to a product of sums. Where a negated
product is left, it stays. -/
theorem not_distributed_paddedProduct :
    ((paddedProduct sumWithProduct).Built ∧
      (∃ e ∈ (paddedProduct sumWithProduct).operands, e.connective? = some Connective.and.dual) ∧
        ¬ (standard.distribute (paddedProduct sumWithProduct)).IsDistributed .and) ∧
    (paddedProduct negatedPair).Built ∧
      (∃ e ∈ (paddedProduct negatedPair).operands, e.connective? = some Connective.and.dual) ∧
        ¬ InTwoLevelForm .or (standard.distribute (paddedProduct negatedPair)) := by
  have hpair : ∀ s t : String,
      (Expr.join .raw .and [.symbol (.name s), .symbol (.name t)]).Built := fun s t ↦
    .join .raw .and (by simp [Built.symbol])
  have hsum : sumWithProduct.Built := .join .raw .or (by simp [hpair, Built.symbol])
  have hnegated : negatedPair.Built := (hpair "x" "y").negation .raw
  have hdual : ∀ e : Expr, ∃ d ∈ (paddedProduct e).operands,
      d.connective? = some Connective.and.dual := fun e ↦
    ⟨_, List.mem_cons_of_mem _ List.mem_cons_self, rfl⟩
  refine ⟨⟨built_paddedProduct hsum, hdual _, fun hdistributed ↦ ?_⟩,
    built_paddedProduct hnegated, hdual _, fun hform ↦ ?_⟩
  · have hturned : standard.distribute (paddedProduct sumWithProduct) =
        .join .evaluated .and [
          .join .evaluated .or [.symbol (.name "x"), .symbol (.name "y")],
          .join .evaluated .or [.symbol (.name "x"), .symbol (.name "z")]] := by cbv
    rw [hturned] at hdistributed
    exact hdistributed _ _ .refl _ List.mem_cons_self rfl
  · have hleft : standard.distribute (paddedProduct negatedPair) = .not .evaluated
        (.join .evaluated .and [.symbol (.name "x"), .symbol (.name "y")]) := by cbv
    exact hform.ne_not_join _ _ _ _ hleft

end SwitchingAlgebra.Expr
