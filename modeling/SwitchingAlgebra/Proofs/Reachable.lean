import Mathlib
import SwitchingAlgebra.NormalForm
import SwitchingAlgebra.Substitution
import SwitchingAlgebra.Proofs.KeptByTransformations
import SwitchingAlgebra.Proofs.MinimumTerms
import SwitchingAlgebra.Proofs.RoundTrip

/-!
# What the operations reach

Besides building nodes, expressions come from reading a text, from evaluation, from the
transformations, from normal forms and from substitution. All of these only build nodes by the
standard policy and take operands of what is built, so they reach no other expressions than that
(`reachable_iff_built`).

An evaluated node that is reached in any of these ways is therefore a constant, a symbol, a
two-level form none of whose operands has all literals of another, or the negation of a symbol or of
such a form, and all nodes below it are evaluated (`Reachable.evaluated_nodes`).
-/

set_option autoImplicit false
set_option relaxedAutoImplicit false

namespace SwitchingAlgebra

open Policy

variable {op : Connective} {d e : Expr} {es : List Expr} {m : Substitution}

namespace Expr

/-- An expression that operations under the standard policy reach. The values of a substitution are
reached themselves, its keys are any expressions. -/
inductive Reachable : Expr → Prop
  | truth (value : Bool) : Reachable (.truth value)
  | symbol (name : Symbol) : Reachable (.symbol name)
  | negation (mode : Mode) {e : Expr} (he : Reachable e) : Reachable (standard.negation mode e)
  | join (mode : Mode) (op : Connective) {es : List Expr} (hes : ∀ e ∈ es, Reachable e) :
    Reachable (standard.join mode op es)
  | readRaw {text : String} {e : Expr} (hread : Reading.readRaw text = .ok e) : Reachable e
  | readEvaluated {text : String} {e : Expr} (hread : Reading.readEvaluated text = .ok e) :
    Reachable e
  | eval {e : Expr} (he : Reachable e) : Reachable e.eval
  | cancel {e : Expr} (he : Reachable e) : Reachable (standard.cancel e)
  | deMorgan {e : Expr} (he : Reachable e) : Reachable (standard.deMorgan e)
  | flatten {e : Expr} (he : Reachable e) : Reachable (standard.flatten e)
  | distribute {e : Expr} (he : Reachable e) : Reachable (standard.distribute e)
  | literalize {e : Expr} (he : Reachable e) : Reachable (standard.literalize e)
  | normalForm (op : Connective) {d e : Expr} (he : Reachable e)
    (hd : d ∈ standard.normalForm op e) : Reachable d
  | substitute {m : Substitution} {e : Expr} (hm : ∀ entry ∈ m, Reachable entry.2)
    (he : Reachable e) : Reachable (e.substitute m)
  | operand {d e : Expr} (he : Reachable e) (hd : d ∈ e.operands) : Reachable d

/-! ### Normal forms -/

theorem evaluated_term {t : Term} (ht : t.Increasing) :
    (standard.term op (standard.literalsOf t)).Evaluated := by
  by_cases hnil : t = []
  · rw [hnil]
    exact .truth _
  · have hclause : IsClause op (standard.term op (standard.literalsOf t)) := isClause_term ht hnil
    exact hclause.evaluated

theorem evaluated_of_mem_normalForm (hd : d ∈ standard.normalForm op e) : d.Evaluated := by
  rw [normalForm] at hd
  split at hd
  · rw [List.mem_singleton.mp hd]
    exact .truth _
  · obtain ⟨t, ht, rfl⟩ := List.mem_map.mp (mem_of_mem_sortDistinct hd)
    have hterm : t ∈ Term.distinct (e.terms op false) := List.mem_of_mem_filter ht
    exact evaluated_term (increasing_of_mem_terms e false t (Term.mem_distinct.mp hterm))

/-! ### Substitution -/

theorem exists_entry_of_find? (hfind : m.find? e = some d) : ∃ entry ∈ m, entry.2 = d := by
  obtain ⟨entry, hentry, hvalue⟩ := Option.map_eq_some_iff.mp hfind
  exact ⟨entry, List.mem_reverse.mp (List.mem_of_find?_eq_some hentry), hvalue⟩

/-- A list, whether or not something is replaced in it, has the parts of all its expressions
replaced. -/
theorem getD_replaceAll? (p : Policy) (m : Substitution) (es : List Expr) :
    (p.replaceAll? m es).getD es = es.map (p.substitute m) := by
  induction es with
  | nil => rfl
  | cons e rest ih =>
    rw [replaceAll?, List.map_cons, ← ih, Policy.substitute]
    cases p.replace? m e <;> cases p.replaceAll? m rest <;> rfl

theorem eq_map_of_replaceAll? {p : Policy} {ds : List Expr}
    (hreplace : p.replaceAll? m es = some ds) : ds = es.map (p.substitute m) := by
  rw [← getD_replaceAll?, hreplace, Option.getD_some]

theorem Settled.substitute (hm : ∀ entry ∈ m, entry.2.Settled) (e : Expr) :
    e.Settled → (e.substitute m).Settled := by
  have hfind : ∀ {d e : Expr}, m.find? e = some d → d.Settled := by
    intro d e hfind
    obtain ⟨entry, hentry, rfl⟩ := exists_entry_of_find? hfind
    exact hm entry hentry
  induction e using Expr.induct with
  | truth value =>
    intro he
    rw [Expr.substitute, Policy.substitute, replace?]
    rcases hfilter : (m.find? (.truth value)).filter _ with _ | d
    · exact he
    · exact hfind (Option.filter_eq_some_iff.mp hfilter).1
  | symbol name =>
    intro he
    rw [Expr.substitute, Policy.substitute, replace?]
    rcases hvalue : m.find? (.symbol name) with _ | d
    · exact he
    · exact hfind hvalue
  | not mode operand ih =>
    intro he
    rw [Expr.substitute, Policy.substitute] at ih ⊢
    rw [replace?]
    rcases hvalue : m.find? (.not mode operand) with _ | d
    · have hoperand := ih (he.of_mem_operands (List.mem_singleton_self operand))
      rcases hreplace : standard.replace? m operand with _ | d
      · exact he
      · rw [hreplace] at hoperand
        exact settled_negation mode hoperand
    · exact hfind hvalue
  | join mode op operands ih =>
    intro he
    rw [Expr.substitute, Policy.substitute, replace?]
    rcases hvalue : m.find? (.join mode op operands) with _ | d
    · rcases hreplace : standard.replaceAll? m operands with _ | ds
      · exact he
      · rw [eq_map_of_replaceAll? hreplace]
        refine settled_join mode op (List.forall_mem_map.mpr fun operand hoperand ↦ ?_)
        exact ih operand hoperand (he.of_mem_operands hoperand)
    · exact hfind hvalue

/-! ### What is reached -/

/-- What the operations reach is settled. -/
theorem Reachable.settled (he : e.Reachable) : e.Settled := by
  induction he with
  | truth value => exact .evaluated (.truth value)
  | symbol name => exact .evaluated (.symbol name)
  | negation mode _ ih => exact settled_negation mode ih
  | join mode op _ ih => exact settled_join mode op ih
  | readRaw hread => exact (Reading.readRaw_spec hread).1
  | readEvaluated hread =>
    obtain ⟨tree, htree, rfl⟩ := Reading.readEvaluated_eq_ok_iff.mp hread
    exact .evaluated (Reading.readRaw_spec htree).1.evaluated_eval
  | eval _ ih => exact .evaluated ih.evaluated_eval
  | cancel _ ih => exact evaluating_standard.keeps_settled.cancel ih
  | deMorgan _ ih => exact evaluating_standard.keeps_settled.deMorgan ih
  | flatten => exact settled_flatten _
  | distribute _ ih => exact evaluating_standard.keeps_settled.distributeWithin _ ih
  | literalize _ ih => exact evaluating_standard.keeps_settled.literalizeWithin _ ih
  | normalForm _ _ hd => exact .evaluated (evaluated_of_mem_normalForm hd)
  | substitute _ _ hm ih => exact ih.substitute hm _
  | operand _ hd ih => exact ih.of_mem_operands hd

/-- Evaluation builds every evaluated expression again. -/
theorem Evaluated.built (e : Expr) : e.Evaluated → e.Built := by
  induction e using Expr.induct with
  | truth value => exact fun _ ↦ .truth value
  | symbol name => exact fun _ ↦ .symbol name
  | not mode operand ih =>
    intro he
    have hoperand := he.of_mem_operands (List.mem_singleton_self operand)
    have hnegation : Expr.not mode operand = standard.negation .evaluated operand := by
      show _ = standard.complement operand.eval
      rw [hoperand.eval_eq]
      cases he <;> rw [Policy.complement]
    rw [hnegation]
    exact .negation .evaluated (ih hoperand)
  | join mode op operands ih =>
    intro he
    have hoperands : operands.map eval = operands :=
      map_eval_eq fun e hmem ↦ he.of_mem_operands hmem
    have hjoin : Expr.join mode op operands = standard.join .evaluated op operands := by
      show _ = standard.combine op (operands.map eval)
      rw [hoperands]
      cases he with | join hes =>
      rw [combine_of_isMinimum hes]
    rw [hjoin]
    exact .join .evaluated op fun e hmem ↦ ih e hmem (he.of_mem_operands hmem)

theorem Settled.built (he : e.Settled) : e.Built := by
  induction he with
  | evaluated he => exact he.built
  | not _ ih => exact .negation .raw ih
  | join _ ih => exact .join .raw _ ih

/-- The operations reach what is built by the standard policy and nothing else. -/
theorem reachable_iff_built : e.Reachable ↔ e.Built := by
  constructor
  · exact fun he ↦ he.settled.built
  · intro he
    induction he with
    | truth value => exact .truth value
    | symbol name => exact .symbol name
    | negation mode _ ih => exact .negation mode ih
    | join mode op _ ih => exact .join mode op ih
    | operand _ hd ih => exact .operand ih hd

/-! ### Evaluated nodes -/

/-- The operands of a two-level form: at least two clauses in strictly increasing order, none of
which has all literals of another. -/
structure IsTwoLevel (op : Connective) (es : List Expr) : Prop where
  two_le_length : 2 ≤ es.length
  increasing : es.Pairwise fun d e ↦ compare d e = .lt
  isClause : ∀ e ∈ es, IsClause op e
  eq_of_subset : ∀ d ∈ es, ∀ e ∈ es, d.literals ⊆ e.literals → d = e

/-- A constant, a symbol, a two-level form, or the negation of one of the latter two. -/
inductive HasEvaluatedShape : Expr → Prop
  | truth (value : Bool) : HasEvaluatedShape (.truth value)
  | symbol (name : Symbol) : HasEvaluatedShape (.symbol name)
  | notSymbol (name : Symbol) : HasEvaluatedShape (.not .evaluated (.symbol name))
  | join {op : Connective} {es : List Expr} (hes : IsTwoLevel op es) :
    HasEvaluatedShape (.join .evaluated op es)
  | notJoin {op : Connective} {es : List Expr} (hes : IsTwoLevel op es) :
    HasEvaluatedShape (.not .evaluated (.join .evaluated op es))

/-- The first expression is a node of the second one: the expression itself, one of its operands,
one of theirs, and so on. -/
def IsNode (d e : Expr) : Prop :=
  Relation.ReflTransGen (fun e d ↦ d ∈ e.operands) e d

/-- A node of an expression is the expression or a node of one of its operands. -/
theorem isNode_iff : d.IsNode e ↔ d = e ∨ ∃ operand ∈ e.operands, d.IsNode operand := by
  rw [IsNode, Relation.ReflTransGen.cases_head_iff, eq_comm]
  rfl

theorem IsMinimum.isTwoLevel (hes : IsMinimum op es) : IsTwoLevel op es :=
  ⟨hes.spec.1, hes.spec.2.1, hes.spec.2.2, fun _ hd _ he ↦ hes.eq_of_literals_subset hd he⟩

theorem Evaluated.hasEvaluatedShape (he : e.Evaluated) : e.HasEvaluatedShape := by
  cases he with
  | truth value => exact .truth value
  | symbol name => exact .symbol name
  | join hes => exact .join hes.isTwoLevel
  | notSymbol name => exact .notSymbol name
  | notJoin hes => exact .notJoin hes.isTwoLevel

theorem Evaluated.mode_eq (he : e.Evaluated) : e.mode = .evaluated := by
  cases he <;> rfl

/-- What passes from every expression to its operands passes to its nodes. -/
theorem IsNode.inherits {P : Expr → Prop} (hnode : d.IsNode e)
    (hoperands : ∀ {d e : Expr}, P e → d ∈ e.operands → P d) (he : P e) : P d := by
  induction hnode with
  | refl => exact he
  | tail _ hmem ih => exact hoperands ih hmem

theorem Evaluated.of_isNode (he : e.Evaluated) (hnode : d.IsNode e) : d.Evaluated :=
  hnode.inherits Evaluated.of_mem_operands he

theorem Settled.of_isNode (he : e.Settled) (hnode : d.IsNode e) : d.Settled :=
  hnode.inherits Settled.of_mem_operands he

/-- In every expression that the operations reach, a node that is marked as evaluated has none but
evaluated nodes below it. It is a constant, a symbol, a join of at least two clauses in strictly
increasing order none of which has all literals of another, or the negation of a symbol or of such
a join. -/
theorem Reachable.evaluated_nodes (he : e.Reachable) (hnode : d.IsNode e)
    (hmode : d.mode = .evaluated) :
    (∀ f : Expr, f.IsNode d → f.mode = .evaluated) ∧ d.HasEvaluatedShape := by
  have hevaluated := (he.settled.of_isNode hnode).evaluated_of_mode hmode
  exact ⟨fun f hf ↦ (hevaluated.of_isNode hf).mode_eq, hevaluated.hasEvaluatedShape⟩

theorem built_writtenChoice : writtenChoice.Built := by
  have hflatten : standard.flatten writtenChoice = writtenChoice := by cbv
  exact hflatten ▸ (settled_flatten writtenChoice).built

/-- A product with a negated symbol, as it is written. -/
def guardedProduct : Expr :=
  standard.join .raw .and [standard.negation .evaluated (.symbol (.name "d")), .symbol (.name "e")]

/-- The product with the evaluated choice between two symbols in place of the negated symbol. -/
def guardedChoice : Expr :=
  guardedProduct.substitute [(.symbol (.name "d"), writtenChoice.eval)]

theorem reachable_guardedChoice : guardedChoice.Reachable := by
  have hsymbol : ∀ text, (Expr.symbol (.name text)).Reachable := fun text ↦ .symbol (.name text)
  have hwritten : writtenChoice.Reachable := reachable_iff_built.mpr built_writtenChoice
  have hproduct : guardedProduct.Reachable := by
    have hnegation := Reachable.negation .evaluated (hsymbol "d")
    exact .join .raw .and (by simp [hnegation, hsymbol])
  exact .substitute (List.forall_mem_singleton.mpr hwritten.eval) hproduct

theorem guardedChoice_eq : guardedChoice =
    .join .raw .and [.not .evaluated evaluatedChoice, .symbol (.name "e")] := by
  have heval : writtenChoice.eval = evaluatedChoice := by cbv
  rw [guardedChoice, heval]
  cbv

theorem isNode_guardedChoice : (Expr.not .evaluated evaluatedChoice).IsNode guardedChoice :=
  .single (guardedChoice_eq ▸ List.mem_cons_self)

/-- The choice is negated in the raw product, with all nodes below the negation evaluated. -/
theorem guardedChoice_evaluated_nodes : guardedChoice.Reachable ∧
    guardedChoice = .join .raw .and [.not .evaluated evaluatedChoice, .symbol (.name "e")] ∧
      (Expr.not .evaluated evaluatedChoice).IsNode guardedChoice ∧
        (∀ f : Expr, f.IsNode (.not .evaluated evaluatedChoice) → f.mode = .evaluated) ∧
          (Expr.not .evaluated evaluatedChoice).HasEvaluatedShape :=
  ⟨reachable_guardedChoice, guardedChoice_eq, isNode_guardedChoice,
    reachable_guardedChoice.evaluated_nodes isNode_guardedChoice rfl⟩

end Expr

end SwitchingAlgebra
