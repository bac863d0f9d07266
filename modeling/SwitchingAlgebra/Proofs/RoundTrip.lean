import Mathlib
import SwitchingAlgebra.Proofs.EvaluatedSymbols
import SwitchingAlgebra.Proofs.Printing

/-!
# Evaluated expressions are read back

A builder that evaluates makes, rule by rule, the evaluated form of what a builder without
evaluation makes, since evaluated operands are combined to what their written forms are evaluated
to. So an evaluated expression is read from its algebraic form as the evaluated form of its
flattened form, and that is the expression.

A text consists of readable numbers and names, and evaluation mentions no other symbols. So whatever
is read from a text is written and read again as the same expression.

Main statements: reading with evaluation is reading without it and evaluating
(`readEvaluated_eq_ok_iff`), and evaluated expressions are read back from their algebraic forms
(`readEvaluated_text`).
-/

set_option autoImplicit false
set_option relaxedAutoImplicit false

namespace SwitchingAlgebra

open Policy
open Reading (Token Construction)

variable {op : Connective} {d e : Expr} {es : List Expr}

/-! ### Marks of evaluated expressions -/

namespace Expr

theorem modesAll_eq_flatMap (es : List Expr) : modesAll es = es.flatMap modes := by
  induction es with
  | nil => rw [modesAll, List.flatMap_nil]
  | cons e rest ih => rw [modesAll, ih, List.flatMap_cons]

/-- All nodes of an arranged expression are evaluated. -/
theorem Arranged.eq_evaluated (he : e.Arranged) : ∀ mode ∈ e.modes, mode = .evaluated := by
  induction he with
  | truth value => simp [modes]
  | symbol name => simp [modes]
  | not _ ih =>
    rw [modes]
    exact List.forall_mem_cons.mpr ⟨rfl, ih⟩
  | join _ _ ih =>
    rw [modes, modesAll_eq_flatMap]
    exact List.forall_mem_cons.mpr ⟨rfl, List.forall_mem_flatMap.mpr ih⟩

/-- The joins of an evaluated expression have at least two operands. -/
theorem Evaluated.isWide (e : Expr) : e.Evaluated → e.IsWide := by
  induction e using Expr.induct with
  | truth value => exact fun _ ↦ .truth value
  | symbol name => exact fun _ ↦ .symbol name
  | not mode operand ih =>
    exact fun he ↦ .not mode (ih (he.of_mem_operands (List.mem_singleton_self operand)))
  | join mode op operands ih =>
    intro he
    refine .join mode op ?_ fun e hmem ↦ ih e hmem (he.of_mem_operands hmem)
    cases he with | join hes =>
    exact hes.spec.1

end Expr

/-! ### Derivations under two constructions -/

namespace Reading.Grammar

/-- What two constructions make of the same parts is related when the parts are. -/
structure Relates (R : Expr → Expr → Prop) (c c' : Construction) : Prop where
  number : ∀ value, R (c.number value) (c'.number value)
  name : ∀ text, R (c.name text) (c'.name text)
  negation : ∀ {d e}, R d e → R (c.negation d) (c'.negation e)
  join : ∀ op {ds es}, List.Forall₂ R ds es → R (c.join op ds) (c'.join op es)

variable {R : Expr → Expr → Prop} {c c' : Construction}

theorem Relates.chain (hrelates : Relates R c c') (op : Connective) {ds es : List Expr}
    (hoperands : List.Forall₂ R ds es) : R (c.chain op ds) (c'.chain op es) := by
  match hoperands with
  | .nil => exact hrelates.join op .nil
  | .cons hfirst .nil => exact hfirst
  | .cons hfirst (.cons hsecond hrest) =>
    exact hrelates.join op (.cons hfirst (.cons hsecond hrest))

theorem Relates.iterate (hrelates : Relates R c c') {d e : Expr} (hoperand : R d e)
    (times : Nat) : R (c.negation^[times] d) (c'.negation^[times] e) := by
  induction times with
  | zero => exact hoperand
  | succ times ih =>
    rw [Function.iterate_succ_apply', Function.iterate_succ_apply']
    exact hrelates.negation ih

theorem forall₂_map {α : Type} {f g : α → Expr} {parts : List α}
    (hparts : ∀ part ∈ parts, R (f part) (g part)) :
    List.Forall₂ R (parts.map f) (parts.map g) := by
  rw [List.forall₂_map_left_iff, List.forall₂_map_right_iff]
  exact List.forall₂_same.mpr hparts

/-- So the expressions that a derivation stands for under the two constructions are related. -/
theorem Relates.value (hrelates : Relates R c c') (derivation : Sum) :
    R (derivation.value c) (derivation.value c') := by
  induction derivation using Sum.induct (fun product ↦ R (product.value c) (product.value c'))
    (fun factor ↦ R (factor.value c) (factor.value c'))
    (fun primary ↦ R (primary.value c) (primary.value c')) with
  | sum first rest hfirst hrest =>
    rw [Sum.value, Sum.value, Product.values_eq_map, Product.values_eq_map]
    exact hrelates.chain .or (.cons hfirst (forall₂_map hrest))
  | product first rest hfirst hrest =>
    rw [Product.value, Product.value, Factor.values_eq_map, Factor.values_eq_map]
    exact hrelates.chain .and (.cons hfirst (forall₂_map hrest))
  | negated operand ih =>
    rw [Factor.value, Factor.value]
    exact hrelates.negation ih
  | complemented operand times ih =>
    rw [Factor.value, Factor.value]
    exact hrelates.iterate ih times
  | number value =>
    rw [Primary.value, Primary.value]
    exact hrelates.number value
  | name text =>
    rw [Primary.value, Primary.value]
    exact hrelates.name text
  | group inner ih =>
    rw [Primary.value, Primary.value]
    exact ih

/-! ### Reading with evaluation -/

/-- The first expression is settled, and the second one is its evaluated form. -/
def IsEvaluation (tree e : Expr) : Prop :=
  tree.Settled ∧ e = tree.eval

theorem isEvaluation_of_evaluated (he : e.Evaluated) : IsEvaluation e e :=
  ⟨.evaluated he, he.eval_eq.symm⟩

/-- What is built with evaluation is the evaluated form of what is written. -/
theorem relates_isEvaluation :
    Relates IsEvaluation .written (Builder.construction ⟨.standard, .evaluated⟩) where
  number value := by
    match value with
    | 0 | 1 => exact isEvaluation_of_evaluated (.truth _)
    | _ + 2 => exact isEvaluation_of_evaluated (.symbol _)
  name text := isEvaluation_of_evaluated (.symbol (.name text))
  negation := by
    rintro tree e ⟨hsettled, rfl⟩
    refine ⟨.not hsettled, ?_⟩
    show standard.complement tree.eval.eval = (Expr.not .raw tree).eval
    rw [hsettled.evaluated_eval.eval_eq, Expr.Settled.eval_not (.not hsettled)]
  join := by
    intro op trees es hoperands
    obtain ⟨hsettled, heval⟩ := (List.forall₂_and_left trees es).mp hoperands
    have hes : trees.map Expr.eval = es := by
      rw [← List.forall₂_eq_eq_eq, List.forall₂_map_left_iff]
      exact heval.imp fun _ _ ↦ Eq.symm
    have hevaluated : ∀ e ∈ es, e.eval = e := by
      rw [← hes]
      exact List.forall_mem_map.mpr fun tree htree ↦ (hsettled tree htree).evaluated_eval.eval_eq
    refine ⟨.join hsettled, ?_⟩
    show standard.combine op (es.map Expr.eval) = (Expr.join .raw op trees).eval
    rw [Expr.Settled.eval_join (.join hsettled), hes, List.map_congr_left hevaluated, List.map_id']

/-- The tree of a derivation is settled, and with evaluation the derivation stands for the evaluated
form of the tree. -/
theorem Sum.isEvaluation_tree (sum : Sum) :
    IsEvaluation sum.tree (sum.value (Builder.construction ⟨.standard, .evaluated⟩)) :=
  relates_isEvaluation.value sum

/-! ### Symbols of what is read -/

theorem mentionsOnly_number {value : Nat} (hvalue : Token.IsReadable (.number value)) :
    (Construction.written.number value).MentionsOnly Symbol.IsReadable := by
  match value with
  | 0 | 1 => exact Expr.mentionsOnly_truth _
  | value + 2 =>
    have hlt : value + 2 < 2 ^ 63 := Nat.lt_succ_of_le hvalue
    refine Expr.mentionsOnly_symbol_iff.mpr ?_
    show 2 ≤ (Int64.ofNat (value + 2)).toInt
    rw [Int64.toInt_ofNat_of_lt hlt]
    omega

theorem mentionsOnly_chain {P : Symbol → Prop} (hes : ∀ e ∈ es, e.MentionsOnly P) :
    (Construction.written.chain op es).MentionsOnly P := by
  match es with
  | [] => exact Expr.mentionsOnly_join_iff.mpr hes
  | [e] => exact hes e List.mem_cons_self
  | d :: e :: rest => exact Expr.mentionsOnly_join_iff.mpr hes

theorem mentionsOnly_iterate {P : Symbol → Prop} (he : e.MentionsOnly P) (times : Nat) :
    (Construction.written.negation^[times] e).MentionsOnly P := by
  induction times with
  | zero => exact he
  | succ times ih =>
    rw [Function.iterate_succ_apply']
    exact Expr.mentionsOnly_not_iff.mpr ih

/-- What holds of all tokens of the parts of a chain after the first holds of those of each part. -/
theorem forall_tokens_of_flatMap {α : Type} {Q : Token → Prop} {sign : Token}
    {tokensOf : α → List Token} {parts : List α}
    (htokens : ∀ token ∈ parts.flatMap (fun part ↦ sign :: tokensOf part), Q token) :
    ∀ part ∈ parts, ∀ token ∈ tokensOf part, Q token := fun part hpart token htoken ↦
  htokens token (List.mem_flatMap.mpr ⟨part, hpart, List.mem_cons_of_mem sign htoken⟩)

/-- The tree of a derivation from readable tokens mentions readable symbols only. -/
theorem Sum.mentionsOnly_tree (sum : Sum) : (∀ token ∈ sum.tokens, token.IsReadable) →
    sum.tree.MentionsOnly Symbol.IsReadable := by
  rw [Sum.tree]
  induction sum using Sum.induct
    (fun product ↦ (∀ token ∈ product.tokens, token.IsReadable) →
      (product.value .written).MentionsOnly Symbol.IsReadable)
    (fun factor ↦ (∀ token ∈ factor.tokens, token.IsReadable) →
      (factor.value .written).MentionsOnly Symbol.IsReadable)
    (fun primary ↦ (∀ token ∈ primary.tokens, token.IsReadable) →
      (primary.value .written).MentionsOnly Symbol.IsReadable) with
  | sum first rest hfirst hrest =>
    intro htokens
    rw [Sum.tokens, Product.tokensAfter_eq_flatMap] at htokens
    obtain ⟨hhead, htail⟩ := List.forall_mem_append.mp htokens
    rw [Sum.value, Product.values_eq_map]
    exact mentionsOnly_chain (List.forall_mem_cons.mpr ⟨hfirst hhead,
      List.forall_mem_map.mpr fun product hproduct ↦
        hrest product hproduct (forall_tokens_of_flatMap htail product hproduct)⟩)
  | product first rest hfirst hrest htokens =>
    rw [Product.tokens, Factor.tokensAfter_eq_flatMap] at htokens
    obtain ⟨hhead, htail⟩ := List.forall_mem_append.mp htokens
    rw [Product.value, Factor.values_eq_map]
    exact mentionsOnly_chain (List.forall_mem_cons.mpr ⟨hfirst hhead,
      List.forall_mem_map.mpr fun factor hfactor ↦
        hrest factor hfactor (forall_tokens_of_flatMap htail factor hfactor)⟩)
  | negated operand ih htokens =>
    rw [Factor.tokens] at htokens
    rw [Factor.value]
    exact Expr.mentionsOnly_not_iff.mpr (ih fun t ht ↦ htokens t (List.mem_cons_of_mem _ ht))
  | complemented operand times ih htokens =>
    rw [Factor.tokens] at htokens
    rw [Factor.value]
    exact mentionsOnly_iterate (ih fun t ht ↦ htokens t (List.mem_append_left _ ht)) times
  | number value htokens =>
    rw [Primary.value]
    exact mentionsOnly_number (htokens _ (List.mem_singleton_self _))
  | name text htokens =>
    rw [Primary.value]
    exact Expr.mentionsOnly_symbol_iff.mpr (htokens _ (List.mem_singleton_self _))
  | group inner ih htokens =>
    rw [Primary.tokens] at htokens
    rw [Primary.value]
    exact ih fun t ht ↦ htokens t (List.mem_cons_of_mem _ (List.mem_append_left _ ht))

end Reading.Grammar

namespace Reading

open Grammar

variable {text : String}

/-- What is read without evaluation is settled and mentions readable symbols only. -/
theorem readRaw_spec {tree : Expr} (hread : readRaw text = .ok tree) :
    tree.Settled ∧ tree.MentionsOnly Symbol.IsReadable := by
  rw [readRaw, read_eq_ok_iff, construction_raw] at hread
  obtain ⟨placed, htext, sum, htokens, rfl⟩ := hread
  refine ⟨sum.isEvaluation_tree.1, sum.mentionsOnly_tree ?_⟩
  rw [htokens]
  exact List.forall_mem_map.mpr (Token.isReadable_of_ofText htext)

/-- Reading with evaluation is reading without it and evaluating. -/
theorem readEvaluated_eq_ok_iff :
    readEvaluated text = .ok e ↔ ∃ tree, readRaw text = .ok tree ∧ tree.eval = e := by
  have hevaluation := fun sum : Sum ↦ sum.isEvaluation_tree.2
  rw [readEvaluated, read_eq_ok_iff]
  simp only [readRaw, read_eq_ok_iff, construction_raw]
  constructor
  · rintro ⟨placed, htext, sum, htokens, rfl⟩
    exact ⟨sum.tree, ⟨placed, htext, sum, htokens, rfl⟩, (hevaluation sum).symm⟩
  · rintro ⟨_, ⟨placed, htext, sum, htokens, rfl⟩, rfl⟩
    exact ⟨placed, htext, sum, htokens, hevaluation sum⟩

/-- With evaluation, the algebraic form of a settled expression is read as its evaluated form. -/
theorem readEvaluated_text_of_settled (he : e.Settled) (hwide : e.IsWide)
    (hsymbols : ∀ s ∈ e.symbolLeaves, s.IsReadable) : readEvaluated e.text = .ok e.eval := by
  obtain ⟨placed, htext, sum, htokens, htree⟩ := hwide.exists_derivation hsymbols
  rw [readEvaluated, read_eq_ok_iff]
  refine ⟨placed, htext, sum, htokens, ?_⟩
  rw [sum.isEvaluation_tree.2, htree, Expr.eval_flatten e he]

/-- So an evaluated expression is read back. -/
theorem readEvaluated_text_of_evaluated (he : e.Evaluated)
    (hsymbols : ∀ s ∈ e.symbolLeaves, s.IsReadable) : readEvaluated e.text = .ok e := by
  have hread := readEvaluated_text_of_settled (.evaluated he) (he.isWide e) hsymbols
  rwa [he.eval_eq] at hread

/-- What evaluation gives of an expression that is built by the standard policy is read back from
its algebraic form, with every node evaluated and the operands in the same order, if every symbol is
written as a number or a name that can be read. Every expression that is read from a text is read
back in this way. -/
theorem readEvaluated_text :
    (∀ e : Expr, e.Built → (∀ s ∈ e.eval.symbolLeaves, s.IsReadable) →
      readEvaluated e.eval.text = .ok e.eval ∧ ∀ mode ∈ e.eval.modes, mode = .evaluated) ∧
    ∀ (text : String) (e : Expr), readEvaluated text = .ok e → readEvaluated e.text = .ok e := by
  constructor
  · intro e he hsymbols
    have hevaluated := he.settled.evaluated_eval
    exact ⟨readEvaluated_text_of_evaluated hevaluated hsymbols,
      hevaluated.arranged.eq_evaluated⟩
  · intro text e hread
    obtain ⟨tree, htree, rfl⟩ := readEvaluated_eq_ok_iff.mp hread
    obtain ⟨hsettled, hsymbols⟩ := readRaw_spec htree
    exact readEvaluated_text_of_evaluated hsettled.evaluated_eval
      (mentionsOnly_eval standard tree hsymbols)

/-- The written choice between two symbols is built, and what evaluation gives of it is read back
from its algebraic form. So is what is read from the form of the choice as it is written. -/
theorem readEvaluated_choice : writtenChoice.Built ∧
    (∀ s ∈ writtenChoice.eval.symbolLeaves, s.IsReadable) ∧
      writtenChoice.eval.text = "a∙b+a'∙c" ∧ readEvaluated "a∙b+a'∙c" = .ok writtenChoice.eval ∧
        (∀ mode ∈ writtenChoice.eval.modes, mode = .evaluated) ∧
          readEvaluated "a∙b+a'∙c+b∙c" = .ok evaluatedChoice ∧
            readEvaluated evaluatedChoice.text = .ok evaluatedChoice := by
  have heval : writtenChoice.eval = evaluatedChoice := by cbv
  have htext : writtenChoice.eval.text = "a∙b+a'∙c" := by
    rw [heval]
    cbv
  have hsymbols : ∀ s ∈ writtenChoice.eval.symbolLeaves, s.IsReadable := by
    rw [heval]
    decide +kernel
  have hbuilt : writtenChoice.Built := by
    have hsymbol : ∀ text, (Expr.symbol (.name text)).Built := fun text ↦ .symbol (.name text)
    have hnegation : (standard.negation .raw (.symbol (.name "a"))).Built :=
      .negation .raw (hsymbol "a")
    have hfirst : (standard.join .raw .and [.symbol (.name "a"), .symbol (.name "b")]).Built :=
      .join .raw .and (by simp [hsymbol])
    have hsecond : (standard.join .raw .and [standard.negation .raw (.symbol (.name "a")),
        .symbol (.name "c")]).Built :=
      .join .raw .and (by simp [hsymbol, hnegation])
    have hthird : (standard.join .raw .and [.symbol (.name "b"), .symbol (.name "c")]).Built :=
      .join .raw .and (by simp [hsymbol])
    exact .join .raw .or (List.forall_mem_cons.mpr ⟨hfirst, List.forall_mem_cons.mpr ⟨hsecond,
      List.forall_mem_singleton.mpr hthird⟩⟩)
  have hwritten : readEvaluated "a∙b+a'∙c+b∙c" = .ok evaluatedChoice := by
    have hwide : writtenChoice.IsWide := by
      simp [writtenChoice, Expr.isWide_join_iff, Expr.isWide_not_iff, Expr.IsWide.symbol]
    have hread := readEvaluated_text_of_settled hbuilt.settled hwide (by decide +kernel)
    rwa [heval, show writtenChoice.text = "a∙b+a'∙c+b∙c" by cbv] at hread
  obtain ⟨hread, hmodes⟩ := readEvaluated_text.1 writtenChoice hbuilt hsymbols
  rw [htext] at hread
  exact ⟨hbuilt, hsymbols, htext, hread, hmodes, hwritten, readEvaluated_text.2 _ _ hwritten⟩

end Reading

end SwitchingAlgebra
