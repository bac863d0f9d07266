import Mathlib
import SwitchingAlgebra.Expr.Leaves
import SwitchingAlgebra.Proofs.EvaluatedForms

/-!
# Evaluation mentions no further symbols

The literals of the terms of an expression are those of its symbols, and so are the columns of the
cover that is made from them. Whatever cubes a minimum cover consists of, they are written with
these symbols. So what holds of all symbols of an expression holds of all symbols of its evaluated
form.

Main statement: the evaluated form of an expression has no symbols but those of the expression
(`symbolLeaves_eval_subset`).
-/

set_option autoImplicit false
set_option relaxedAutoImplicit false

namespace SwitchingAlgebra

variable {P : Symbol → Prop} {p : Policy} {op : Connective} {d e : Expr} {es : List Expr}

/-! ### Symbols of terms -/

namespace Term

/-- The symbols of all literals of a term have the property. -/
def MentionsOnly (P : Symbol → Prop) (t : Term) : Prop :=
  ∀ l ∈ t, P l.symbol

theorem MentionsOnly.insert? {l : Literal} {t inserted : Term} (hl : P l.symbol)
    (ht : t.MentionsOnly P) (hinsert : Term.insert? l t = some inserted) :
    inserted.MentionsOnly P := by
  intro m hm
  rcases mem_of_mem_insert? hinsert hm with rfl | hm
  · exact hl
  · exact ht m hm

theorem MentionsOnly.merge? {t u merged : Term} (ht : t.MentionsOnly P) (hu : u.MentionsOnly P)
    (hmerge : Term.merge? t u = some merged) : merged.MentionsOnly P := by
  induction u generalizing t with
  | nil => exact Option.some.inj hmerge ▸ ht
  | cons l rest ih =>
    obtain ⟨hl, hrest⟩ := List.forall_mem_cons.mp hu
    obtain ⟨inserted, hinserted, hmerged⟩ := Option.bind_eq_some_iff.mp hmerge
    exact ih (ht.insert? hl hinserted) hrest hmerged

theorem mentionsOnly_of_mem_cross {ts us : List Term} (hts : ∀ t ∈ ts, t.MentionsOnly P)
    (hus : ∀ u ∈ us, u.MentionsOnly P) : ∀ t ∈ cross ts us, t.MentionsOnly P := by
  intro t ht
  obtain ⟨first, hfirst, hmerged⟩ := List.mem_flatMap.mp (mem_distinct.mp ht)
  obtain ⟨second, hsecond, hmerge⟩ := List.mem_filterMap.mp hmerged
  exact (hts first hfirst).merge? (hus second hsecond) hmerge

end Term

namespace Expr

/-- All symbols of the expression have the property. -/
def MentionsOnly (P : Symbol → Prop) (e : Expr) : Prop :=
  ∀ s ∈ e.symbolLeaves, P s

theorem mentionsOnly_truth (value : Bool) : (Expr.truth value).MentionsOnly P := by
  simp [MentionsOnly, symbolLeaves]

theorem mentionsOnly_symbol_iff {s : Symbol} : (Expr.symbol s).MentionsOnly P ↔ P s := by
  simp [MentionsOnly, symbolLeaves]

theorem mentionsOnly_not_iff {mode : Mode} :
    (Expr.not mode e).MentionsOnly P ↔ e.MentionsOnly P := by
  rw [MentionsOnly, symbolLeaves, MentionsOnly]

theorem mentionsOnly_join_iff {mode : Mode} :
    (Expr.join mode op es).MentionsOnly P ↔ ∀ e ∈ es, e.MentionsOnly P := by
  rw [MentionsOnly, symbolLeaves, symbolLeavesAll_eq_flatMap]
  exact List.forall_mem_flatMap

theorem MentionsOnly.of_mem_operands (he : e.MentionsOnly P) (hd : d ∈ e.operands) :
    d.MentionsOnly P := by
  match e with
  | .truth _ | .symbol _ => exact absurd hd List.not_mem_nil
  | .not mode operand =>
    rw [List.mem_singleton.mp hd]
    exact mentionsOnly_not_iff.mp he
  | .join mode op es => exact mentionsOnly_join_iff.mp he d hd

theorem MentionsOnly.gatheredTerms {negated : Bool}
    (hes : ∀ e ∈ es, ∀ t ∈ e.terms op negated, t.MentionsOnly P) :
    ∀ t ∈ Expr.gatheredTerms op es negated, t.MentionsOnly P := by
  induction es with
  | nil => simp [Expr.gatheredTerms]
  | cons e rest ih =>
    obtain ⟨he, hrest⟩ := List.forall_mem_cons.mp hes
    rw [Expr.gatheredTerms]
    exact List.forall_mem_append.mpr ⟨he, ih hrest⟩

theorem MentionsOnly.crossedTerms {negated : Bool} {acc : List Term}
    (hes : ∀ e ∈ es, ∀ t ∈ e.terms op negated, t.MentionsOnly P)
    (hacc : ∀ t ∈ acc, t.MentionsOnly P) :
    ∀ t ∈ Expr.crossedTerms op es negated acc, t.MentionsOnly P := by
  induction es generalizing acc with
  | nil =>
    rw [Expr.crossedTerms]
    exact hacc
  | cons e rest ih =>
    obtain ⟨he, hrest⟩ := List.forall_mem_cons.mp hes
    rw [Expr.crossedTerms]
    exact ih hrest (Term.mentionsOnly_of_mem_cross hacc he)

/-- The terms of an expression are written with its symbols. -/
theorem MentionsOnly.terms (e : Expr) : e.MentionsOnly P →
    ∀ negated : Bool, ∀ t ∈ e.terms op negated, t.MentionsOnly P := by
  induction e using Expr.induct with
  | truth value =>
    intro _ negated
    unfold Expr.terms
    split_ifs <;> simp [Term.MentionsOnly]
  | symbol name =>
    intro he negated
    simpa [Expr.terms, Term.MentionsOnly] using mentionsOnly_symbol_iff.mp he
  | not mode operand ih =>
    intro he negated
    unfold Expr.terms
    exact ih (mentionsOnly_not_iff.mp he) _
  | join mode child operands ih =>
    intro he negated
    have hoperands : ∀ e ∈ operands, ∀ t ∈ e.terms op negated, t.MentionsOnly P :=
      fun e hmem ↦ ih e hmem (mentionsOnly_join_iff.mp he e hmem) negated
    unfold Expr.terms
    by_cases hchild : (if negated then child.dual else child) = op
    · rw [if_pos hchild]
      exact MentionsOnly.gatheredTerms hoperands
    · rw [if_neg hchild]
      refine MentionsOnly.crossedTerms hoperands fun t ht ↦ ?_
      rw [List.mem_singleton.mp ht]
      exact fun l hl ↦ absurd hl List.not_mem_nil

end Expr

namespace Policy

open SwitchingAlgebra.Expr

/-! ### Symbols of evaluated forms -/

theorem mentionsOnly_literal {s : Symbol} (hs : P s) (positive : Bool) :
    (p.literal s positive).MentionsOnly P := by
  cases positive with
  | false => exact mentionsOnly_not_iff.mpr (mentionsOnly_symbol_iff.mpr hs)
  | true => exact mentionsOnly_symbol_iff.mpr hs

theorem mentionsOnly_joinLeft {identity : Expr} (hidentity : identity.MentionsOnly P)
    (hes : ∀ e ∈ es, e.MentionsOnly P) : (joinLeft op identity es).MentionsOnly P := by
  match es with
  | [] => exact hidentity
  | [e] => exact hes e List.mem_cons_self
  | d :: e :: rest => exact mentionsOnly_join_iff.mpr hes

theorem mentionsOnly_term (hes : ∀ e ∈ es, e.MentionsOnly P) :
    (p.term op es).MentionsOnly P := by
  match es with
  | [] => exact mentionsOnly_truth _
  | [e] => exact hes e List.mem_cons_self
  | d :: e :: rest => exact mentionsOnly_join_iff.mpr hes

/-- The columns of a two-level form are symbols of the operands. -/
theorem forall_mem_symbols_ofOperands (hes : ∀ e ∈ es, e.MentionsOnly P) :
    ∀ s ∈ (TwoLevel.ofOperands op es).symbols, P s := by
  intro s hs
  obtain ⟨t, ht, hmem⟩ := List.mem_flatMap.mp (mem_sortDistinct.mp hs)
  obtain ⟨e, he, hterms⟩ := List.mem_flatMap.mp (Term.mem_distinct.mp ht)
  obtain ⟨l, hl, rfl⟩ := List.mem_map.mp hmem
  exact (hes e he).terms e false t hterms l hl

/-- The terms of a cover are written with the symbols of its columns. -/
theorem mentionsOnly_of_mem_termsOf {form : TwoLevel} (hsymbols : ∀ s ∈ form.symbols, P s)
    {f : Cover} {t : Term} (ht : t ∈ form.termsOf f) : t.MentionsOnly P := by
  intro l hl
  obtain ⟨c, -, rfl⟩ := List.mem_map.mp ht
  obtain ⟨i, hi, -⟩ := TwoLevel.mem_term.mp hl
  exact hsymbols l.symbol (List.mem_of_getElem? hi)

/-- The clause of a term is written with the symbols of the term. -/
theorem mentionsOnly_clause {t : Term} (ht : t.MentionsOnly P) :
    (p.term op (p.literalsOf t)).MentionsOnly P := by
  refine mentionsOnly_term fun e he ↦ ?_
  obtain ⟨l, hl, rfl⟩ := mem_literalsOf.mp he
  exact mentionsOnly_literal (ht l hl) l.positive

/-- A minimum two-level form is written with the symbols of the operands. -/
theorem mentionsOnly_minimize (hes : ∀ e ∈ es, e.MentionsOnly P) :
    (p.minimize op es).MentionsOnly P := by
  rw [minimize_eq]
  split_ifs
  · exact mentionsOnly_truth _
  refine mentionsOnly_joinLeft (mentionsOnly_truth _) fun d hd ↦ ?_
  obtain ⟨t, ht, rfl⟩ := List.mem_map.mp (mem_of_mem_sortDistinct hd)
  exact mentionsOnly_clause (mentionsOnly_of_mem_termsOf (forall_mem_symbols_ofOperands hes) ht)

theorem mentionsOnly_of_mem_parts (hes : ∀ e ∈ es, e.MentionsOnly P)
    (hd : d ∈ p.parts op es) : d.MentionsOnly P := by
  obtain ⟨e, he, hspliced⟩ := exists_mem_splice_of_mem_parts hd
  rcases mem_operands_of_mem_splice hspliced with rfl | hoperand
  · exact hes d he
  · exact (hes e he).of_mem_operands hoperand

/-- So is what operands are combined to. -/
theorem mentionsOnly_combine (hes : ∀ e ∈ es, e.MentionsOnly P) :
    (p.combine op es).MentionsOnly P := by
  have hparts : ∀ d ∈ p.parts op es, d.MentionsOnly P := fun d hd ↦
    mentionsOnly_of_mem_parts hes hd
  rw [combine]
  split_ifs
  · exact mentionsOnly_truth _
  · split
    · exact mentionsOnly_truth _
    · next d hsingle => exact hparts d (hsingle ▸ List.mem_singleton_self d)
    · exact mentionsOnly_minimize hparts

theorem mentionsOnly_complement (he : e.MentionsOnly P) : (p.complement e).MentionsOnly P := by
  match e with
  | .truth value => exact mentionsOnly_truth _
  | .symbol s => exact mentionsOnly_not_iff.mpr he
  | .not mode inner => exact mentionsOnly_not_iff.mp he
  | .join mode op es => exact mentionsOnly_not_iff.mpr he

/-- An evaluated form has no symbols but those of the expression. -/
theorem mentionsOnly_eval (p : Policy) (e : Expr) :
    e.MentionsOnly P → (p.eval e).MentionsOnly P := by
  induction e using Expr.induct with
  | truth value =>
    rw [eval]
    exact id
  | symbol name =>
    rw [eval]
    exact id
  | not mode operand ih =>
    intro he
    cases mode with
    | evaluated =>
      rw [eval]
      exact he
    | raw =>
      rw [eval]
      exact mentionsOnly_complement (ih (mentionsOnly_not_iff.mp he))
  | join mode op operands ih =>
    intro he
    cases mode with
    | evaluated =>
      rw [eval]
      exact he
    | raw =>
      rw [eval, evalAll_eq_map]
      exact mentionsOnly_combine (List.forall_mem_map.mpr fun e hmem ↦
        ih e hmem (mentionsOnly_join_iff.mp he e hmem))

/-- So every symbol of the evaluated form is one of the expression. -/
theorem symbolLeaves_eval_subset (p : Policy) (e : Expr) :
    (p.eval e).symbolLeaves ⊆ e.symbolLeaves :=
  p.mentionsOnly_eval e fun _ hs ↦ hs

end Policy

end SwitchingAlgebra
