import Mathlib
import SwitchingAlgebra.Proofs.Canonicity
import SwitchingAlgebra.Proofs.Rebuilding

/-!
# What evaluation leaves

An evaluated expression is a constant, a symbol, a join that is its own minimum two-level form, or
the negation of one of the latter two. The operands of such a join are literals and joins of
literals, they are evaluated themselves and stand in strictly increasing order. So the shape of an
evaluated expression determines it, and it has the same value under all assignments only if it is a
constant.

Main statements: every minimum two-level form is evaluated (`evaluated_minimize`), evaluated
expressions of one shape are equal (`Evaluated.eq_of_compare`), and whatever is built by the
standard policy holds evaluated nodes of this kind alone (`Built.settled`).
-/

set_option autoImplicit false
set_option relaxedAutoImplicit false

namespace SwitchingAlgebra

open Policy

variable {op : Connective} {es fs : List Expr} {d e : Expr} {assignment : Symbol → Bool}

theorem Policy.faithful_standard : standard.Faithful :=
  ⟨fun _ ↦ rfl, fun _ ↦ rfl⟩

namespace Expr

/-! ### Two-level forms -/

/-- What a minimum two-level form joins: a literal, or several literals of distinct symbols under
the dual connective. -/
inductive IsClause (op : Connective) : Expr → Prop
  | literal (s : Symbol) (positive : Bool) : IsClause op (standard.literal s positive)
  | join {t : Term} (ht : t.Increasing) (hlength : 2 ≤ t.length) :
    IsClause op (.join .evaluated op.dual (standard.literalsOf t))

theorem isClause_term {t : Term} (ht : t.Increasing) (hne : t ≠ []) :
    IsClause op (standard.term op (standard.literalsOf t)) := by
  match t with
  | [] => exact absurd rfl hne
  | [l] => exact .literal l.symbol l.positive
  | l :: m :: rest => exact .join ht (Nat.le_add_left 2 rest.length)

/-- A minimum two-level form is a constant, a single clause, or a join of at least two clauses in
increasing order. -/
theorem minimize_cases (op : Connective) (es : List Expr) :
    (∃ value, standard.minimize op es = .truth value) ∨ IsClause op (standard.minimize op es) ∨
      ∃ fs, standard.minimize op es = .join .evaluated op fs ∧ 2 ≤ fs.length ∧
        (fs.Pairwise fun d e ↦ compare d e = .lt) ∧ ∀ f ∈ fs, IsClause op f := by
  rw [minimize_eq]
  split_ifs with hnil
  · exact .inl ⟨_, rfl⟩
  generalize hterms : (TwoLevel.ofOperands op es).termsOf
    (TwoLevel.ofOperands op es).cover.minimum = terms at hnil
  have hclause : ∀ f ∈ Expr.distinct (terms.map fun t ↦ standard.term op (standard.literalsOf t)),
      IsClause op f := by
    intro f hf
    obtain ⟨t, ht, rfl⟩ := List.mem_map.mp (mem_of_mem_sortDistinct hf)
    refine isClause_term ?_ fun hempty ↦ hnil (hempty ▸ ht)
    rw [← hterms, TwoLevel.termsOf] at ht
    obtain ⟨c, -, rfl⟩ := List.mem_map.mp ht
    exact (TwoLevel.wellFormed_ofOperands op es).increasing_term
  have hincreasing : (Expr.distinct
      (terms.map fun t ↦ standard.term op (standard.literalsOf t))).Pairwise
        fun d e ↦ compare d e = .lt := pairwise_sortDistinct _
  generalize Expr.distinct (terms.map fun t ↦ standard.term op (standard.literalsOf t)) = fs
    at hclause hincreasing
  rcases fs with _ | ⟨f, _ | ⟨g, rest⟩⟩
  · exact .inl ⟨_, rfl⟩
  · exact .inr (.inl (hclause f List.mem_cons_self))
  · exact .inr (.inr ⟨_, rfl, Nat.le_add_left 2 rest.length, hincreasing, hclause⟩)

/-- The operands are those of their own minimum two-level form. -/
def IsMinimum (op : Connective) (es : List Expr) : Prop :=
  standard.minimize op es = .join .evaluated op es

theorem IsClause.ne_join (he : IsClause op e) (mode : Mode) (es : List Expr) :
    e ≠ .join mode op es := by
  rintro rfl
  generalize hjoin : Expr.join mode op es = e at he
  cases he with
  | literal s positive => cases positive <;> cases hjoin
  | join => exact op.dual_ne (Expr.join.inj hjoin).2.1.symm

theorem IsClause.ne_truth (he : IsClause op e) (value : Bool) : e ≠ .truth value := by
  rintro rfl
  generalize htruth : Expr.truth value = e at he
  cases he with
  | literal s positive => cases positive <;> cases htruth
  | join => cases htruth

/-- Such operands are at least two clauses in increasing order. -/
theorem IsMinimum.spec (hes : IsMinimum op es) :
    2 ≤ es.length ∧ (es.Pairwise fun d e ↦ compare d e = .lt) ∧ ∀ e ∈ es, IsClause op e := by
  rcases minimize_cases op es with ⟨value, htruth⟩ | hclause | ⟨fs, hjoin, hspec⟩
  · cases hes.symm.trans htruth
  · exact absurd hes (hclause.ne_join _ _)
  · cases hes.symm.trans hjoin
    exact hspec

/-! ### Evaluated expressions -/

/-- An expression as evaluation leaves it. -/
inductive Evaluated : Expr → Prop
  | truth (value : Bool) : Evaluated (.truth value)
  | symbol (name : Symbol) : Evaluated (.symbol name)
  | join {op : Connective} {es : List Expr} (hes : IsMinimum op es) :
    Evaluated (.join .evaluated op es)
  | notSymbol (name : Symbol) : Evaluated (.not .evaluated (.symbol name))
  | notJoin {op : Connective} {es : List Expr} (hes : IsMinimum op es) :
    Evaluated (.not .evaluated (.join .evaluated op es))

theorem IsClause.evaluated (he : IsClause op e) : e.Evaluated := by
  cases he with
  | literal s positive =>
    cases positive
    · exact .notSymbol s
    · exact .symbol s
  | join ht hlength => exact .join (minimize_literals ht hlength)

/-- The operands of a minimum two-level form have that form themselves. -/
theorem isMinimum_of_minimize_eq {mode : Mode}
    (hjoin : standard.minimize op es = .join mode op fs) : IsMinimum op fs := by
  have hmode : mode = .evaluated := by
    rcases minimize_cases op es with ⟨value, htruth⟩ | hclause | ⟨gs, hjoin', -⟩
    · cases hjoin.symm.trans htruth
    · exact absurd hjoin (hclause.ne_join _ _)
    · cases hjoin.symm.trans hjoin'
      rfl
  rw [IsMinimum, ← hmode, ← hjoin]
  refine minimize_eq_of_holds_eq fun assignment ↦ ?_
  rw [← holds_minimize faithful_standard .raw es, hjoin]
  cases op <;> simp

theorem evaluated_minimize (op : Connective) (es : List Expr) :
    (standard.minimize op es).Evaluated := by
  rcases minimize_cases op es with ⟨value, htruth⟩ | hclause | ⟨fs, hjoin, -⟩
  · rw [htruth]
    exact .truth value
  · exact hclause.evaluated
  · rw [hjoin]
    exact .join (isMinimum_of_minimize_eq hjoin)

theorem evaluated_complement (he : e.Evaluated) : (standard.complement e).Evaluated := by
  cases he with
  | truth value => exact .truth _
  | symbol name => exact .notSymbol name
  | join hes => exact .notJoin hes
  | notSymbol name => exact .symbol name
  | notJoin hes => exact .join hes

theorem Evaluated.of_mem_operands (he : e.Evaluated) (hd : d ∈ e.operands) : d.Evaluated := by
  cases he with
  | truth value => cases hd
  | symbol name => cases hd
  | join hes => exact (hes.spec.2.2 d hd).evaluated
  | notSymbol name =>
    rw [List.mem_singleton.mp hd]
    exact .symbol name
  | notJoin hes =>
    rw [List.mem_singleton.mp hd]
    exact .join hes

/-- Evaluation changes nothing in an evaluated expression. -/
theorem Evaluated.eval_eq (he : e.Evaluated) : e.eval = e := by
  cases he <;> rw [Expr.eval, Policy.eval]

theorem map_eval_eq (hes : ∀ e ∈ es, e.Evaluated) : es.map eval = es :=
  (List.map_congr_left fun e he ↦ (hes e he).eval_eq).trans (List.map_id es)

/-! ### Equal shapes -/

/-- All nodes are marked as evaluated, and the operands of every join stand in strictly increasing
order. -/
inductive Arranged : Expr → Prop
  | truth (value : Bool) : Arranged (.truth value)
  | symbol (name : Symbol) : Arranged (.symbol name)
  | not {e : Expr} (he : Arranged e) : Arranged (.not .evaluated e)
  | join {op : Connective} {es : List Expr}
    (hincreasing : es.Pairwise fun d e ↦ compare d e = .lt) (hes : ∀ e ∈ es, Arranged e) :
    Arranged (.join .evaluated op es)

theorem arranged_literal (s : Symbol) (positive : Bool) :
    (standard.literal s positive).Arranged := by
  cases positive
  · exact .not (.symbol s)
  · exact .symbol s

theorem IsClause.arranged (he : IsClause op e) : e.Arranged := by
  cases he with
  | literal s positive => exact arranged_literal s positive
  | join ht _ =>
    refine .join (pairwise_literalsOf ht) fun e he ↦ ?_
    obtain ⟨l, -, rfl⟩ := mem_literalsOf.mp he
    exact arranged_literal _ _

theorem IsMinimum.arranged (hes : IsMinimum op es) : (Expr.join .evaluated op es).Arranged :=
  .join hes.spec.2.1 fun e he ↦ (hes.spec.2.2 e he).arranged

theorem Evaluated.arranged (he : e.Evaluated) : e.Arranged := by
  cases he with
  | truth value => exact .truth value
  | symbol name => exact .symbol name
  | join hes => exact hes.arranged
  | notSymbol name => exact .not (.symbol name)
  | notJoin hes => exact .not hes.arranged

theorem eq_of_map_shape_eq (hsame : ∀ d ∈ es, ∀ e ∈ fs, d.shape = e.shape → d = e)
    (hmap : es.map shape = fs.map shape) : es = fs := by
  induction es generalizing fs with
  | nil => exact (List.map_eq_nil_iff.mp hmap.symm).symm
  | cons d rest ih =>
    obtain ⟨e, others, rfl, hhead, htail⟩ := List.map_eq_cons_iff.mp hmap.symm
    rw [hsame d List.mem_cons_self e List.mem_cons_self hhead.symm,
      ih (fun x hx y hy ↦ hsame x (List.mem_cons_of_mem _ hx) y (List.mem_cons_of_mem _ hy))
        htail.symm]

/-- Operands in increasing order have their shapes in order already. -/
theorem mergeSort_map_shape (hincreasing : es.Pairwise fun d e ↦ compare d e = .lt) :
    ((es.map shape).mergeSort fun x y ↦ (compare x y).isLE) = es.map shape := by
  refine List.mergeSort_of_pairwise (List.pairwise_map.mpr (hincreasing.imp fun {d e} hlt ↦ ?_))
  show (compare d e).isLE = true
  rw [hlt]
  rfl

/-- Arranged expressions of one shape are equal. -/
theorem Arranged.eq_of_shape_eq (x : Expr) :
    ∀ y : Expr, x.Arranged → y.Arranged → x.shape = y.shape → x = y := by
  induction x using Expr.induct with
  | truth value =>
    intro y _ _ hshape
    cases y with
    | truth other =>
      cases hshape
      rfl
    | not mode operand => exact absurd hshape (shape_not_ne rfl)
    | _ => cases hshape
  | symbol name =>
    intro y _ _ hshape
    cases y with
    | symbol other =>
      cases hshape
      rfl
    | not mode operand => exact absurd hshape (shape_not_ne rfl)
    | _ => cases hshape
  | not mode operand ih =>
    intro y hx hy hshape
    cases y with
    | not mode' operand' =>
      cases hx with | not hx =>
      cases hy with | not hy =>
      rw [ih operand' hx hy (Shape.negate_injective hshape)]
    | _ => exact absurd hshape.symm (shape_not_ne rfl)
  | join mode op operands ih =>
    intro y hx hy hshape
    cases y with
    | not mode' operand => exact absurd hshape (shape_not_ne rfl)
    | join mode' op' operands' =>
      cases hx with | join hincreasing hx =>
      cases hy with | join hincreasing' hy =>
      rw [shape_join, shape_join, mergeSort_map_shape hincreasing,
        mergeSort_map_shape hincreasing', Shape.join.injEq] at hshape
      obtain ⟨rfl, hmap, -⟩ := hshape
      rw [eq_of_map_shape_eq (fun d hd e he ↦ ih d hd e (hx d hd) (hy e he)) hmap]
    | _ => cases hshape

/-- Evaluated expressions are equal when they compare equal. -/
theorem Evaluated.eq_of_compare (hd : d.Evaluated) (he : e.Evaluated)
    (hequal : compare d e = .eq) : d = e :=
  Arranged.eq_of_shape_eq d e hd.arranged he.arranged (shape_eq_of_compare hequal)

/-! ### Constants -/

/-- A minimum two-level form depends on some symbol. -/
theorem IsMinimum.not_constant (hes : IsMinimum op es) (value : Bool) :
    ¬ ∀ assignment, (Expr.join .evaluated op es).holds assignment = value := by
  intro hconstant
  -- A constant has a two-level form that is no join.
  obtain ⟨gs, other, htruth, hgs⟩ : ∃ gs other, standard.minimize op gs = .truth other ∧
      ∀ assignment, (Expr.join .raw op gs).holds assignment = value := by
    by_cases hvalue : value = op.identity
    · refine ⟨[], _, minimize_nil faithful_standard, fun assignment ↦ ?_⟩
      cases op <;> simp [hvalue, Connective.identity]
    · refine ⟨[.truth op.annihilator], _, minimize_of_annihilator faithful_standard ?_,
        fun assignment ↦ ?_⟩
      · simp [Expr.isTruth]
      · cases op <;> simp_all [Connective.annihilator, Connective.identity]
  have hsame : standard.minimize op es = standard.minimize op gs := by
    refine minimize_eq_of_holds_eq fun assignment ↦ ?_
    rw [hgs, ← hconstant assignment]
    cases op <;> simp
  rw [hes, htruth] at hsame
  cases hsame

/-- An evaluated expression that has one value under all assignments is a constant. -/
theorem Evaluated.eq_truth (he : e.Evaluated) {value : Bool}
    (hconstant : ∀ assignment, e.holds assignment = value) : e = .truth value := by
  cases he with
  | truth other => rw [← hconstant fun _ ↦ true, holds_truth]
  | symbol name =>
    have hvalue := hconstant fun _ ↦ !value
    rw [holds_symbol] at hvalue
    exact absurd hvalue (Bool.not_ne_self value)
  | join hes => exact absurd hconstant (hes.not_constant value)
  | notSymbol name =>
    have hvalue := hconstant fun _ ↦ value
    rw [holds_not, holds_symbol] at hvalue
    exact absurd hvalue (Bool.not_ne_self value)
  | notJoin hes =>
    refine absurd (fun assignment ↦ ?_) (hes.not_constant !value)
    rw [← hconstant assignment, holds_not, Bool.not_not]

/-! ### Combined operands -/

theorem mem_operands_of_mem_splice (hd : d ∈ e.splice op) : d = e ∨ d ∈ e.operands := by
  cases e with
  | join mode child es =>
    rw [splice] at hd
    split_ifs at hd
    · exact .inr hd
    · exact .inl (List.mem_singleton.mp hd)
  | _ => exact .inl (List.mem_singleton.mp hd)

theorem Evaluated.of_mem_splice (he : e.Evaluated) (hd : d ∈ e.splice op) : d.Evaluated := by
  rcases mem_operands_of_mem_splice hd with rfl | hd
  · exact he
  · exact he.of_mem_operands hd

theorem exists_mem_splice_of_mem_parts {p : Policy} (hd : d ∈ p.parts op es) :
    ∃ e ∈ es, d ∈ e.splice op :=
  List.mem_flatMap.mp (mem_of_mem_sortDistinct (List.mem_filter.mp hd).1)

theorem evaluated_of_mem_parts (hes : ∀ e ∈ es, e.Evaluated) (hd : d ∈ standard.parts op es) :
    d.Evaluated := by
  obtain ⟨e, he, hd⟩ := exists_mem_splice_of_mem_parts hd
  exact (hes e he).of_mem_splice hd

/-- Evaluated operands are combined to an evaluated expression. -/
theorem evaluated_combine (hes : ∀ e ∈ es, e.Evaluated) : (standard.combine op es).Evaluated := by
  rw [combine]
  split_ifs
  · exact .truth _
  · split
    · exact .truth _
    · next d hparts =>
      exact evaluated_of_mem_parts hes (hparts ▸ List.mem_singleton_self d)
    · exact evaluated_minimize op _

/-! ### Expressions built by the standard policy -/

/-- Evaluated nodes stand in the expression only as evaluation leaves them. Above them there may be
raw nodes. -/
inductive Settled : Expr → Prop
  | evaluated {e : Expr} (he : Evaluated e) : Settled e
  | not {e : Expr} (he : Settled e) : Settled (.not .raw e)
  | join {op : Connective} {es : List Expr} (hes : ∀ e ∈ es, Settled e) :
    Settled (.join .raw op es)

theorem Settled.of_mem_operands (he : e.Settled) (hd : d ∈ e.operands) : d.Settled := by
  cases he with
  | evaluated he => exact .evaluated (he.of_mem_operands hd)
  | not he =>
    rw [List.mem_singleton.mp hd]
    exact he
  | join hes => exact hes d hd

theorem eval_not_raw (e : Expr) : (Expr.not .raw e).eval = standard.complement e.eval := by
  rw [Expr.eval, Policy.eval]
  rfl

theorem eval_join_raw (op : Connective) (es : List Expr) :
    (Expr.join .raw op es).eval = standard.combine op (es.map eval) := by
  rw [Expr.eval, Policy.eval, evalAll_eq_map]
  rfl

/-- The evaluated form of a settled expression is an evaluated expression. -/
theorem Settled.evaluated_eval (he : e.Settled) : e.eval.Evaluated := by
  induction he with
  | evaluated he =>
    rw [he.eval_eq]
    exact he
  | not _ ih =>
    rw [eval_not_raw]
    exact evaluated_complement ih
  | join _ ih =>
    rw [eval_join_raw]
    refine evaluated_combine fun d hd ↦ ?_
    obtain ⟨e, he, rfl⟩ := List.mem_map.mp hd
    exact ih e he

/-- An expression that is built by the standard policy: from constants and symbols by negations and
joins of either mode, and by taking the operands of what is built. -/
inductive Built : Expr → Prop
  | truth (value : Bool) : Built (.truth value)
  | symbol (name : Symbol) : Built (.symbol name)
  | negation (mode : Mode) {e : Expr} (he : Built e) : Built (standard.negation mode e)
  | join (mode : Mode) (op : Connective) {es : List Expr} (hes : ∀ e ∈ es, Built e) :
    Built (standard.join mode op es)
  | operand {d e : Expr} (he : Built e) (hd : d ∈ e.operands) : Built d

theorem settled_negation (mode : Mode) (he : e.Settled) : (standard.negation mode e).Settled := by
  cases mode with
  | evaluated => exact .evaluated (evaluated_complement he.evaluated_eval)
  | raw => exact .not he

theorem settled_join (mode : Mode) (op : Connective) (hes : ∀ e ∈ es, e.Settled) :
    (standard.join mode op es).Settled := by
  cases mode with
  | evaluated =>
    refine .evaluated (evaluated_combine fun d hd ↦ ?_)
    obtain ⟨e, he, rfl⟩ := List.mem_map.mp hd
    exact (hes e he).evaluated_eval
  | raw => exact .join hes

/-- What is built by the standard policy is settled. -/
theorem Built.settled (he : e.Built) : e.Settled := by
  induction he with
  | truth value => exact .evaluated (.truth value)
  | symbol name => exact .evaluated (.symbol name)
  | negation mode _ ih => exact settled_negation mode ih
  | join mode op _ ih => exact settled_join mode op ih
  | operand _ hd ih => exact ih.of_mem_operands hd

end Expr

end SwitchingAlgebra
