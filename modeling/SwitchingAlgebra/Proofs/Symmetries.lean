import Mathlib
import SwitchingAlgebra.Proofs.EvaluatedSymbols
import SwitchingAlgebra.Proofs.Grouping

/-!
# Evaluation commutes with symmetries

A map that goes through every node of an expression may turn the connectives, the constants and the
symbols into others. Evaluation looks at the nodes of an expression, compares parts of it, and
brings operands into minimum two-level form. So it commutes with the map when the map keeps
evaluated expressions apart and carries the minimum two-level forms to such forms. The latter need
not be checked on the whole form: it is enough that the terms of the minimum cover are carried to
terms and that the clauses made from them are compared as before.

Main statements: a map that carries the terms of minimum covers carries minimum two-level forms
(`NodeMap.minimize_eq`), and evaluation commutes with every symmetry (`Symmetry.eval`).
-/

set_option autoImplicit false
set_option relaxedAutoImplicit false

namespace SwitchingAlgebra

open Policy

variable {P : Symbol → Prop} {turn : Connective → Connective} {flip : Bool → Bool}
  {f : Expr → Expr} {op : Connective} {d e : Expr} {es : List Expr}

namespace Expr

/-! ### Maps through every node -/

/-- A map that goes through every node of an expression. It turns connectives and constants so that
the identity of a connective stays its identity, and symbols into symbols. -/
structure NodeMap (turn : Connective → Connective) (flip : Bool → Bool) (f : Expr → Expr) :
    Prop where
  truth : ∀ value, f (.truth value) = .truth (flip value)
  symbol : ∀ s, ∃ t, f (.symbol s) = .symbol t
  not : ∀ mode e, f (.not mode e) = .not mode (f e)
  join : ∀ mode op es, f (.join mode op es) = .join mode (turn op) (es.map f)
  turn_injective : Function.Injective turn
  flip_not : ∀ value, flip (!value) = !flip value
  identity : ∀ op, (turn op).identity = flip op.identity

namespace NodeMap

theorem annihilator (hf : NodeMap turn flip f) (op : Connective) :
    (turn op).annihilator = flip op.annihilator := by
  rw [Connective.annihilator, Connective.annihilator, hf.identity, hf.flip_not]

theorem joinLeft_map (hf : NodeMap turn flip f) (op : Connective) (identity : Expr)
    (es : List Expr) :
    joinLeft (turn op) (f identity) (es.map f) = f (joinLeft op identity es) := by
  match es with
  | [] => rfl
  | [e] => rfl
  | d :: e :: rest => exact (hf.join .evaluated op (d :: e :: rest)).symm

theorem splice_map (hf : NodeMap turn flip f) (op : Connective) (e : Expr) :
    (f e).splice (turn op) = (e.splice op).map f := by
  cases e with
  | truth value => simp [splice, hf.truth]
  | symbol s =>
    obtain ⟨t, ht⟩ := hf.symbol s
    simp [splice, ht]
  | not mode operand => simp [splice, hf.not]
  | join mode child es =>
    rw [hf.join, splice, splice]
    by_cases hchild : child = op
    · rw [if_pos hchild, if_pos (congrArg turn hchild)]
    · rw [if_neg hchild, if_neg fun hturn ↦ hchild (hf.turn_injective hturn), List.map_singleton,
        hf.join]

theorem complement_map (hf : NodeMap turn flip f) (e : Expr) :
    standard.complement (f e) = f (standard.complement e) := by
  cases e with
  | truth value =>
    rw [Policy.complement, hf.truth, hf.truth, Policy.complement]
    exact congrArg Expr.truth (hf.flip_not value).symm
  | symbol s =>
    obtain ⟨t, ht⟩ := hf.symbol s
    rw [Policy.complement, hf.not, ht, Policy.complement]
  | not mode operand => rw [Policy.complement, hf.not, Policy.complement]
  | join mode op es => rw [Policy.complement, hf.not, hf.join, Policy.complement]

/-- A minimum two-level form is carried to a minimum two-level form when the terms of the minimum
cover are carried to those of the other one, and the clauses made from them are compared alike. -/
theorem minimize_eq (hf : NodeMap turn flip f) (change : Term → Term)
    (hterms : (TwoLevel.ofOperands (turn op) (es.map f)).termsOf
        (TwoLevel.ofOperands (turn op) (es.map f)).cover.minimum =
      ((TwoLevel.ofOperands op es).termsOf (TwoLevel.ofOperands op es).cover.minimum).map change)
    (hnil : ∀ t, change t = [] ↔ t = [])
    (hclause : ∀ t, standard.term (turn op) (standard.literalsOf (change t)) =
      f (standard.term op (standard.literalsOf t)))
    (hcompare : ∀ t ∈ (TwoLevel.ofOperands op es).termsOf (TwoLevel.ofOperands op es).cover.minimum,
      ∀ u ∈ (TwoLevel.ofOperands op es).termsOf (TwoLevel.ofOperands op es).cover.minimum,
        compare (f (standard.term op (standard.literalsOf t)))
            (f (standard.term op (standard.literalsOf u))) =
          compare (standard.term op (standard.literalsOf t))
            (standard.term op (standard.literalsOf u))) :
    standard.minimize (turn op) (es.map f) = f (standard.minimize op es) := by
  rw [Policy.minimize_eq, Policy.minimize_eq, hterms]
  generalize (TwoLevel.ofOperands op es).termsOf (TwoLevel.ofOperands op es).cover.minimum = terms
    at hcompare
  have hwhole : [] ∈ terms.map change ↔ [] ∈ terms := by simp [hnil]
  have hclauses : ((terms.map change).map fun t ↦
        standard.term (turn op) (standard.literalsOf t)) =
      (terms.map fun t ↦ standard.term op (standard.literalsOf t)).map f := by
    rw [List.map_map, List.map_map]
    exact List.map_congr_left fun t _ ↦ hclause t
  have hdistinct : Expr.distinct
        ((terms.map fun t ↦ standard.term op (standard.literalsOf t)).map f) =
      (Expr.distinct (terms.map fun t ↦ standard.term op (standard.literalsOf t))).map f :=
    sortDistinct_map (List.forall_mem_map.mpr fun t ht ↦
      List.forall_mem_map.mpr fun u hu ↦ hcompare t ht u hu)
  have htruth : ∀ value : Bool, f (.truth (standard.truth value)) =
      .truth (standard.truth (flip value)) := hf.truth
  rw [hclauses, hdistinct, hf.annihilator, hf.identity, ← htruth, ← htruth]
  by_cases hmem : [] ∈ terms
  · rw [if_pos hmem, if_pos (hwhole.mpr hmem)]
  · rw [if_neg hmem, if_neg fun hmapped ↦ hmem (hwhole.mp hmapped), hf.joinLeft_map]

end NodeMap

/-! ### Symmetries -/

/-- A map through every node that, for expressions in symbols with the property, keeps evaluated
expressions apart and carries minimum two-level forms to such forms. -/
structure Symmetry (P : Symbol → Prop) (turn : Connective → Connective) (flip : Bool → Bool)
    (f : Expr → Expr) : Prop extends NodeMap turn flip f where
  injective : ∀ {d e : Expr}, d.Evaluated → e.Evaluated → d.MentionsOnly P → e.MentionsOnly P →
    f d = f e → d = e
  minimize : ∀ {op : Connective} {es : List Expr}, (∀ e ∈ es, e.MentionsOnly P) →
    standard.minimize (turn op) (es.map f) = f (standard.minimize op es)

namespace Symmetry

theorem isMinimum_map (hf : Symmetry P turn flip f) (hes : IsMinimum op es)
    (hsymbols : ∀ e ∈ es, e.MentionsOnly P) : IsMinimum (turn op) (es.map f) := by
  rw [IsMinimum, hf.minimize hsymbols, hes, hf.join]

/-- Evaluated expressions are carried to evaluated expressions. -/
theorem evaluated_map (hf : Symmetry P turn flip f) (he : e.Evaluated)
    (hsymbols : e.MentionsOnly P) : (f e).Evaluated := by
  cases he with
  | truth value =>
    rw [hf.truth]
    exact .truth _
  | symbol s =>
    obtain ⟨t, ht⟩ := hf.symbol s
    rw [ht]
    exact .symbol t
  | join hes =>
    rw [hf.join]
    exact .join (hf.isMinimum_map hes (mentionsOnly_join_iff.mp hsymbols))
  | notSymbol s =>
    obtain ⟨t, ht⟩ := hf.symbol s
    rw [hf.not, ht]
    exact .notSymbol t
  | notJoin hes =>
    rw [hf.not, hf.join]
    have hes' := mentionsOnly_join_iff.mp (mentionsOnly_not_iff.mp hsymbols)
    exact .notJoin (hf.isMinimum_map hes hes')

/-- So are settled ones to settled ones. -/
theorem settled_map (hf : Symmetry P turn flip f) (he : e.Settled)
    (hsymbols : e.MentionsOnly P) : (f e).Settled := by
  induction he with
  | evaluated he => exact .evaluated (hf.evaluated_map he hsymbols)
  | not _ ih =>
    rw [hf.not]
    exact .not (ih (mentionsOnly_not_iff.mp hsymbols))
  | join _ ih =>
    rw [hf.join]
    exact .join (List.forall_mem_map.mpr fun e hmem ↦
      ih e hmem (mentionsOnly_join_iff.mp hsymbols e hmem))

theorem mem_parts_map_iff (hf : Symmetry P turn flip f) (hes : ∀ e ∈ es, e.Evaluated)
    (hsymbols : ∀ e ∈ es, e.MentionsOnly P) :
    d ∈ standard.parts (turn op) (es.map f) ↔ d ∈ (standard.parts op es).map f := by
  have hmapped : ∀ e ∈ es.map f, e.Evaluated := List.forall_mem_map.mpr fun e he ↦
    hf.evaluated_map (hes e he) (hsymbols e he)
  have hidentity : Expr.truth (turn op).identity = f (.truth op.identity) := by
    rw [hf.truth, hf.identity]
  have hspliced : ∀ {c e : Expr}, e ∈ es → c ∈ e.splice op → c.Evaluated ∧ c.MentionsOnly P := by
    intro c e he hc
    refine ⟨(hes e he).of_mem_splice hc, ?_⟩
    rcases mem_operands_of_mem_splice hc with rfl | hc
    · exact hsymbols c he
    · exact (hsymbols e he).of_mem_operands hc
  rw [mem_parts_iff hmapped, hidentity, List.mem_map]
  constructor
  · rintro ⟨⟨_, hmem, hd⟩, hne⟩
    obtain ⟨e, he, rfl⟩ := List.mem_map.mp hmem
    rw [hf.splice_map] at hd
    obtain ⟨c, hc, rfl⟩ := List.mem_map.mp hd
    exact ⟨c, (mem_parts_iff hes).mpr ⟨⟨e, he, hc⟩, fun heq ↦ hne (congrArg f heq)⟩, rfl⟩
  · rintro ⟨c, hc, rfl⟩
    obtain ⟨⟨e, he, hc⟩, hne⟩ := (mem_parts_iff hes).mp hc
    have hmem : f c ∈ (f e).splice (turn op) := by
      rw [hf.splice_map]
      exact List.mem_map_of_mem hc
    refine ⟨⟨f e, List.mem_map_of_mem he, hmem⟩, fun heq ↦ hne ?_⟩
    obtain ⟨hevaluated, honly⟩ := hspliced he hc
    exact hf.injective hevaluated (.truth _) honly (mentionsOnly_truth _) heq

/-- The parts of the operands that a symmetry makes are those it makes of their parts, though they
may stand in another order. -/
theorem parts_map_perm (hf : Symmetry P turn flip f) (hes : ∀ e ∈ es, e.Evaluated)
    (hsymbols : ∀ e ∈ es, e.MentionsOnly P) :
    (standard.parts (turn op) (es.map f)).Perm ((standard.parts op es).map f) := by
  refine (List.perm_ext_iff_of_nodup (nodup_of_pairwise_lt (pairwise_parts _ _)) ?_).mpr
    fun d ↦ hf.mem_parts_map_iff hes hsymbols
  refine List.Nodup.map_on (fun d hd e he ↦ ?_) (nodup_of_pairwise_lt (pairwise_parts op es))
  exact hf.injective (evaluated_of_mem_parts hes hd) (evaluated_of_mem_parts hes he)
    (mentionsOnly_of_mem_parts hsymbols hd) (mentionsOnly_of_mem_parts hsymbols he)

/-- Combining evaluated operands commutes with a symmetry. -/
theorem combine_map (hf : Symmetry P turn flip f) (hes : ∀ e ∈ es, e.Evaluated)
    (hsymbols : ∀ e ∈ es, e.MentionsOnly P) :
    standard.combine (turn op) (es.map f) = f (standard.combine op es) := by
  have hperm := @parts_map_perm P turn flip f op es hf hes hsymbols
  by_cases hone : (standard.parts op es).length = 1
  · obtain ⟨d, hd⟩ := List.length_eq_one_iff.mp hone
    rw [hd, List.map_singleton, List.perm_singleton] at hperm
    rw [combine_of_parts_eq_singleton hd, combine_of_parts_eq_singleton hperm]
  · have hlength := hperm.length_eq
    rw [List.length_map] at hlength
    rw [combine_eq_minimize_of_length_ne hone, combine_eq_minimize_of_length_ne (hlength ▸ hone),
      hf.minimize hsymbols]

/-- Evaluation commutes with a symmetry. -/
theorem eval (hf : Symmetry P turn flip f) (he : e.Settled) (hsymbols : e.MentionsOnly P) :
    (f e).eval = f e.eval := by
  induction he with
  | evaluated he => rw [(hf.evaluated_map he hsymbols).eval_eq, he.eval_eq]
  | @not e he ih =>
    have honly := mentionsOnly_not_iff.mp hsymbols
    rw [hf.not, Settled.eval_not (.not (hf.settled_map he honly)), Settled.eval_not (.not he),
      ih honly, hf.complement_map]
  | @join op es hes ih =>
    have honly := mentionsOnly_join_iff.mp hsymbols
    have hmapped : ∀ e ∈ es.map f, e.Settled := List.forall_mem_map.mpr fun e hmem ↦
      hf.settled_map (hes e hmem) (honly e hmem)
    have heval : (es.map f).map Expr.eval = (es.map Expr.eval).map f := by
      rw [List.map_map, List.map_map]
      exact List.map_congr_left fun e hmem ↦ ih e hmem (honly e hmem)
    rw [hf.join, Settled.eval_join (.join hmapped), Settled.eval_join (.join hes), heval]
    refine hf.combine_map ?_ ?_
    · exact List.forall_mem_map.mpr fun e hmem ↦ (hes e hmem).evaluated_eval
    · exact List.forall_mem_map.mpr fun e hmem ↦ standard.mentionsOnly_eval e (honly e hmem)

end Symmetry

end Expr

end SwitchingAlgebra
