import Mathlib
import SwitchingAlgebra.Proofs.MinimumCover
import SwitchingAlgebra.Proofs.Shapes
import SwitchingAlgebra.Proofs.TwoLevel

/-!
# Evaluation keeps the value

A policy that builds the constants and connectives it is asked for keeps the value of every
expression that it evaluates. The operands of a join are expanded into terms, the cover of the terms
and its minimum have the same points, and each cube of the minimum is turned back into an operand
that decides the connective on the points of the cube alone.

Main statements: the two-level form has the value of the join (`holds_minimize`), so has the
combination of evaluated operands (`holds_combine`), and evaluation keeps the value (`holds_eval`).
-/

set_option autoImplicit false
set_option relaxedAutoImplicit false

namespace SwitchingAlgebra

namespace TwoLevel

variable {op : Connective} {assignment : Symbol → Bool}

/-- The sum of a two-level form is true when the value of the join decides its connective. -/
theorem sum_ofOperands (mode : Mode) (operands : List Expr) :
    (ofOperands op operands).sum (op.orient assignment) =
      op.decides ((Expr.join mode op operands).holds assignment) := by
  rw [sum, ofOperands, Term.allHold_distinct, Connective.decides_join, Bool.eq_iff_iff,
    Term.allHold, List.any_flatMap, List.any_eq_true, List.any_eq_true]
  refine exists_congr fun e ↦ and_congr_right fun _ ↦ ?_
  have hterms : Term.allHold (op.orient assignment) .or (e.terms op false) =
      op.decides (e.holds assignment) := by
    rw [Expr.allHold_orient_terms, Bool.bne_false]
  rw [← hterms]
  rfl

end TwoLevel

namespace Policy

/-- A policy that builds the constants and the connectives it is asked for. -/
structure Faithful (p : Policy) : Prop where
  truth : ∀ value, p.truth value = value
  connective : ∀ op, p.connective op = op

variable {p : Policy} {op : Connective} {assignment : Symbol → Bool}

/-! ### Rebuilt operands -/

theorem holds_literal (p : Policy) (l : Literal) :
    (p.literal l.symbol l.positive).holds assignment = l.holds assignment := by
  obtain ⟨s, positive⟩ := l
  cases positive <;> cases hvalue : assignment s <;> simp [literal, Literal.holds, hvalue]

/-- A rebuilt operand decides the connective when all its literals do. -/
theorem decides_term (hp : p.Faithful) (ls : List Expr) :
    op.decides ((p.term op ls).holds assignment) =
      ls.all fun l ↦ op.decides (l.holds assignment) := by
  match ls with
  | [] => simp [term, hp.truth]
  | [l] => simp [term]
  | l :: m :: rest =>
    have hterm : p.term op (l :: m :: rest) =
        .join (p.joinMode .evaluated) (p.connective op.dual) (l :: m :: rest) := rfl
    rw [hterm, hp.connective, Connective.decides_join_dual]

/-- The operand of a cube decides the connective when the cube contains the row of the assignment
turned around. -/
theorem decides_literals (hp : p.Faithful) {form : TwoLevel} (hform : form.WellFormed) {c : Cube}
    (hc : c.width = form.symbols.length) :
    op.decides ((p.term op (form.literals p c)).holds assignment) =
      c.contains (form.row (op.orient assignment)) := by
  rw [decides_term hp, TwoLevel.literals_eq, literalsOf, List.all_map,
    ← TwoLevel.holds_term hform hc, Term.holds]
  congr 1
  ext l
  rw [Function.comp_apply, holds_literal, Connective.decides_holds]

theorem holds_joinLeft (mode : Mode) (es : List Expr) :
    (joinLeft op (.truth op.identity) es).holds assignment =
      (Expr.join mode op es).holds assignment := by
  match es with
  | [] => cases op <;> simp [joinLeft, Connective.identity]
  | [e] => cases op <;> simp [joinLeft]
  | d :: e :: rest => cases op <;> simp [joinLeft]

/-- A minimum cover contains the row of an assignment when the value of the join decides its
connective. -/
theorem contains_minimum (mode : Mode) (operands : List Expr) :
    (TwoLevel.ofOperands op operands).cover.minimum.contains
        ((TwoLevel.ofOperands op operands).row (op.orient assignment)) =
      op.decides ((Expr.join mode op operands).holds assignment) := by
  have hcover := (TwoLevel.ofOperands op operands).wellFormed_cover
  have hlength : ((TwoLevel.ofOperands op operands).row (op.orient assignment)).length =
      (TwoLevel.ofOperands op operands).cover.minimum.width := by
    rw [Cover.width_minimum hcover, TwoLevel.length_row, TwoLevel.width_cover]
  have hpoints := Set.ext_iff.mp (Cover.points_minimum hcover)
    ((TwoLevel.ofOperands op operands).row (op.orient assignment))
  rw [Bool.eq_iff_iff, ← TwoLevel.sum_ofOperands mode,
    ← TwoLevel.row_mem_points_iff_sum (TwoLevel.wellFormed_ofOperands op operands), ← hpoints]
  exact ⟨fun hcontains ↦ ⟨hlength, hcontains⟩, fun hpoint ↦ hpoint.2⟩

/-- A cover with a cube that asks for nothing contains every row. -/
theorem contains_of_containsWhole {f : Cover} (hwhole : f.containsWhole = true)
    (point : List Bool) : f.contains point = true := by
  obtain ⟨c, hc, hcwhole⟩ := List.any_eq_true.mp hwhole
  refine List.any_eq_true.mpr ⟨c, hc, List.all_eq_true.mpr ?_⟩
  rintro ⟨column, value⟩ hmem
  have hnone := List.all_eq_true.mp hcwhole column (List.of_mem_zip hmem).1
  rw [Option.isNone_iff_eq_none.mp hnone]
  rfl

/-- The minimum two-level form of a join has its value. -/
theorem holds_minimize (hp : p.Faithful) (mode : Mode) (operands : List Expr) :
    (p.minimize op operands).holds assignment = (Expr.join mode op operands).holds assignment := by
  have hform := TwoLevel.wellFormed_ofOperands op operands
  have hcover := (TwoLevel.ofOperands op operands).wellFormed_cover
  apply @Connective.decides_injective op
  rw [← contains_minimum mode operands, minimize]
  by_cases hwhole : (TwoLevel.ofOperands op operands).cover.minimum.containsWhole = true
  · rw [if_pos hwhole, contains_of_containsWhole hwhole, hp.truth, Expr.holds_truth,
      Connective.decides_annihilator]
  · rw [if_neg hwhole, hp.truth, holds_joinLeft mode, Expr.holds_join_distinct mode mode,
      Connective.decides_join, List.any_map, Cover.contains, Bool.eq_iff_iff, List.any_eq_true,
      List.any_eq_true]
    refine exists_congr fun c ↦ and_congr_right fun hc ↦ ?_
    have hwidth := Cover.wellFormed_minimum hcover c hc
    rw [Cover.width_minimum hcover, TwoLevel.width_cover] at hwidth
    rw [Function.comp_apply, decides_literals hp hform hwidth]

/-! ### Combined operands -/

/-- Spliced operands have the value of the join when they are joined. -/
theorem holds_join_splice (mode : Mode) (operands : List Expr) :
    (Expr.join mode op (operands.flatMap (Expr.splice op))).holds assignment =
      (Expr.join mode op operands).holds assignment := by
  have hsplice : ∀ e : Expr, ((Expr.splice op e).any fun e ↦ op.decides (e.holds assignment)) =
      op.decides (e.holds assignment) := by
    intro e
    cases e with
    | join mode' child es =>
      rw [Expr.splice]
      split_ifs with hchild
      · rw [hchild, Connective.decides_join]
      · simp
    | _ => simp [Expr.splice]
  apply @Connective.decides_injective op
  rw [Connective.decides_join, Connective.decides_join, List.any_flatMap]
  simp only [hsplice]

theorem isTruth_iff {e : Expr} {value : Bool} : e.isTruth value = true ↔ e = .truth value := by
  cases e <;> simp [Expr.isTruth]

/-- The parts of a list of operands have the value of the join when they are joined. -/
theorem holds_join_parts (hp : p.Faithful) (mode : Mode) (operands : List Expr) :
    (Expr.join mode op (p.parts op operands)).holds assignment =
      (Expr.join mode op operands).holds assignment := by
  have hidentity : ∀ e : Expr, (!e.isTruth op.identity && op.decides (e.holds assignment)) =
      op.decides (e.holds assignment) := by
    intro e
    cases htruth : e.isTruth op.identity with
    | false => rfl
    | true =>
      rw [isTruth_iff.mp htruth, Expr.holds_truth, Connective.decides_identity]
      rfl
  have hfilter : (Expr.join mode op (p.parts op operands)).holds assignment =
      (Expr.join mode op (Expr.distinct (operands.flatMap (Expr.splice op)))).holds assignment := by
    apply @Connective.decides_injective op
    rw [Connective.decides_join, Connective.decides_join, parts, hp.truth, List.any_filter]
    simp only [hidentity]
  rw [hfilter, Expr.holds_join_distinct mode mode, holds_join_splice]

/-- The annihilator among the operands decides their join. -/
theorem decides_join_of_annihilator (mode : Mode) {es : List Expr}
    (hannihilator : es.any (Expr.isTruth op.annihilator) = true) :
    op.decides ((Expr.join mode op es).holds assignment) = true := by
  obtain ⟨e, he, htruth⟩ := List.any_eq_true.mp hannihilator
  rw [Connective.decides_join]
  refine List.any_eq_true.mpr ⟨e, he, ?_⟩
  rw [isTruth_iff.mp htruth, Expr.holds_truth, Connective.decides_annihilator]

/-- Combined operands have the value of their join. -/
theorem holds_combine (hp : p.Faithful) (mode : Mode) (operands : List Expr) :
    (p.combine op operands).holds assignment = (Expr.join mode op operands).holds assignment := by
  rw [← holds_join_parts hp, combine, hp.truth]
  split_ifs with hannihilator
  · apply @Connective.decides_injective op
    rw [Expr.holds_truth, Connective.decides_annihilator,
      decides_join_of_annihilator mode hannihilator]
  · have hminimum := @holds_minimize p op assignment hp mode (p.parts op operands)
    split
    · next hparts =>
      rw [hparts, hp.truth]
      cases op <;> simp [Connective.identity]
    · next e hparts =>
      rw [hparts]
      cases op <;> simp
    · exact hminimum

theorem holds_complement (hp : p.Faithful) (e : Expr) :
    (p.complement e).holds assignment = !e.holds assignment := by
  cases e <;> simp [complement, hp.truth]

/-! ### Evaluation -/

/-- Evaluation keeps the value. -/
theorem holds_eval (hp : p.Faithful) (e : Expr) :
    (p.eval e).holds assignment = e.holds assignment := by
  induction e using Expr.induct with
  | truth value => rw [eval]
  | symbol name => rw [eval]
  | not mode operand ih =>
    cases mode with
    | evaluated => rw [eval]
    | raw => rw [eval, holds_complement hp, ih, Expr.holds_not]
  | join mode op operands ih =>
    cases mode with
    | evaluated => rw [eval]
    | raw =>
      rw [eval, holds_combine hp .raw, evalAll_eq_map]
      exact Expr.holds_join_map ih

/-- Evaluating the operands keeps the value of their join. -/
theorem holds_join_map_eval (hp : p.Faithful) (mode : Mode) (es : List Expr) :
    (Expr.join mode op (es.map p.eval)).holds assignment =
      (Expr.join mode op es).holds assignment :=
  Expr.holds_join_map fun e _ ↦ holds_eval hp e

end Policy

end SwitchingAlgebra
