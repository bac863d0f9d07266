import Mathlib
import SwitchingAlgebra.Proofs.Printing
import SwitchingAlgebra.Proofs.Reachable

/-!
# Flattened forms

Flattening takes the joins away that stand directly below a join of the same connective, and marks
what is left as raw. An operand that is spliced in was flattened before, so none of its operands is
spliced again, and an expression in flattened form stays as it is.

Splicing keeps the constants and symbols in their order. It keeps the written form as well: a join
below a join of the same connective is written without parentheses, and whether an operand has
parentheses depends on its connective, which flattening does not change. Only a join of nothing
would leave its sign behind.

Main statement: `flatten_spec`.
-/

set_option autoImplicit false
set_option relaxedAutoImplicit false

namespace SwitchingAlgebra.Expr

open Policy

variable {mode : Mode} {op : Connective} {d e : Expr} {es : List Expr}

/-! ### Flattened form -/

/-- All negations and joins are raw, and no join has an operand of its own connective. -/
inductive IsFlattened : Expr → Prop
  | truth (value : Bool) : IsFlattened (.truth value)
  | symbol (name : Symbol) : IsFlattened (.symbol name)
  | not {e : Expr} (he : IsFlattened e) : IsFlattened (.not .raw e)
  | join {op : Connective} {es : List Expr} (hes : ∀ e ∈ es, IsFlattened e)
    (hnested : ∀ e ∈ es, e.connective? ≠ some op) : IsFlattened (.join .raw op es)

theorem IsFlattened.of_mem_operands (he : e.IsFlattened) (hd : d ∈ e.operands) :
    d.IsFlattened := by
  cases he with
  | truth => cases hd
  | symbol => cases hd
  | not he => exact List.mem_singleton.mp hd ▸ he
  | join hes _ => exact hes d hd

/-- What an expression in flattened form contributes to a join is no join of the connective. -/
theorem IsFlattened.connective?_ne_of_mem_splice (he : e.IsFlattened) (hd : d ∈ e.splice op) :
    d.connective? ≠ some op := by
  rcases splice_cases op e with ⟨mode, es, rfl⟩ | ⟨hne, hsplice⟩
  · rw [splice_join_self] at hd
    cases he with | join _ hnested =>
    exact hnested d hd
  · rw [hsplice, List.mem_singleton] at hd
    rwa [hd]

theorem isFlattened_flatten (e : Expr) : (standard.flatten e).IsFlattened := by
  induction e using Expr.induct with
  | truth value =>
    rw [flatten]
    exact .truth value
  | symbol name =>
    rw [flatten]
    exact .symbol name
  | not mode operand ih =>
    rw [flatten_not]
    exact .not ih
  | join mode op operands ih =>
    rw [flatten_join]
    refine .join (fun d hd ↦ ?_) fun d hd ↦ ?_
    · obtain ⟨e, he, hd⟩ := List.mem_flatMap.mp hd
      rcases mem_operands_of_mem_splice hd with rfl | hd
      · exact ih e he
      · exact (ih e he).of_mem_operands hd
    · obtain ⟨e, he, hd⟩ := List.mem_flatMap.mp hd
      exact (ih e he).connective?_ne_of_mem_splice hd

/-- An expression in flattened form stays as it is. -/
theorem IsFlattened.flatten_eq (he : e.IsFlattened) : standard.flatten e = e := by
  induction he with
  | truth => rw [flatten]
  | symbol => rw [flatten]
  | not _ ih => rw [flatten_not, ih]
  | @join op es _ hnested ih =>
    have hoperands : ∀ e ∈ es, (standard.flatten e).splice op = [e] := by
      intro e he
      rw [ih e he, splice_eq_singleton_of_connective? (hnested e he)]
    rw [flatten_join, List.flatMap_congr hoperands, List.flatMap_singleton']

/-! ### Leaves -/

mutual

/-- The constants and symbols of an expression, from left to right. -/
def leaves : Expr → List Expr
  | truth value => [truth value]
  | symbol name => [symbol name]
  | not _ operand => operand.leaves
  | join _ _ operands => leavesAll operands

/-- The constants and symbols of a list of expressions, from left to right. -/
def leavesAll : List Expr → List Expr
  | [] => []
  | e :: rest => e.leaves ++ leavesAll rest

end

theorem leavesAll_eq_flatMap (es : List Expr) : leavesAll es = es.flatMap leaves := by
  induction es with
  | nil => rw [leavesAll, List.flatMap_nil]
  | cons e rest ih => rw [leavesAll, ih, List.flatMap_cons]

/-- What an expression contributes to a join has the leaves of the expression. -/
theorem flatMap_leaves_splice (op : Connective) (e : Expr) :
    (e.splice op).flatMap leaves = e.leaves := by
  rcases splice_cases op e with ⟨mode, es, rfl⟩ | ⟨-, hsplice⟩
  · rw [splice_join_self, leaves, leavesAll_eq_flatMap]
  · rw [hsplice, List.flatMap_singleton]

theorem leaves_flatten (e : Expr) : (standard.flatten e).leaves = e.leaves := by
  induction e using Expr.induct with
  | truth value => rw [flatten]
  | symbol name => rw [flatten]
  | not mode operand ih => rw [flatten_not, leaves, leaves, ih]
  | join mode op operands ih =>
    rw [flatten_join, leaves, leaves, leavesAll_eq_flatMap, leavesAll_eq_flatMap,
      List.flatMap_assoc]
    exact List.flatMap_congr fun e he ↦ (flatMap_leaves_splice op _).trans (ih e he)

/-! ### Written form -/

/-- Every join in the expression has an operand. `Policy.join?` refuses to build any other. -/
def IsFilled (e : Expr) : Prop :=
  ∀ mode op, ¬ (Expr.join mode op []).IsNode e

/-- An expression has no empty join when it is none and its operands have none. -/
theorem isFilled_iff :
    e.IsFilled ↔ (∀ mode op, e ≠ .join mode op []) ∧ ∀ d ∈ e.operands, d.IsFilled := by
  constructor
  · exact fun he ↦ ⟨fun mode op heq ↦ he mode op (heq ▸ .refl),
      fun d hd mode op hnode ↦ he mode op (hnode.head hd)⟩
  · intro ⟨hself, hoperands⟩ mode op hnode
    rcases isNode_iff.mp hnode with heq | ⟨d, hd, hnode⟩
    · exact hself mode op heq.symm
    · exact hoperands d hd mode op hnode

theorem isFilled_truth (value : Bool) : (Expr.truth value).IsFilled := by
  rw [isFilled_iff]
  simp [operands]

theorem isFilled_symbol (name : Symbol) : (Expr.symbol name).IsFilled := by
  rw [isFilled_iff]
  simp [operands]

theorem isFilled_not_iff : (Expr.not mode e).IsFilled ↔ e.IsFilled := by
  rw [isFilled_iff]
  simp [operands]

theorem isFilled_join_iff :
    (Expr.join mode op es).IsFilled ↔ es ≠ [] ∧ ∀ e ∈ es, e.IsFilled := by
  rw [isFilled_iff]
  simp [operands]

theorem IsFilled.splice_ne_nil (he : e.IsFilled) (op : Connective) : e.splice op ≠ [] := by
  rcases splice_cases op e with ⟨mode, es, rfl⟩ | ⟨-, hsplice⟩
  · rw [splice_join_self]
    exact (isFilled_join_iff.mp he).1
  · rw [hsplice]
    exact List.cons_ne_nil e []

theorem isFilled_flatten (e : Expr) : e.IsFilled → (standard.flatten e).IsFilled := by
  induction e using Expr.induct with
  | truth value =>
    rw [flatten]
    exact id
  | symbol name =>
    rw [flatten]
    exact id
  | not mode operand ih =>
    rw [flatten_not, isFilled_not_iff, isFilled_not_iff]
    exact ih
  | join mode op operands ih =>
    rw [flatten_join, isFilled_join_iff, isFilled_join_iff]
    rintro ⟨hne, hoperands⟩
    have hflatten : ∀ e ∈ operands, (standard.flatten e).IsFilled := fun e he ↦
      ih e he (hoperands e he)
    refine ⟨?_, fun d hd ↦ ?_⟩
    · have hlength := length_le_length_flatMap fun e he ↦ (hflatten e he).splice_ne_nil op
      exact List.ne_nil_of_length_pos ((List.length_pos_of_ne_nil hne).trans_le hlength)
    · obtain ⟨e, he, hd⟩ := List.mem_flatMap.mp hd
      rcases mem_operands_of_mem_splice hd with rfl | hd
      · exact hflatten e he
      · exact (isFilled_iff.mp (hflatten e he)).2 d hd

/-- Below a join of its own connective a join is written without parentheses. -/
theorem needsParentheses_eq_false (hsame : e.connective? = some op) :
    needsParentheses op e = false := by
  cases op <;> simp [needsParentheses, hsame]

theorem joinedText_append {es fs : List Expr} (hes : es ≠ []) (hfs : fs ≠ []) :
    joinedText op (es ++ fs) = joinedText op es ++ (op.sign ++ joinedText op fs) := by
  match es, fs with
  | [e], f :: fs => rw [List.singleton_append, joinedText, joinedText, String.append_assoc]
  | e :: d :: rest, f :: fs =>
    have hrest := joinedText_append (List.cons_ne_nil d rest) (List.cons_ne_nil f fs)
    rw [List.cons_append] at hrest ⊢
    rw [List.cons_append, joinedText, joinedText, hrest]
    simp only [String.append_assoc]

/-- Operands may be replaced by operands that are written like them. -/
theorem joinedText_flatMap {es : List Expr} {group : Expr → List Expr}
    (hgroup : ∀ e ∈ es, group e ≠ [])
    (htext : ∀ e ∈ es, joinedText op (group e) = joinedText op [e]) :
    joinedText op (es.flatMap group) = joinedText op es := by
  match es with
  | [] => rfl
  | [e] => rw [List.flatMap_singleton, htext e List.mem_cons_self]
  | e :: d :: rest =>
    have hrest := joinedText_flatMap (fun f hf ↦ hgroup f (List.mem_cons_of_mem e hf))
      fun f hf ↦ htext f (List.mem_cons_of_mem e hf)
    have hne : (d :: rest).flatMap group ≠ [] := by
      rw [List.flatMap_cons]
      exact List.append_ne_nil_of_left_ne_nil (hgroup d (by simp)) _
    rw [List.flatMap_cons, joinedText_append (hgroup e List.mem_cons_self) hne, hrest,
      htext e List.mem_cons_self,
      ← joinedText_append (List.cons_ne_nil e []) (List.cons_ne_nil d _), List.singleton_append]

/-- What the flattened form of an operand contributes to a join is written like the operand, if the
flattened form is. -/
theorem joinedText_splice_flatten (op : Connective) (htext : (standard.flatten e).text = e.text) :
    joinedText op ((standard.flatten e).splice op) = joinedText op [e] := by
  have hconnective := connective?_flatten e
  rw [joinedText, ← htext]
  rcases splice_cases op (standard.flatten e) with ⟨mode, fs, hjoin⟩ | ⟨-, hsplice⟩
  · rw [hjoin] at hconnective ⊢
    rw [splice_join_self, needsParentheses_eq_false hconnective.symm, text]
    rfl
  · rw [hsplice, joinedText, needsParentheses, hconnective, needsParentheses]

theorem text_flatten (e : Expr) : e.IsFilled → (standard.flatten e).text = e.text := by
  induction e using Expr.induct with
  | truth value =>
    rw [flatten]
    exact fun _ ↦ rfl
  | symbol name =>
    rw [flatten]
    exact fun _ ↦ rfl
  | not mode operand ih =>
    intro he
    rw [flatten_not, text, text, connective?_flatten, ih (isFilled_not_iff.mp he)]
  | join mode op operands ih =>
    intro he
    have hoperands := (isFilled_join_iff.mp he).2
    rw [flatten_join, text, text]
    exact joinedText_flatMap (fun e hmem ↦ (isFilled_flatten e (hoperands e hmem)).splice_ne_nil op)
      fun e hmem ↦ joinedText_splice_flatten op (ih e hmem (hoperands e hmem))

/-- Flattening takes all joins away that stand directly below a join of the same connective, and
nothing else: the constants and symbols from left to right are those of the expression, and so is
the written form, if every join has an operand. Every negation and join of the result is raw, and
flattening the result changes nothing. -/
theorem flatten_spec (e : Expr) :
    (∀ mode op es, (Expr.join mode op es).IsNode (standard.flatten e) →
      ∀ d ∈ es, d.connective? ≠ some op) ∧
    (standard.flatten e).leaves = e.leaves ∧
    (e.IsFilled → (standard.flatten e).text = e.text) ∧
    (∀ mode operand, (Expr.not mode operand).IsNode (standard.flatten e) → mode = .raw) ∧
    (∀ mode op es, (Expr.join mode op es).IsNode (standard.flatten e) → mode = .raw) ∧
    standard.flatten (standard.flatten e) = standard.flatten e := by
  have hflattened := isFlattened_flatten e
  have hnodes : ∀ d : Expr, d.IsNode (standard.flatten e) → d.IsFlattened := fun d hnode ↦
    hnode.inherits IsFlattened.of_mem_operands hflattened
  refine ⟨fun mode op es hnode ↦ ?_, leaves_flatten e, text_flatten e, fun mode operand hnode ↦ ?_,
    fun mode op es hnode ↦ ?_, hflattened.flatten_eq⟩
  · cases hnodes _ hnode with | join _ hnested =>
    exact hnested
  · cases hnodes _ hnode with | not _ => rfl
  · cases hnodes _ hnode with | join _ _ => rfl

/-- A sum in a sum and a product in a product, some of them of a single operand, with a negation
between them. -/
def chainedForm : Expr :=
  .join .raw .or [.join .raw .or [.join .raw .and [.join .evaluated .and [.symbol (.name "a")]]],
    .not .evaluated (.join .raw .and [.join .raw .and [.symbol (.name "b"),
      .join .raw .or [.truth true]], .symbol (.name "c")])]

/-- The chained form loses one sum and two products. Joins of a single operand stay where they are
below the other connective, and so do their parentheses. -/
theorem flatten_spec_chainedForm : chainedForm.IsFilled ∧
    standard.flatten chainedForm = .join .raw .or [.join .raw .and [.symbol (.name "a")],
      .not .raw (.join .raw .and [.symbol (.name "b"), .join .raw .or [.truth true],
        .symbol (.name "c")])] ∧
    (standard.flatten chainedForm).text = "a+(b∙(1)∙c)'" ∧
    (standard.flatten chainedForm).leaves = [.symbol (.name "a"), .symbol (.name "b"), .truth true,
      .symbol (.name "c")] ∧
    standard.flatten (standard.flatten chainedForm) = standard.flatten chainedForm := by
  have hfilled : chainedForm.IsFilled := by
    simp [chainedForm, isFilled_join_iff, isFilled_not_iff, isFilled_truth, isFilled_symbol]
  have hflatten : standard.flatten chainedForm =
      .join .raw .or [.join .raw .and [.symbol (.name "a")],
        .not .raw (.join .raw .and [.symbol (.name "b"), .join .raw .or [.truth true],
          .symbol (.name "c")])] := by cbv
  have hleaves : chainedForm.leaves = [.symbol (.name "a"), .symbol (.name "b"), .truth true,
      .symbol (.name "c")] := by cbv
  have htext : chainedForm.text = "a+(b∙(1)∙c)'" := by cbv
  obtain ⟨-, hkept, hwritten, -, -, hagain⟩ := flatten_spec chainedForm
  exact ⟨hfilled, hflatten, (hwritten hfilled).trans htext, hkept.trans hleaves, hagain⟩

end SwitchingAlgebra.Expr
