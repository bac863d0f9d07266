import Mathlib
import SwitchingAlgebra.Proofs.OperandOrder
import SwitchingAlgebra.Proofs.Reachable

/-!
# Substitution and plain replacement

Substitution builds nodes anew in their own mode where a part below them is replaced, and leaves
alone what holds no key. Plain replacement (`Expr.replaced`) knows nothing of modes: it puts values
in the places of keys and leaves every other node raw.

The two give different expressions that are evaluated to the same one. A node is evaluated from its
evaluated operands in whichever mode it is built, and a node that is left alone is evaluated from
its operands as well, because evaluated nodes are fixed points of evaluation.

Main statements: both are evaluated to the same expression (`eval_substitute`), and where all keys
are symbols, the result has under an assignment the value that the expression has when every key is
set to the value of what replaces it (`holds_replaced`).
-/

set_option autoImplicit false
set_option relaxedAutoImplicit false

namespace SwitchingAlgebra

open Policy

variable {m : Substitution} {d e : Expr} {es : List Expr}

/-! ### Replacement -/

namespace Expr

mutual

/-- The expression in which every part that equals a key is replaced by the value of the key. Parts
are replaced from the outside in, and a value is not searched again. All other nodes are raw. -/
def replaced (m : Substitution) : Expr → Expr
  | truth value => (m.reverse.lookup (truth value)).getD (truth value)
  | symbol name => (m.reverse.lookup (symbol name)).getD (symbol name)
  | not mode operand =>
    (m.reverse.lookup (not mode operand)).getD (not .raw (operand.replaced m))
  | join mode op operands =>
    (m.reverse.lookup (join mode op operands)).getD (join .raw op (replacedAll m operands))

/-- The expressions of a list with their parts replaced. -/
def replacedAll (m : Substitution) : List Expr → List Expr
  | [] => []
  | e :: rest => e.replaced m :: replacedAll m rest

end

theorem replacedAll_eq_map (m : Substitution) (es : List Expr) :
    replacedAll m es = es.map (replaced m) := by
  induction es with
  | nil => rw [replacedAll, List.map_nil]
  | cons e rest ih => rw [replacedAll, ih, List.map_cons]

end Expr

namespace Substitution

/-- A key is looked up by the equality of expressions, and of equal keys the last one counts. -/
theorem find?_eq_lookup (m : Substitution) (e : Expr) : m.find? e = m.reverse.lookup e := by
  have hkey : ∀ key : Expr, (compare key.shape e.shape == .eq) = (e == key) := by
    intro key
    have hshape : compare key.shape e.shape = .eq ↔ key.shape = e.shape :=
      Expr.compare_eq_iff_shape_eq
    rw [Bool.eq_iff_iff, beq_iff_eq, hshape, eq_comm, ← Expr.beq_iff_shape_eq]
  show (m.reverse.find? fun entry ↦ compare entry.1.shape e.shape == .eq).map (·.2) = _
  simp only [hkey]
  induction m.reverse with
  | nil => rfl
  | cons entry rest ih =>
    rw [List.find?_cons, List.lookup_cons]
    cases e == entry.1 with
    | false => exact ih
    | true => rfl

/-- The assignment in which every symbol that is a key has the value of what replaces it. -/
def rebound (m : Substitution) (assignment : Symbol → Bool) : Symbol → Bool := fun s ↦
  ((m.reverse.lookup (.symbol s)).map (Expr.holds assignment)).getD (assignment s)

/-- All keys are symbols. -/
def ReplacesSymbols (m : Substitution) : Prop :=
  ∀ entry ∈ m, ∃ s, entry.1 = .symbol s

/-- Where all keys are symbols, nothing else is replaced. -/
theorem ReplacesSymbols.lookup_eq_none (hm : m.ReplacesSymbols) (he : ∀ s, e ≠ .symbol s) :
    m.reverse.lookup e = none := by
  refine List.lookup_eq_none_iff.mpr fun entry hentry ↦ ?_
  obtain ⟨s, hs⟩ := hm entry (List.mem_reverse.mp hentry)
  have hne : ¬ (e == Expr.symbol s) = true := fun hequal ↦
    he s (Expr.eq_symbol_of_shape_eq (Expr.beq_iff_shape_eq.mp hequal).symm)
  rw [hs, bne, Bool.eq_false_of_not_eq_true hne, Bool.not_false]

end Substitution

namespace Expr

/-! ### Evaluation -/

/-- A negation that is no key is evaluated from its operand after substitution, whether or not
something is replaced below it. -/
theorem eval_substitute_not {mode : Mode} {operand : Expr}
    (hm : ∀ entry ∈ m, entry.2.Settled) (he : (not mode operand).Settled)
    (hkey : m.find? (not mode operand) = none) :
    ((not mode operand).substitute m).eval = standard.complement (operand.substitute m).eval := by
  have hoperand : (operand.substitute m).Settled :=
    Settled.substitute hm operand (he.of_mem_operands (List.mem_singleton_self operand))
  unfold Expr.substitute Policy.substitute at hoperand ⊢
  rw [replace?, hkey, Option.none_or]
  cases hreplace : standard.replace? m operand with
  | none => exact he.eval_not
  | some d =>
    rw [hreplace] at hoperand
    exact eval_built_negation mode hoperand

/-- So is a join that is no key from its operands. -/
theorem eval_substitute_join {mode : Mode} {op : Connective}
    (hm : ∀ entry ∈ m, entry.2.Settled) (he : (join mode op es).Settled)
    (hkey : m.find? (join mode op es) = none) :
    ((join mode op es).substitute m).eval =
      standard.combine op ((es.map (standard.substitute m)).map eval) := by
  have hoperands : ∀ d ∈ es.map (standard.substitute m), d.Settled :=
    List.forall_mem_map.mpr fun e hmem ↦ Settled.substitute hm e (he.of_mem_operands hmem)
  rw [← getD_replaceAll?] at hoperands ⊢
  rw [Expr.substitute, Policy.substitute, replace?, hkey, Option.none_or]
  cases hreplace : standard.replaceAll? m es with
  | none => exact he.eval_join
  | some ds =>
    rw [hreplace] at hoperands
    exact eval_built_join mode op hoperands

/-- A key gives its value, without further evaluation. -/
theorem substitute_of_find? (hkey : m.find? e = some d) : e.substitute m = d := by
  rw [Expr.substitute, Policy.substitute]
  cases e with
  | truth value =>
    -- A constant is left alone where it would be replaced by itself.
    rw [replace?, hkey, Option.filter_some]
    split_ifs with hsame
    · rfl
    · cases d <;> simp_all [sameConstant]
  | _ =>
    rw [replace?, hkey]
    rfl

/-- An expression after substitution is evaluated to the same expression as after plain
replacement. -/
theorem eval_substitute (hm : ∀ entry ∈ m, entry.2.Settled) (e : Expr) :
    e.Settled → (e.substitute m).eval = (e.replaced m).eval := by
  induction e using Expr.induct with
  | truth value =>
    intro _
    rw [replaced, ← m.find?_eq_lookup]
    cases hkey : m.find? (truth value) with
    | none =>
      rw [Expr.substitute, Policy.substitute, replace?, hkey]
      rfl
    | some d => rw [substitute_of_find? hkey, Option.getD_some]
  | symbol name =>
    intro _
    rw [replaced, ← m.find?_eq_lookup, Expr.substitute, Policy.substitute, replace?]
  | not mode operand ih =>
    intro he
    rw [replaced, ← m.find?_eq_lookup]
    cases hkey : m.find? (not mode operand) with
    | none =>
      rw [eval_substitute_not hm he hkey, Option.getD_none, eval_not_raw,
        ih (he.of_mem_operands (List.mem_singleton_self operand))]
    | some d => rw [substitute_of_find? hkey, Option.getD_some]
  | join mode op operands ih =>
    intro he
    rw [replaced, ← m.find?_eq_lookup, replacedAll_eq_map]
    cases hkey : m.find? (join mode op operands) with
    | none =>
      rw [eval_substitute_join hm he hkey, Option.getD_none, eval_join_raw, List.map_map,
        List.map_map]
      exact congrArg _ (List.map_congr_left fun e hmem ↦ ih e hmem (he.of_mem_operands hmem))
    | some d => rw [substitute_of_find? hkey, Option.getD_some]

/-! ### Values -/

/-- The two have the same value as well. -/
theorem Settled.holds_substitute (hm : ∀ entry ∈ m, entry.2.Settled) (he : e.Settled)
    (assignment : Symbol → Bool) :
    (e.substitute m).holds assignment = (e.replaced m).holds assignment := by
  calc (e.substitute m).holds assignment
      = (e.substitute m).eval.holds assignment := (holds_eval faithful_standard _).symm
    _ = (e.replaced m).eval.holds assignment := by rw [eval_substitute hm e he]
    _ = (e.replaced m).holds assignment := holds_eval faithful_standard _

/-- Where all keys are symbols, replacement sets every key to the value of what replaces it. -/
theorem holds_replaced (hkeys : m.ReplacesSymbols) (e : Expr) (assignment : Symbol → Bool) :
    (e.replaced m).holds assignment = e.holds (m.rebound assignment) := by
  induction e using Expr.induct with
  | truth value =>
    rw [replaced, hkeys.lookup_eq_none (by simp), Option.getD_none, holds_truth, holds_truth]
  | symbol name =>
    rw [replaced, holds_symbol, Substitution.rebound]
    cases m.reverse.lookup (symbol name) with
    | none => exact holds_symbol assignment name
    | some d => rfl
  | not mode operand ih =>
    rw [replaced, hkeys.lookup_eq_none (by simp), Option.getD_none, holds_not, holds_not, ih]
  | join mode op operands ih =>
    rw [replaced, hkeys.lookup_eq_none (by simp), Option.getD_none, replacedAll_eq_map]
    exact holds_join_map ih

/-- Substitution agrees with plain replacement, for expressions and values that are built by the
standard policy and whatever keys: the results are evaluated to the same expression and have the
same value under every assignment. Where all keys are symbols, this is the value of the expression
when every key is set to the value of what replaces it. -/
theorem substitution_agrees_with_replacement (he : e.Built) (hm : ∀ entry ∈ m, entry.2.Built) :
    (e.substitute m).eval = (e.replaced m).eval ∧
      (∀ assignment, (e.substitute m).holds assignment = (e.replaced m).holds assignment) ∧
      (m.ReplacesSymbols → ∀ assignment,
        (e.substitute m).holds assignment = e.holds (m.rebound assignment)) := by
  have hsettled : ∀ entry ∈ m, entry.2.Settled := fun entry hentry ↦ (hm entry hentry).settled
  have hholds := he.settled.holds_substitute hsettled
  refine ⟨eval_substitute hsettled e he.settled, hholds, fun hkeys assignment ↦ ?_⟩
  rw [hholds, holds_replaced hkeys]

/-- A written product of an evaluated sum and a negation. -/
def mixedProduct : Expr :=
  standard.join .raw .and
    [standard.join .evaluated .or [.symbol (.name "a"), .symbol (.name "b")],
      standard.negation .raw (.symbol (.name "b"))]

theorem built_mixedProduct : mixedProduct.Built := by
  have hsum : (standard.join .evaluated .or
      [.symbol (.name "a"), .symbol (.name "b")]).Built :=
    .join .evaluated .or (by simp [Built.symbol])
  have hnegation : (standard.negation .raw (.symbol (.name "b"))).Built :=
    .negation .raw (.symbol _)
  exact .join .raw .and (by simp [hsum, hnegation])

/-- Two symbols that change places, one of them as a sum with itself. -/
def crossing : Substitution :=
  [(.symbol (.name "a"), standard.join .raw .or [.symbol (.name "b"), .symbol (.name "b")]),
    (.symbol (.name "b"), .symbol (.name "a"))]

/-- The sum is built anew and the negation stays raw, where plain replacement leaves both raw. The
two products are evaluated to the same one, and the symbols have changed places in its value. -/
theorem mixedProduct_agrees_with_replacement : mixedProduct.Built ∧
    (∀ entry ∈ crossing, entry.2.Built) ∧ crossing.ReplacesSymbols ∧
      (mixedProduct.substitute crossing).eval = (mixedProduct.replaced crossing).eval ∧
      ∀ assignment, (mixedProduct.substitute crossing).holds assignment =
        mixedProduct.holds (crossing.rebound assignment) := by
  have hvalues : ∀ entry ∈ crossing, entry.2.Built := by
    have hsum : (standard.join .raw .or [.symbol (.name "b"), .symbol (.name "b")]).Built :=
      .join .raw .or (by simp [Built.symbol])
    simp [crossing, hsum, Built.symbol]
  have hkeys : crossing.ReplacesSymbols := by simp [crossing, Substitution.ReplacesSymbols]
  obtain ⟨heval, -, hholds⟩ := substitution_agrees_with_replacement built_mixedProduct hvalues
  exact ⟨built_mixedProduct, hvalues, hkeys, heval, hholds hkeys⟩

end Expr

end SwitchingAlgebra
