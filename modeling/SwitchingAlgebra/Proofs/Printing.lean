import Mathlib
import SwitchingAlgebra.Proofs.Derivation
import SwitchingAlgebra.Proofs.Grouping
import SwitchingAlgebra.Proofs.WrittenTokens

/-!
# Reading what is written

The algebraic form of an expression puts parentheses around an OR below an AND and around every
negated join, and nowhere else. So what stands between the signs of a join is derived by the rule
for its operands, except that an operand that is a join of the same connective is not a group of its
own: its operands become operands of the join above, as when the expression is flattened. By
induction over the expression, the tokens of a join are a chain of as many operands as the flattened
join has, and those of every other expression are a primary with negation signs after it.

Main statement: the algebraic form of an expression is read as its flattened form
(`readRaw_text`).
-/

set_option autoImplicit false
set_option relaxedAutoImplicit false

namespace SwitchingAlgebra

open Policy
open Reading (Token Construction)

variable {op : Connective} {d e : Expr} {es fs : List Expr} {tokens others : List Token}

namespace Reading.Grammar

/-! ### Chains of operands -/

/-- The tokens are derived as an operand that negation signs may follow, and it stands for the
expression. -/
def DerivesOperand (tokens : List Token) (e : Expr) : Prop :=
  ∃ primary times, (Factor.complemented primary times).tokens = tokens ∧
    (Factor.complemented primary times).value .written = e

/-- The tokens are derived as a chain of operands of the connective, and these stand for the
expressions. -/
def DerivesChain : Connective → List Token → List Expr → Prop
  | .and, tokens, es => ∃ first rest, (Product.chain first rest).tokens = tokens ∧
    (first :: rest).map (Factor.value .written) = es
  | .or, tokens, es => ∃ first rest, (Sum.chain first rest).tokens = tokens ∧
    (first :: rest).map (Product.value .written) = es

theorem derivesOperand_number (n : Nat) :
    DerivesOperand [.number n] (Construction.written.number n) := by
  refine ⟨.number n, 0, rfl, ?_⟩
  rw [Factor.value, Primary.value]
  rfl

theorem derivesOperand_name (text : String) :
    DerivesOperand [.name text] (.symbol (.name text)) := by
  refine ⟨.name text, 0, rfl, ?_⟩
  rw [Factor.value, Primary.value]
  rfl

theorem DerivesOperand.negation (he : DerivesOperand tokens e) :
    DerivesOperand (tokens ++ [.notAfter]) (.not .raw e) := by
  obtain ⟨primary, times, rfl, rfl⟩ := he
  refine ⟨primary, times + 1, ?_, ?_⟩
  · rw [Factor.tokens, Factor.tokens, List.replicate_succ', List.append_assoc]
  · rw [Factor.value, Factor.value, Function.iterate_succ_apply']
    rfl

theorem DerivesChain.ne_nil (hes : DerivesChain op tokens es) : es ≠ [] := by
  cases op with
  | and =>
    obtain ⟨first, rest, -, rfl⟩ := hes
    exact List.cons_ne_nil _ _
  | or =>
    obtain ⟨first, rest, -, rfl⟩ := hes
    exact List.cons_ne_nil _ _

/-- A chain of factors is a single product. -/
theorem DerivesChain.product (hes : DerivesChain .and tokens es) :
    DerivesChain .or tokens [Construction.written.chain .and es] := by
  obtain ⟨first, rest, rfl, rfl⟩ := hes
  refine ⟨.chain first rest, [], ?_, ?_⟩
  · rw [Sum.tokens, Product.tokensAfter, List.append_nil]
  · rw [List.map_singleton, Product.value, Factor.values_eq_map, List.map_cons]

/-- An operand that negation signs may follow is an operand of either connective. -/
theorem DerivesOperand.chain (op : Connective) (he : DerivesOperand tokens e) :
    DerivesChain op tokens [e] := by
  have hfactor : DerivesChain .and tokens [e] := by
    obtain ⟨primary, times, rfl, rfl⟩ := he
    refine ⟨.complemented primary times, [], ?_, rfl⟩
    rw [Product.tokens, Factor.tokensAfter, List.append_nil]
  cases op with
  | and => exact hfactor
  | or => exact hfactor.product

/-- A chain of products is a sum. -/
theorem DerivesChain.sum (hes : DerivesChain .or tokens es) :
    ∃ sum : Sum, sum.tokens = tokens ∧ sum.tree = Construction.written.chain .or es := by
  obtain ⟨first, rest, rfl, rfl⟩ := hes
  refine ⟨.chain first rest, rfl, ?_⟩
  rw [Sum.tree, Sum.value, Product.values_eq_map, List.map_cons]

/-- A sum in parentheses is an operand that negation signs may follow. -/
theorem derivesOperand_group (sum : Sum) :
    DerivesOperand (.leftParen :: (sum.tokens ++ [.rightParen])) sum.tree := by
  refine ⟨.group sum, 0, ?_, ?_⟩
  · rw [Factor.tokens, Primary.tokens, List.replicate_zero, List.append_nil]
  · rw [Factor.value, Primary.value]
    rfl

/-- Chains of the same connective make one chain with its sign between them. -/
theorem DerivesChain.append (hes : DerivesChain op tokens es) (hfs : DerivesChain op others fs) :
    DerivesChain op (tokens ++ .connective op :: others) (es ++ fs) := by
  cases op with
  | and =>
    obtain ⟨first, rest, rfl, rfl⟩ := hes
    obtain ⟨first', rest', rfl, rfl⟩ := hfs
    refine ⟨first, rest ++ first' :: rest', ?_, ?_⟩
    · simp [Product.tokens, Factor.tokensAfter_eq_flatMap]
    · simp
  | or =>
    obtain ⟨first, rest, rfl, rfl⟩ := hes
    obtain ⟨first', rest', rfl, rfl⟩ := hfs
    refine ⟨first, rest ++ first' :: rest', ?_, ?_⟩
    · simp [Sum.tokens, Product.tokensAfter_eq_flatMap]
    · simp

end Reading.Grammar

namespace Expr

open Reading.Grammar

/-! ### Derivations of written expressions -/

/-- The tokens of an expression are a chain of as many operands as its flattened form has, or an
operand that negation signs may follow. -/
inductive IsDerived : Expr → Prop
  | operand {e : Expr} (hnone : e.connective? = none)
    (he : DerivesOperand e.tokens (standard.flatten e)) : IsDerived e
  | join {mode : Mode} {op : Connective} {es fs : List Expr}
    (hflatten : standard.flatten (.join mode op es) = .join .raw op fs) (hlength : 2 ≤ fs.length)
    (hes : DerivesChain op (joinedTokens op es) fs) : IsDerived (.join mode op es)

theorem connective?_flatten (e : Expr) : (standard.flatten e).connective? = e.connective? := by
  match e with
  | .truth _ | .symbol _ => rw [flatten]
  | .not _ _ =>
    rw [flatten_not]
    rfl
  | .join _ _ _ =>
    rw [flatten_join]
    rfl

theorem chain_of_two_le (hlength : 2 ≤ es.length) :
    Construction.written.chain op es = .join .raw op es := by
  match es with
  | [] | [_] => simp at hlength
  | _ :: _ :: _ => rfl

/-- The tokens are those of a sum that stands for the flattened form. -/
theorem IsDerived.sum (he : e.IsDerived) :
    ∃ sum : Sum, sum.tokens = e.tokens ∧ sum.tree = standard.flatten e := by
  cases he with
  | operand hnone he => exact (he.chain .or).sum
  | @join mode op es fs hflatten hlength hes =>
    rw [tokens, hflatten, ← chain_of_two_le hlength]
    cases op with
    | and => exact hes.product.sum
    | or => exact hes.sum

/-- In parentheses if it is a join, the expression is an operand that negation signs may follow. -/
theorem IsDerived.enclosed (he : e.IsDerived) :
    DerivesOperand (enclosedIf e.connective?.isSome e.tokens) (standard.flatten e) := by
  have hsum := he.sum
  cases he with
  | operand hnone he =>
    rw [hnone]
    exact he
  | join =>
    obtain ⟨sum, htokens, htree⟩ := hsum
    rw [← htokens, ← htree]
    exact derivesOperand_group sum

/-- In parentheses where they are needed, the expression is a chain of what it contributes to a join
of the connective. -/
theorem IsDerived.contributes (he : e.IsDerived) (op : Connective) :
    DerivesChain op (enclosedIf (needsParentheses op e) e.tokens)
      ((standard.flatten e).splice op) := by
  have henclosed := he.enclosed
  have hsingle : e.connective? ≠ some op → (standard.flatten e).splice op = [standard.flatten e] :=
    fun hne ↦ splice_eq_singleton_of_connective? (connective?_flatten e ▸ hne)
  cases he with
  | operand hnone he =>
    have hopen : needsParentheses op e = false := by simp [needsParentheses, hnone]
    rw [hopen, hsingle (by simp [hnone])]
    exact he.chain op
  | @join mode child es fs hflatten hlength hes =>
    rcases Connective.eq_or_eq_dual op child with rfl | rfl
    -- The operands of the same connective go into the chain one by one.
    · have hopen : needsParentheses child (.join mode child es) = false := by cases child <;> rfl
      rw [hopen, hflatten, splice_join_self, tokens]
      exact hes
    · rw [hsingle fun hsame ↦ op.dual_ne (Option.some.inj hsame)]
      cases op with
      -- A sum stands in parentheses below a product, a product needs none below a sum.
      | and => exact henclosed.chain .and
      | or =>
        rw [hflatten, ← chain_of_two_le hlength, tokens]
        exact hes.product

theorem length_le_length_flatMap {group : Expr → List Expr} (hgroup : ∀ e ∈ es, group e ≠ []) :
    es.length ≤ (es.flatMap group).length := by
  have hlengths := List.length_le_sum_of_one_le (es.map fun e ↦ (group e).length)
    (List.forall_mem_map.mpr fun e he ↦ List.length_pos_iff.mpr (hgroup e he))
  rwa [List.length_map, ← List.length_flatMap] at hlengths

/-- The tokens of a join are a chain of all that its operands contribute. -/
theorem derivesChain_joinedTokens {es : List Expr} (hne : es ≠ []) (hes : ∀ e ∈ es, e.IsDerived) :
    DerivesChain op (joinedTokens op es) (es.flatMap fun e ↦ (standard.flatten e).splice op) := by
  match es with
  | [] => exact absurd rfl hne
  | [e] =>
    rw [joinedTokens, List.flatMap_singleton]
    exact (hes e List.mem_cons_self).contributes op
  | e :: f :: rest =>
    have hrest := derivesChain_joinedTokens (List.cons_ne_nil f rest)
      fun d hd ↦ hes d (List.mem_cons_of_mem e hd)
    rw [joinedTokens, List.flatMap_cons]
    exact ((hes e List.mem_cons_self).contributes op).append hrest

/-- Every join has at least two operands. -/
inductive IsWide : Expr → Prop
  | truth (value : Bool) : IsWide (.truth value)
  | symbol (name : Symbol) : IsWide (.symbol name)
  | not (mode : Mode) {e : Expr} (he : IsWide e) : IsWide (.not mode e)
  | join (mode : Mode) (op : Connective) {es : List Expr} (hlength : 2 ≤ es.length)
    (hes : ∀ e ∈ es, IsWide e) : IsWide (.join mode op es)

theorem isWide_not_iff {mode : Mode} : (Expr.not mode e).IsWide ↔ e.IsWide :=
  ⟨fun h ↦ by cases h with | not _ he => exact he, .not mode⟩

theorem isWide_join_iff {mode : Mode} :
    (Expr.join mode op es).IsWide ↔ 2 ≤ es.length ∧ ∀ e ∈ es, e.IsWide :=
  ⟨fun h ↦ by cases h with | join _ _ hlength hes => exact ⟨hlength, hes⟩,
    fun h ↦ .join mode op h.1 h.2⟩

theorem number_of_two_le {n : Nat} (hn : 2 ≤ n) :
    Construction.written.number n = .symbol (.int (Int64.ofNat n)) := by
  match n with
  | 0 | 1 => omega
  | _ + 2 => rfl

theorem isDerived_symbol {s : Symbol} (hs : s.IsReadable) : (Expr.symbol s).IsDerived := by
  refine .operand rfl ?_
  rw [tokens, flatten]
  cases s with
  | anonymous serial => exact hs.elim
  | name text => exact derivesOperand_name text
  | int value =>
    have htwo : 2 ≤ value.toInt := hs
    have hnonneg : 0 ≤ value := Int64.le_iff_toInt_le.mpr (Int.le_trans (by decide) htwo)
    have hnumber : 2 ≤ value.toNatClampNeg := Int.toNat_le_toNat htwo
    have hwritten := derivesOperand_number value.toNatClampNeg
    rwa [number_of_two_le hnumber, Int64.ofNat_toNatClampNeg value hnonneg] at hwritten

/-- An expression with readable symbols and without narrow joins is derived. -/
theorem IsWide.isDerived (he : e.IsWide) :
    (∀ s ∈ e.symbolLeaves, s.IsReadable) → e.IsDerived := by
  induction he with
  | truth value =>
    intro _
    refine .operand rfl ?_
    rw [flatten]
    cases value with
    | false => exact derivesOperand_number 0
    | true => exact derivesOperand_number 1
  | symbol name =>
    intro hsymbols
    rw [symbolLeaves] at hsymbols
    exact isDerived_symbol (hsymbols name (List.mem_singleton_self name))
  | not mode he ih =>
    intro hsymbols
    rw [symbolLeaves] at hsymbols
    refine .operand rfl ?_
    rw [tokens, flatten_not]
    exact (ih hsymbols).enclosed.negation
  | @join mode op es hlength hes ih =>
    intro hsymbols
    rw [symbolLeaves, symbolLeavesAll_eq_flatMap] at hsymbols
    have hderived : ∀ e ∈ es, e.IsDerived := fun e hmem ↦
      ih e hmem fun s hs ↦ hsymbols s (List.mem_flatMap.mpr ⟨e, hmem, hs⟩)
    have hne : es ≠ [] := by
      rintro rfl
      simp at hlength
    have hwide := length_le_length_flatMap fun e hmem ↦ ((hderived e hmem).contributes op).ne_nil
    exact .join (flatten_join mode op es) (hlength.trans hwide)
      (derivesChain_joinedTokens hne hderived)

/-- The algebraic form of the expression consists of tokens that a sum derives, and the sum stands
for the flattened form. -/
theorem IsWide.exists_derivation (hwide : e.IsWide)
    (hsymbols : ∀ s ∈ e.symbolLeaves, s.IsReadable) :
    ∃ placed, Token.ofText e.text = .ok placed ∧
      ∃ sum : Sum, sum.tokens = placed.map Reading.PlacedToken.token ∧
        sum.tree = standard.flatten e := by
  obtain ⟨placed, htext, hplaced⟩ := ofText_text hsymbols
  obtain ⟨sum, htokens, htree⟩ := (hwide.isDerived hsymbols).sum
  exact ⟨placed, htext, sum, htokens.trans hplaced.symm, htree⟩

end Expr

namespace Reading

open SwitchingAlgebra.Expr

/-- The algebraic form of an expression of any raw and evaluated nodes is read as its flattened
form, with the same nodes and the operands in the same order, if every join has at least two
operands and every symbol is written as a number or a name that can be read. -/
theorem readRaw_text (hwide : e.IsWide) (hsymbols : ∀ s ∈ e.symbolLeaves, s.IsReadable) :
    readRaw e.text = .ok (standard.flatten e) := by
  rw [readRaw, read_eq_ok_iff, construction_raw]
  exact hwide.exists_derivation hsymbols

/-- A product of a negated sum and a product, below a sum with a sum. -/
def nestedForm : Expr :=
  .join .raw .or [.join .evaluated .or [.symbol (.name "a"), .symbol (.int 2)],
    .join .raw .and [.not .raw (.join .raw .or [.symbol (.name "a"), .truth true]),
      .join .raw .and [.not .raw (.not .raw (.symbol (.name "b_1"))), .symbol (.int 10)]]]

/-- The form of the nested sum is read as the nested sum with the inner sum and the inner product
spliced in. -/
theorem readRaw_nestedForm : nestedForm.text = "a+2+(a+1)'∙b_1''∙10" ∧
    readRaw nestedForm.text = .ok (.join .raw .or [.symbol (.name "a"), .symbol (.int 2),
      .join .raw .and [.not .raw (.join .raw .or [.symbol (.name "a"), .truth true]),
        .not .raw (.not .raw (.symbol (.name "b_1"))), .symbol (.int 10)]]) := by
  have hsymbols : ∀ s ∈ nestedForm.symbolLeaves, s.IsReadable := by decide +kernel
  have hwide : nestedForm.IsWide := by
    simp [nestedForm, isWide_join_iff, isWide_not_iff, IsWide.symbol, IsWide.truth]
  have hflatten : standard.flatten nestedForm =
      .join .raw .or [.symbol (.name "a"), .symbol (.int 2),
        .join .raw .and [.not .raw (.join .raw .or [.symbol (.name "a"), .truth true]),
          .not .raw (.not .raw (.symbol (.name "b_1"))), .symbol (.int 10)]] := by cbv
  refine ⟨by cbv, ?_⟩
  rw [readRaw_text hwide hsymbols, hflatten]

end Reading

end SwitchingAlgebra
