import Mathlib
import SwitchingAlgebra.Proofs.Grammar

/-!
# Reading finds the derivation

Reading keeps the operands of open chains instead of calling itself for each rule. What it does next
after an operand depends on what stands before the operand only through the chains that the operand
ends. So the tokens of a factor, a product or a sum may be read in one step, as if its value were
the operand. Conversely, tokens that are read where an operand is expected start with those of a
sum.

Main statements: a text is read exactly when it consists of tokens that a sum derives, and as what
the sum stands for, for every builder (`read_eq_ok_iff`) and as it is written
(`readRaw_derivation`).
-/

set_option autoImplicit false
set_option relaxedAutoImplicit false

namespace SwitchingAlgebra.Reading

open Grammar

/-- How a builder makes nodes. -/
def Builder.construction (b : Builder) : Construction where
  number := b.ofNumber
  name := b.ofName
  negation := b.negate
  join := b.policy.join b.mode

variable {b : Builder} {length : Nat} {stack : List Frame}

namespace Builder

theorem chain_construction (op : Connective) (es : List Expr) :
    b.construction.chain op es = b.chain op es := by
  rcases es with _ | ⟨d, _ | ⟨e, rest⟩⟩ <;> rfl

theorem negateTimes_negate (n : Nat) (e : Expr) :
    b.negateTimes n (b.negate e) = b.negateTimes (n + 1) e := by
  induction n with
  | zero => rfl
  | succ n ih => exact congrArg b.negate ih

/-! ### What the next step depends on -/

/-- What is read on after an operand depends on the operand and on what stands before it only
through the chains that the next token continues or ends. -/
theorem afterOperand_congr {pending pending' : Pending} {operand operand' : Expr}
    {rest : List PlacedToken}
    (hafter : (rest.map PlacedToken.token).head? ≠ some .notAfter)
    (hextend : ∀ op, (rest.map PlacedToken.token).head? = some (.connective op) →
      b.extend pending operand op = b.extend pending' operand' op)
    (hclose : b.close pending operand = b.close pending' operand') :
    b.afterOperand length stack pending operand rest =
      b.afterOperand length stack pending' operand' rest := by
  rcases rest with _ | ⟨⟨position, token⟩, rest⟩
  · cases stack with
    | nil => rw [afterOperand, afterOperand, hclose]
    | cons frame stack => rw [afterOperand, afterOperand]
  · cases token with
    | notAfter => exact absurd rfl hafter
    | connective op => rw [afterOperand, afterOperand, hextend op rfl]
    | rightParen =>
      cases stack with
      | nil => rw [afterOperand, afterOperand]
      | cons frame stack => rw [afterOperand, afterOperand, hclose]
    | notBefore => rw [afterOperand, afterOperand]
    | leftParen => rw [afterOperand, afterOperand]
    | number value => rw [afterOperand, afterOperand]
    | name text => rw [afterOperand, afterOperand]

/-- A finished factor may stand as the operand. -/
theorem afterOperand_congr_factor {pending pending' : Pending} {operand operand' : Expr}
    {rest : List PlacedToken}
    (hrest : StartsWithout Factor.continuations (rest.map PlacedToken.token))
    (hterms : pending.terms = pending'.terms) (hfactors : pending.factors = pending'.factors)
    (hfactor : b.factor pending operand = b.factor pending' operand') :
    b.afterOperand length stack pending operand rest =
      b.afterOperand length stack pending' operand' rest := by
  have hterm : b.term pending operand = b.term pending' operand' := by
    rw [term, term, hfactor, hfactors]
  refine afterOperand_congr (hrest _ List.mem_cons_self) (fun op _ ↦ ?_) ?_
  · cases op with
    | and => rw [extend, extend, hterms, hfactors, hfactor]
    | or => rw [extend, extend, hterms, hterm]
  · rw [close, close, hterms, hterm]

/-- A finished product may stand as the operand. -/
theorem afterOperand_congr_term {pending pending' : Pending} {operand operand' : Expr}
    {rest : List PlacedToken}
    (hrest : StartsWithout Product.continuations (rest.map PlacedToken.token))
    (hterms : pending.terms = pending'.terms)
    (hterm : b.term pending operand = b.term pending' operand') :
    b.afterOperand length stack pending operand rest =
      b.afterOperand length stack pending' operand' rest := by
  refine afterOperand_congr (hrest _ (List.mem_cons_of_mem _ List.mem_cons_self))
    (fun op hop ↦ ?_) ?_
  · cases op with
    | and => exact absurd hop (hrest _ List.mem_cons_self)
    | or => rw [extend, extend, hterms, hterm]
  · rw [close, close, hterms, hterm]

/-- A finished sum may stand as the operand. -/
theorem afterOperand_congr_close {pending pending' : Pending} {operand operand' : Expr}
    {rest : List PlacedToken}
    (hrest : StartsWithout Sum.continuations (rest.map PlacedToken.token))
    (hclose : b.close pending operand = b.close pending' operand') :
    b.afterOperand length stack pending operand rest =
      b.afterOperand length stack pending' operand' rest := by
  refine afterOperand_congr (hrest _ (by decide)) (fun op hop ↦ ?_) hclose
  cases op with
  | and => exact absurd hop (hrest _ (by decide))
  | or => exact absurd hop (hrest _ (by decide))

/-! ### Derived tokens are read -/

/-- Negation signs after an operand are read. -/
theorem afterOperand_replicate {times : Nat} {placed rest : List PlacedToken} {pending : Pending}
    (hplaced : placed.map PlacedToken.token = List.replicate times .notAfter) (operand : Expr) :
    b.afterOperand length stack pending operand (placed ++ rest) =
      b.afterOperand length stack pending (b.negate^[times] operand) rest := by
  induction times generalizing placed operand with
  | zero =>
    rw [List.map_eq_nil_iff.mp hplaced]
    rfl
  | succ times ih =>
    obtain ⟨⟨position, token⟩, placed, rfl, rfl, htokens⟩ := List.map_eq_cons_iff.mp hplaced
    rw [List.cons_append, afterOperand, ih htokens, Function.iterate_succ_apply]

end Builder

namespace Grammar

/-- No token continues a part of a chain when further parts or what follows the chain come next. -/
theorem StartsWithout.map_append {α : Type} {stops : List Token} {sign : Token}
    {tokensOf : α → List Token} {parts : List α} {placed rest : List PlacedToken}
    (hrest : StartsWithout (sign :: stops) (rest.map PlacedToken.token)) (hsign : sign ∉ stops)
    (hplaced : placed.map PlacedToken.token = parts.flatMap fun part ↦ sign :: tokensOf part) :
    StartsWithout stops ((placed ++ rest).map PlacedToken.token) := by
  rw [List.map_append, hplaced]
  exact (hrest.mono (List.subset_cons_self sign stops)).flatMap_append hsign tokensOf parts

/-- The tokens of a primary are read as the operand that it stands for. -/
def Primary.IsRead (b : Builder) (length : Nat) (primary : Primary) : Prop :=
  ∀ (placed rest : List PlacedToken) (stack : List Frame) (pending : Pending),
    placed.map PlacedToken.token = primary.tokens →
      b.expectOperand length stack pending (placed ++ rest) =
        b.afterOperand length stack pending (primary.value b.construction) rest

/-- The tokens of a factor are read as the operand that it stands for. -/
def Factor.IsRead (b : Builder) (length : Nat) (factor : Factor) : Prop :=
  ∀ (placed rest : List PlacedToken) (stack : List Frame) (pending : Pending),
    placed.map PlacedToken.token = factor.tokens →
      StartsWithout Factor.continuations (rest.map PlacedToken.token) →
        b.expectOperand length stack pending (placed ++ rest) =
          b.afterOperand length stack pending (factor.value b.construction) rest

/-- The tokens of a product are read as the operand that it stands for. -/
def Product.IsRead (b : Builder) (length : Nat) (product : Product) : Prop :=
  ∀ (placed rest : List PlacedToken) (stack : List Frame) (terms : List Expr),
    placed.map PlacedToken.token = product.tokens →
      StartsWithout Product.continuations (rest.map PlacedToken.token) →
        b.expectOperand length stack ⟨terms, [], 0⟩ (placed ++ rest) =
          b.afterOperand length stack ⟨terms, [], 0⟩ (product.value b.construction) rest

/-- The tokens of a sum are read as the operand that it stands for. -/
def Sum.IsRead (b : Builder) (length : Nat) (sum : Sum) : Prop :=
  ∀ (placed rest : List PlacedToken) (stack : List Frame),
    placed.map PlacedToken.token = sum.tokens →
      StartsWithout Sum.continuations (rest.map PlacedToken.token) →
        b.expectOperand length stack .none (placed ++ rest) =
          b.afterOperand length stack .none (sum.value b.construction) rest

/-- The factors of a product after the first are read. -/
theorem Factor.afterOperand_flatMap {factors : List Factor}
    (hfactors : ∀ factor ∈ factors, factor.IsRead b length) {placed rest : List PlacedToken}
    (hplaced : placed.map PlacedToken.token =
      factors.flatMap fun factor ↦ .connective .and :: factor.tokens)
    (hrest : StartsWithout Product.continuations (rest.map PlacedToken.token))
    (terms before : List Expr) (operand : Expr) :
    b.afterOperand length stack ⟨terms, before, 0⟩ operand (placed ++ rest) =
      b.afterOperand length stack ⟨terms, [], 0⟩
        (b.chain .and ((operand :: before).reverse ++ factors.map (Factor.value b.construction)))
        rest := by
  induction factors generalizing placed before operand with
  | nil =>
    rw [List.map_eq_nil_iff.mp hplaced, List.map_nil, List.append_nil]
    exact Builder.afterOperand_congr_term hrest rfl rfl
  | cons factor factors ih =>
    obtain ⟨⟨position, token⟩, placed, rfl, rfl, htokens⟩ := List.map_eq_cons_iff.mp hplaced
    obtain ⟨first, others, rfl, hfirst, hothers⟩ := List.map_eq_append_iff.mp htokens
    have hstarts : StartsWithout Factor.continuations ((others ++ rest).map PlacedToken.token) :=
      hrest.map_append (by decide) hothers
    rw [List.cons_append, Builder.afterOperand, List.append_assoc,
      hfactors factor List.mem_cons_self first _ _ _ hfirst hstarts, Builder.extend,
      ih (fun f hf ↦ hfactors f (List.mem_cons_of_mem _ hf)) hothers, List.map_cons,
      List.reverse_cons, List.append_assoc]
    rfl

/-- The products of a sum after the first are read. -/
theorem Product.afterOperand_flatMap {products : List Product}
    (hproducts : ∀ product ∈ products, product.IsRead b length) {placed rest : List PlacedToken}
    (hplaced : placed.map PlacedToken.token =
      products.flatMap fun product ↦ .connective .or :: product.tokens)
    (hrest : StartsWithout Sum.continuations (rest.map PlacedToken.token))
    (before : List Expr) (operand : Expr) :
    b.afterOperand length stack ⟨before, [], 0⟩ operand (placed ++ rest) =
      b.afterOperand length stack .none
        (b.chain .or ((operand :: before).reverse ++ products.map (Product.value b.construction)))
        rest := by
  induction products generalizing placed before operand with
  | nil =>
    rw [List.map_eq_nil_iff.mp hplaced, List.map_nil, List.append_nil]
    exact Builder.afterOperand_congr_close hrest rfl
  | cons product products ih =>
    obtain ⟨⟨position, token⟩, placed, rfl, rfl, htokens⟩ := List.map_eq_cons_iff.mp hplaced
    obtain ⟨first, others, rfl, hfirst, hothers⟩ := List.map_eq_append_iff.mp htokens
    have hstarts : StartsWithout Product.continuations ((others ++ rest).map PlacedToken.token) :=
      hrest.map_append (by decide) hothers
    rw [List.cons_append, Builder.afterOperand, List.append_assoc]
    show b.expectOperand length stack ⟨operand :: before, [], 0⟩ (first ++ (others ++ rest)) = _
    rw [hproducts product List.mem_cons_self first _ _ _ hfirst hstarts,
      ih (fun p hp ↦ hproducts p (List.mem_cons_of_mem _ hp)) hothers, List.map_cons,
      List.reverse_cons, List.append_assoc]
    rfl

/-- Derived tokens are read as what the derivation stands for. -/
theorem Sum.isRead (derivation : Sum) : derivation.IsRead b length := by
  induction derivation using Sum.induct (Product.IsRead b length)
    (Factor.IsRead b length) (Primary.IsRead b length) with
  | sum first rest hfirst hrest =>
    intro placed after stack hplaced hstarts
    rw [Sum.tokens, Product.tokensAfter_eq_flatMap] at hplaced
    obtain ⟨start, others, rfl, hstart, hothers⟩ := List.map_eq_append_iff.mp hplaced
    have hnext : StartsWithout Product.continuations ((others ++ after).map PlacedToken.token) :=
      hstarts.map_append (by decide) hothers
    rw [List.append_assoc, Pending.none, hfirst start _ stack [] hstart hnext,
      Product.afterOperand_flatMap hrest hothers hstarts, Sum.value, Product.values_eq_map,
      Builder.chain_construction]
    rfl
  | product first rest hfirst hrest =>
    intro placed after stack terms hplaced hstarts
    rw [Product.tokens, Factor.tokensAfter_eq_flatMap] at hplaced
    obtain ⟨start, others, rfl, hstart, hothers⟩ := List.map_eq_append_iff.mp hplaced
    have hnext : StartsWithout Factor.continuations ((others ++ after).map PlacedToken.token) :=
      hstarts.map_append (by decide) hothers
    rw [List.append_assoc, hfirst start _ stack _ hstart hnext,
      Factor.afterOperand_flatMap hrest hothers hstarts, Product.value, Factor.values_eq_map,
      Builder.chain_construction]
    rfl
  | negated operand ih =>
    intro placed after stack pending hplaced hstarts
    rw [Factor.tokens] at hplaced
    obtain ⟨⟨position, token⟩, placed, rfl, rfl, htokens⟩ := List.map_eq_cons_iff.mp hplaced
    rw [List.cons_append, Builder.expectOperand, ih placed after stack _ htokens hstarts]
    refine Builder.afterOperand_congr_factor hstarts rfl rfl ?_
    exact (Builder.negateTimes_negate pending.negations (operand.value b.construction)).symm
  | complemented operand times ih =>
    intro placed after stack pending hplaced _
    rw [Factor.tokens] at hplaced
    obtain ⟨start, signs, rfl, hstart, hsigns⟩ := List.map_eq_append_iff.mp hplaced
    rw [List.append_assoc, ih start _ stack pending hstart,
      Builder.afterOperand_replicate hsigns]
    rfl
  | number value =>
    intro placed after stack pending hplaced
    obtain ⟨⟨position, token⟩, placed, rfl, rfl, htokens⟩ := List.map_eq_cons_iff.mp hplaced
    rw [List.map_eq_nil_iff.mp htokens, List.singleton_append, Builder.expectOperand]
    rfl
  | name text =>
    intro placed after stack pending hplaced
    obtain ⟨⟨position, token⟩, placed, rfl, rfl, htokens⟩ := List.map_eq_cons_iff.mp hplaced
    rw [List.map_eq_nil_iff.mp htokens, List.singleton_append, Builder.expectOperand]
    rfl
  | group inner ih =>
    intro placed after stack pending hplaced
    obtain ⟨⟨position, token⟩, placed, rfl, rfl, htokens⟩ := List.map_eq_cons_iff.mp hplaced
    obtain ⟨start, last, rfl, hstart, hlast⟩ := List.map_eq_append_iff.mp htokens
    obtain ⟨⟨position', token⟩, last, rfl, rfl, hnil⟩ := List.map_eq_cons_iff.mp hlast
    have hclosed : StartsWithout Sum.continuations
        ((⟨position', .rightParen⟩ :: after).map PlacedToken.token) := startsWithout_rightParen _
    rw [List.map_eq_nil_iff.mp hnil, List.cons_append, Builder.expectOperand, List.append_assoc,
      List.singleton_append, ih start _ _ hstart hclosed, Builder.afterOperand]
    rfl

end Grammar

/-! ### What is read is derived -/

/-- The tokens start with those of a sum that what follows them does not continue. -/
def StartsWithSum (tokens : List PlacedToken) : Prop :=
  ∃ (sum : Sum) (placed rest : List PlacedToken), tokens = placed ++ rest ∧
    placed.map PlacedToken.token = sum.tokens ∧
      StartsWithout Sum.continuations (rest.map PlacedToken.token)

/-- The tokens start with what turns an operand before them into a sum that what follows them does
not continue: negation signs, further factors and further products. -/
def StartsWithRest (tokens : List PlacedToken) : Prop :=
  ∃ (times : Nat) (factors : List Factor) (products : List Product)
    (placed rest : List PlacedToken), tokens = placed ++ rest ∧
      placed.map PlacedToken.token = List.replicate times .notAfter ++
        (Factor.tokensAfter factors ++ Product.tokensAfter products) ∧
          StartsWithout Sum.continuations (rest.map PlacedToken.token)

variable {tokens placed : List PlacedToken} {position : Nat}

theorem startsWithRest_of_startsWithout
    (hstarts : StartsWithout Sum.continuations (tokens.map PlacedToken.token)) :
    StartsWithRest tokens :=
  ⟨0, [], [], [], tokens, rfl, rfl, hstarts⟩

theorem StartsWithRest.notAfter (htokens : StartsWithRest tokens) :
    StartsWithRest (⟨position, .notAfter⟩ :: tokens) := by
  obtain ⟨times, factors, products, placed, rest, rfl, hplaced, hrest⟩ := htokens
  refine ⟨times + 1, factors, products, ⟨position, .notAfter⟩ :: placed, rest, rfl, ?_, hrest⟩
  rw [List.map_cons, hplaced]
  rfl

theorem StartsWithSum.connective (htokens : StartsWithSum tokens) (op : Connective) :
    StartsWithRest (⟨position, .connective op⟩ :: tokens) := by
  obtain ⟨⟨⟨factor, factors⟩, products⟩, placed, rest, rfl, hplaced, hrest⟩ := htokens
  rw [Sum.tokens, Product.tokens] at hplaced
  cases op with
  | and =>
    refine ⟨0, factor :: factors, products, ⟨position, .connective .and⟩ :: placed, rest, rfl, ?_,
      hrest⟩
    rw [List.map_cons, hplaced, Factor.tokensAfter]
    rfl
  | or =>
    refine ⟨0, [], .chain factor factors :: products, ⟨position, .connective .or⟩ :: placed, rest,
      rfl, ?_, hrest⟩
    rw [List.map_cons, hplaced, Product.tokensAfter, Product.tokens]
    rfl

theorem StartsWithSum.notBefore (htokens : StartsWithSum tokens) :
    StartsWithSum (⟨position, .notBefore⟩ :: tokens) := by
  obtain ⟨⟨⟨factor, factors⟩, products⟩, placed, rest, rfl, hplaced, hrest⟩ := htokens
  refine ⟨.chain (.chain (.negated factor) factors) products, ⟨position, .notBefore⟩ :: placed,
    rest, rfl, ?_, hrest⟩
  rw [Sum.tokens, Product.tokens] at hplaced
  rw [List.map_cons, hplaced, Sum.tokens, Product.tokens, Factor.tokens]
  rfl

theorem StartsWithRest.primary (htokens : StartsWithRest tokens) (primary : Primary)
    (hprimary : placed.map PlacedToken.token = primary.tokens) :
    StartsWithSum (placed ++ tokens) := by
  obtain ⟨times, factors, products, signs, rest, rfl, hsigns, hrest⟩ := htokens
  refine ⟨.chain (.chain (.complemented primary times) factors) products, placed ++ signs, rest,
    (List.append_assoc _ _ _).symm, ?_, hrest⟩
  rw [List.map_append, hprimary, hsigns, Sum.tokens, Product.tokens, Factor.tokens,
    List.append_assoc, List.append_assoc]

/-- Within parentheses only a closing one can follow a sum. -/
theorem exists_rightParen {frame : Frame} {operand e : Expr}
    (hstarts : StartsWithout Sum.continuations (tokens.map PlacedToken.token))
    (hread : b.afterOperand length (frame :: stack) .none operand tokens = .ok e) :
    ∃ position rest, tokens = ⟨position, .rightParen⟩ :: rest ∧
      b.afterOperand length stack frame.outer operand rest = .ok e := by
  rcases tokens with _ | ⟨⟨position, token⟩, rest⟩
  · rw [Builder.afterOperand] at hread
    cases hread
  · cases token with
    | rightParen =>
      rw [Builder.afterOperand] at hread
      exact ⟨position, rest, rfl, hread⟩
    | notAfter => exact absurd rfl (hstarts .notAfter (by decide))
    | connective op => exact absurd rfl (hstarts (.connective op) (by cases op <;> decide))
    | _ =>
      rw [Builder.afterOperand] at hread
      cases hread

/-- Outside of parentheses nothing can follow a sum. -/
theorem eq_nil_of_afterOperand {operand e : Expr}
    (hstarts : StartsWithout Sum.continuations (tokens.map PlacedToken.token))
    (hread : b.afterOperand length [] .none operand tokens = .ok e) :
    tokens = [] ∧ operand = e := by
  rcases tokens with _ | ⟨⟨position, token⟩, rest⟩
  · rw [Builder.afterOperand] at hread
    exact ⟨rfl, Except.ok.inj hread⟩
  · cases token with
    | notAfter => exact absurd rfl (hstarts .notAfter (by decide))
    | connective op => exact absurd rfl (hstarts (.connective op) (by cases op <;> decide))
    | _ =>
      rw [Builder.afterOperand] at hread
      cases hread

/-- What is read where an operand is expected starts with a sum, and what is read after an operand
starts with what turns the operand into one. Parentheses make both depend on each other, so the
induction is on the number of tokens. -/
theorem startsWithSum_and_startsWithRest (count : Nat) :
    (∀ (tokens : List PlacedToken) (stack : List Frame) (pending : Pending) (e : Expr),
      tokens.length < count → b.expectOperand length stack pending tokens = .ok e →
        StartsWithSum tokens) ∧
      ∀ (tokens : List PlacedToken) (stack : List Frame) (pending : Pending) (operand e : Expr),
        tokens.length < count → b.afterOperand length stack pending operand tokens = .ok e →
          StartsWithRest tokens := by
  induction count with
  | zero => exact ⟨fun _ _ _ _ hcount ↦ absurd hcount (Nat.not_lt_zero _),
      fun _ _ _ _ _ hcount ↦ absurd hcount (Nat.not_lt_zero _)⟩
  | succ count ih =>
    obtain ⟨hexpect, hafter⟩ := ih
    constructor
    · intro tokens stack pending e hcount hread
      rcases tokens with _ | ⟨⟨position, token⟩, rest⟩
      · rw [Builder.expectOperand] at hread
        split_ifs at hread
      have hrest : rest.length < count := Nat.lt_of_succ_lt_succ hcount
      cases token with
      | number value =>
        rw [Builder.expectOperand] at hread
        show StartsWithSum ([⟨position, .number value⟩] ++ rest)
        exact (hafter rest _ _ _ _ hrest hread).primary (.number value) rfl
      | name text =>
        rw [Builder.expectOperand] at hread
        show StartsWithSum ([⟨position, .name text⟩] ++ rest)
        exact (hafter rest _ _ _ _ hrest hread).primary (.name text) rfl
      | notBefore =>
        rw [Builder.expectOperand] at hread
        exact (hexpect rest _ _ _ hrest hread).notBefore
      | leftParen =>
        rw [Builder.expectOperand] at hread
        obtain ⟨inner, placed, outer, rfl, hplaced, hstarts⟩ := hexpect rest _ _ _ hrest hread
        rw [inner.isRead placed outer _ hplaced hstarts] at hread
        obtain ⟨position', rest, rfl, hread⟩ := exists_rightParen hstarts hread
        have hlength : rest.length < count := by
          rw [List.length_append, List.length_cons] at hrest
          omega
        have hgroup : (⟨position, .leftParen⟩ :: (placed ++ [⟨position', .rightParen⟩])).map
            PlacedToken.token = (Primary.group inner).tokens := by
          rw [List.map_cons, List.map_append, hplaced, Primary.tokens]
          rfl
        have hgroup := (hafter rest _ _ _ _ hlength hread).primary (.group inner) hgroup
        rw [List.cons_append, List.append_assoc] at hgroup
        exact hgroup
      | rightParen =>
        rw [Builder.expectOperand] at hread
        split_ifs at hread
      | notAfter =>
        rw [Builder.expectOperand] at hread
        cases hread
      | connective op =>
        rw [Builder.expectOperand] at hread
        cases hread
    · intro tokens stack pending operand e hcount hread
      rcases tokens with _ | ⟨⟨position, token⟩, rest⟩
      · exact startsWithRest_of_startsWithout (startsWithout_nil _)
      have hrest : rest.length < count := Nat.lt_of_succ_lt_succ hcount
      cases token with
      | notAfter =>
        rw [Builder.afterOperand] at hread
        exact (hafter rest _ _ _ _ hrest hread).notAfter
      | connective op =>
        rw [Builder.afterOperand] at hread
        exact (hexpect rest _ _ _ hrest hread).connective op
      | rightParen => exact startsWithRest_of_startsWithout (startsWithout_rightParen _)
      | _ =>
        rw [Builder.afterOperand] at hread
        cases hread

/-! ### Reading a text -/

/-- A list of tokens is read as an expression exactly when a sum that stands for the expression
derives it. -/
theorem ofTokens_eq_ok_iff {e : Expr} : b.ofTokens length tokens = .ok e ↔
    ∃ sum : Sum, sum.tokens = tokens.map PlacedToken.token ∧ sum.value b.construction = e := by
  constructor
  · intro hread
    rw [Builder.ofTokens] at hread
    split_ifs at hread
    obtain ⟨sum, placed, rest, rfl, hplaced, hstarts⟩ :=
      (startsWithSum_and_startsWithRest (tokens.length + 1)).1 tokens [] .none e
        (Nat.lt_succ_self _) hread
    rw [sum.isRead placed rest [] hplaced hstarts] at hread
    obtain ⟨rfl, rfl⟩ := eq_nil_of_afterOperand hstarts hread
    exact ⟨sum, by rw [List.append_nil, hplaced], rfl⟩
  · rintro ⟨sum, htokens, rfl⟩
    have hread : b.expectOperand length [] .none tokens = .ok (sum.value b.construction) := by
      have hall := @Sum.isRead b length sum tokens [] [] htokens.symm (startsWithout_nil _)
      rw [List.append_nil, Builder.afterOperand] at hall
      exact hall
    have hne : ¬ tokens.isEmpty = true := by
      intro hempty
      rw [List.isEmpty_iff.mp hempty, Builder.expectOperand] at hread
      split_ifs at hread
    rw [Builder.ofTokens, if_neg hne, hread]

/-- A text is read as an expression exactly when it consists of tokens that a sum derives and the
sum stands for the expression. -/
theorem read_eq_ok_iff {text : String} {e : Expr} : b.read text = .ok e ↔
    ∃ placed, Token.ofText text = .ok placed ∧
      ∃ sum : Sum, sum.tokens = placed.map PlacedToken.token ∧ sum.value b.construction = e := by
  have hread : b.read text = (Token.ofText text).bind (b.ofTokens text.utf8ByteSize) := rfl
  rw [hread]
  cases Token.ofText text with
  | error error =>
    constructor
    · exact fun h ↦ nomatch h
    · rintro ⟨placed, h, -⟩
      cases h
  | ok placed =>
    show b.ofTokens text.utf8ByteSize placed = .ok e ↔ _
    rw [ofTokens_eq_ok_iff]
    constructor
    · exact fun hsum ↦ ⟨placed, rfl, hsum⟩
    · rintro ⟨other, hother, hsum⟩
      cases hother
      exact hsum

/-- A builder that builds what is written makes the written nodes. -/
theorem construction_raw : Builder.construction ⟨.standard, .raw⟩ = .written := by
  have hnumber : Builder.ofNumber ⟨.standard, .raw⟩ = Construction.written.number := by
    ext value
    rcases value with _ | _ | value <;> rfl
  rw [Builder.construction, hnumber]
  rfl

/-- A text is read as it is written exactly when it consists of tokens that a sum derives, and it is
read as the tree that the sum stands for. No list of tokens has two derivations. -/
theorem readRaw_derivation (text : String) :
    (∀ e : Expr, readRaw text = .ok e ↔ ∃ placed, Token.ofText text = .ok placed ∧
      ∃ derivation : Sum, derivation.tokens = placed.map PlacedToken.token ∧
        derivation.tree = e) ∧
      ∀ first second : Sum, first.tokens = second.tokens → first = second := by
  refine ⟨fun e ↦ ?_, fun _ _ ↦ Sum.tokens_injective⟩
  rw [readRaw, read_eq_ok_iff, construction_raw]
  rfl

end SwitchingAlgebra.Reading
