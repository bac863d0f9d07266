import Mathlib
import SwitchingAlgebra.Reading.Parse

/-!
# The grammar of written expressions

A written expression is derived by four rules. A sum is a chain of products with the sign of OR
between them, a product a chain of factors with the sign of AND between them, a factor a negation
sign before a factor or a primary with negation signs after it, and a primary a number, a name or a
sum in parentheses. A derivation is the tree of the rules that are applied, so that two derivations
are equal only if the same rules are applied at the same places.

Main statement: the grammar is unambiguous, a list of tokens has at most one derivation
(`Sum.tokens_injective`).
-/

set_option autoImplicit false
set_option relaxedAutoImplicit false

namespace SwitchingAlgebra.Reading

/-! ### Derivations -/

namespace Grammar

mutual

/-- A product, and more products each after a sign of OR. -/
inductive Sum where
  /-- The first product and those after it. -/
  | chain (first : Product) (rest : List Product)

/-- A factor, and more factors each after a sign of AND. -/
inductive Product where
  /-- The first factor and those after it. -/
  | chain (first : Factor) (rest : List Factor)

/-- A primary under negations. -/
inductive Factor where
  /-- A negation sign before a factor. -/
  | negated (operand : Factor)
  /-- A primary and a number of negation signs after it. -/
  | complemented (operand : Primary) (times : Nat)

/-- What negation signs stand at. -/
inductive Primary where
  /-- A number. -/
  | number (value : Nat)
  /-- A name. -/
  | name (text : String)
  /-- A sum in parentheses. -/
  | group (inner : Sum)

end

mutual

/-- The tokens that a sum derives. -/
def Sum.tokens : Sum → List Token
  | .chain first rest => first.tokens ++ Product.tokensAfter rest

/-- The tokens of products that each stand after a sign of OR. -/
def Product.tokensAfter : List Product → List Token
  | [] => []
  | product :: rest => .connective .or :: (product.tokens ++ Product.tokensAfter rest)

/-- The tokens that a product derives. -/
def Product.tokens : Product → List Token
  | .chain first rest => first.tokens ++ Factor.tokensAfter rest

/-- The tokens of factors that each stand after a sign of AND. -/
def Factor.tokensAfter : List Factor → List Token
  | [] => []
  | factor :: rest => .connective .and :: (factor.tokens ++ Factor.tokensAfter rest)

/-- The tokens that a factor derives. -/
def Factor.tokens : Factor → List Token
  | .negated operand => .notBefore :: operand.tokens
  | .complemented operand times => operand.tokens ++ List.replicate times .notAfter

/-- The tokens that a primary derives. -/
def Primary.tokens : Primary → List Token
  | .number value => [.number value]
  | .name text => [.name text]
  | .group inner => .leftParen :: (inner.tokens ++ [.rightParen])

end

end Grammar

/-! ### What derivations stand for -/

/-- How the nodes of an expression are made from a derivation. -/
structure Construction where
  /-- The expression that a number stands for. -/
  number : Nat → Expr
  /-- The expression that a name stands for. -/
  name : String → Expr
  /-- The negation of an expression. -/
  negation : Expr → Expr
  /-- The join of two or more expressions. -/
  join : Connective → List Expr → Expr

namespace Construction

/-- The expression as it is written. The numbers zero and one are the constants, all other numbers
and the names are symbols, and every negation sign and every operator chain is a raw node. -/
def written : Construction where
  number
    | 0 => .truth false
    | 1 => .truth true
    | value => .symbol (.int (Int64.ofNat value))
  name text := .symbol (.name text)
  negation := .not .raw
  join := .join .raw

/-- An operator chain is a join of all its operands in the order in which they are written. A chain
of one operand is that operand. -/
def chain (c : Construction) (op : Connective) : List Expr → Expr
  | [e] => e
  | es => c.join op es

end Construction

namespace Grammar

mutual

/-- The expression that a sum stands for. -/
def Sum.value (c : Construction) : Sum → Expr
  | .chain first rest => c.chain .or (first.value c :: Product.values c rest)

/-- The expressions that products stand for. -/
def Product.values (c : Construction) : List Product → List Expr
  | [] => []
  | product :: rest => product.value c :: Product.values c rest

/-- The expression that a product stands for. -/
def Product.value (c : Construction) : Product → Expr
  | .chain first rest => c.chain .and (first.value c :: Factor.values c rest)

/-- The expressions that factors stand for. -/
def Factor.values (c : Construction) : List Factor → List Expr
  | [] => []
  | factor :: rest => factor.value c :: Factor.values c rest

/-- The expression that a factor stands for: a negation sign before it applies outside of all that
stand after it. -/
def Factor.value (c : Construction) : Factor → Expr
  | .negated operand => c.negation (operand.value c)
  | .complemented operand times => c.negation^[times] (operand.value c)

/-- The expression that a primary stands for. -/
def Primary.value (c : Construction) : Primary → Expr
  | .number value => c.number value
  | .name text => c.name text
  | .group inner => inner.value c

end

/-- The expression that a derivation stands for as it is written. -/
def Sum.tree (derivation : Sum) : Expr :=
  derivation.value .written

/-! ### Induction -/

theorem Product.tokensAfter_eq_flatMap (products : List Product) :
    Product.tokensAfter products =
      products.flatMap fun product ↦ .connective .or :: product.tokens := by
  induction products with
  | nil => rw [Product.tokensAfter, List.flatMap_nil]
  | cons product rest ih => rw [Product.tokensAfter, ih, List.flatMap_cons, List.cons_append]

theorem Factor.tokensAfter_eq_flatMap (factors : List Factor) :
    Factor.tokensAfter factors =
      factors.flatMap fun factor ↦ .connective .and :: factor.tokens := by
  induction factors with
  | nil => rw [Factor.tokensAfter, List.flatMap_nil]
  | cons factor rest ih => rw [Factor.tokensAfter, ih, List.flatMap_cons, List.cons_append]

theorem Product.values_eq_map (c : Construction) (products : List Product) :
    Product.values c products = products.map (Product.value c) := by
  induction products with
  | nil => rw [Product.values, List.map_nil]
  | cons product rest ih => rw [Product.values, ih, List.map_cons]

theorem Factor.values_eq_map (c : Construction) (factors : List Factor) :
    Factor.values c factors = factors.map (Factor.value c) := by
  induction factors with
  | nil => rw [Factor.values, List.map_nil]
  | cons factor rest ih => rw [Factor.values, ih, List.map_cons]

/-- Induction over a derivation: statements that pass from the parts of every rule to the whole hold
of all sums. -/
theorem Sum.induct {motive : Sum → Prop} (onProduct : Product → Prop) (onFactor : Factor → Prop)
    (onPrimary : Primary → Prop)
    (sum : ∀ first rest, onProduct first → (∀ product ∈ rest, onProduct product) →
      motive (.chain first rest))
    (product : ∀ first rest, onFactor first → (∀ factor ∈ rest, onFactor factor) →
      onProduct (.chain first rest))
    (negated : ∀ operand, onFactor operand → onFactor (.negated operand))
    (complemented : ∀ operand times, onPrimary operand → onFactor (.complemented operand times))
    (number : ∀ value, onPrimary (.number value)) (name : ∀ text, onPrimary (.name text))
    (group : ∀ inner, motive inner → onPrimary (.group inner)) (derivation : Sum) :
    motive derivation :=
  @Sum.rec motive onProduct onFactor onPrimary
    (fun products ↦ ∀ product ∈ products, onProduct product)
    (fun factors ↦ ∀ factor ∈ factors, onFactor factor)
    sum product negated complemented number name group
    (fun _ h ↦ absurd h List.not_mem_nil)
    (fun _ _ hhead htail p hp ↦ (List.mem_cons.mp hp).elim (fun h ↦ h ▸ hhead) (htail p))
    (fun _ h ↦ absurd h List.not_mem_nil)
    (fun _ _ hhead htail f hf ↦ (List.mem_cons.mp hf).elim (fun h ↦ h ▸ hhead) (htail f)) derivation

/-! ### Derivations are unique -/

/-- The tokens with which a factor could go on. -/
def Factor.continuations : List Token :=
  [.notAfter]

/-- The tokens with which a product could go on. -/
def Product.continuations : List Token :=
  .connective .and :: Factor.continuations

/-- The tokens with which a sum could go on. -/
def Sum.continuations : List Token :=
  .connective .or :: Product.continuations

/-- A list of tokens starts with none of the given ones. -/
def StartsWithout (stops tokens : List Token) : Prop :=
  ∀ token ∈ stops, tokens.head? ≠ some token

theorem StartsWithout.mono {stops stops' tokens : List Token} (hsubset : stops' ⊆ stops)
    (hstarts : StartsWithout stops tokens) : StartsWithout stops' tokens :=
  fun token htoken ↦ hstarts token (hsubset htoken)

theorem startsWithout_nil (stops : List Token) : StartsWithout stops [] :=
  fun _ _ h ↦ nomatch h

theorem startsWithout_rightParen (tokens : List Token) :
    StartsWithout Sum.continuations (.rightParen :: tokens) := by
  intro token htoken h
  rw [← Option.some.inj h] at htoken
  exact absurd htoken (by decide)

/-- What follows the first part of a chain starts with the sign of the chain or is what follows the
chain. -/
theorem StartsWithout.flatMap_append {α : Type} {stops tail : List Token} {sign : Token}
    (hsign : sign ∉ stops) (hstarts : StartsWithout stops tail) (tokensOf : α → List Token)
    (parts : List α) :
    StartsWithout stops (parts.flatMap (fun part ↦ sign :: tokensOf part) ++ tail) := by
  intro token htoken
  cases parts with
  | nil => exact hstarts token htoken
  | cons part rest => exact fun h ↦ hsign (Option.some.inj h ▸ htoken)

/-- Where nothing that follows starts with one of the given tokens, a part of a derivation and what
follows it can be told from the tokens of both. -/
def Determined {α : Type} (stops : List Token) (tokensOf : α → List Token) (part : α) : Prop :=
  ∀ other tail tail', StartsWithout stops tail → StartsWithout stops tail' →
    tokensOf part ++ tail = tokensOf other ++ tail' → part = other ∧ tail = tail'

/-- The first part of a chain can be told from the tokens of the chain and of what follows it. -/
theorem Determined.eq_of_chain {α : Type} {stops : List Token} {sign : Token} (hsign : sign ∉ stops)
    {tokensOf : α → List Token} {first other : α} {rest others : List α}
    (hfirst : Determined stops tokensOf first) {tail tail' : List Token}
    (hstarts : StartsWithout (sign :: stops) tail) (hstarts' : StartsWithout (sign :: stops) tail')
    (htokens : tokensOf first ++ (rest.flatMap (fun part ↦ sign :: tokensOf part) ++ tail) =
      tokensOf other ++ (others.flatMap (fun part ↦ sign :: tokensOf part) ++ tail')) :
    first = other ∧ rest.flatMap (fun part ↦ sign :: tokensOf part) ++ tail =
      others.flatMap (fun part ↦ sign :: tokensOf part) ++ tail' := by
  have hmono : stops ⊆ sign :: stops := List.subset_cons_self sign stops
  exact hfirst other _ _ ((hstarts.mono hmono).flatMap_append hsign tokensOf rest)
    ((hstarts'.mono hmono).flatMap_append hsign tokensOf others) htokens

/-- The parts of a chain after the first are determined when the sign of the chain does not
follow. -/
theorem determined_flatMap {α : Type} {stops : List Token} {sign : Token} (hsign : sign ∉ stops)
    {tokensOf : α → List Token} {parts : List α}
    (hparts : ∀ part ∈ parts, Determined stops tokensOf part) :
    Determined (sign :: stops) (List.flatMap fun part ↦ sign :: tokensOf part) parts := by
  induction parts with
  | nil =>
    intro others tail tail' hstarts hstarts' htokens
    cases others with
    | nil => exact ⟨rfl, htokens⟩
    | cons other others =>
      exact absurd (congrArg List.head? htokens) (hstarts sign List.mem_cons_self)
  | cons part rest ih =>
    intro others tail tail' hstarts hstarts' htokens
    cases others with
    | nil => exact absurd (congrArg List.head? htokens).symm (hstarts' sign List.mem_cons_self)
    | cons other others =>
      rw [List.flatMap_cons, List.flatMap_cons, List.cons_append, List.cons_append,
        List.cons_append, List.cons_append, List.append_assoc, List.append_assoc] at htokens
      obtain ⟨rfl, hrest⟩ := (hparts part List.mem_cons_self).eq_of_chain hsign hstarts hstarts'
        (List.cons.inj htokens).2
      obtain ⟨rfl, htail⟩ := ih (fun p hp ↦ hparts p (List.mem_cons_of_mem _ hp)) others tail tail'
        hstarts hstarts' hrest
      exact ⟨rfl, htail⟩

/-- A chain is determined when neither its sign nor a token with which a part could go on
follows. -/
theorem eq_of_chain_append {α : Type} {stops : List Token} {sign : Token} (hsign : sign ∉ stops)
    {tokensOf : α → List Token} {first other : α} {rest others : List α}
    (hfirst : Determined stops tokensOf first)
    (hrest : ∀ part ∈ rest, Determined stops tokensOf part) {tail tail' : List Token}
    (hstarts : StartsWithout (sign :: stops) tail) (hstarts' : StartsWithout (sign :: stops) tail')
    (htokens : tokensOf first ++ rest.flatMap (fun part ↦ sign :: tokensOf part) ++ tail =
      tokensOf other ++ others.flatMap (fun part ↦ sign :: tokensOf part) ++ tail') :
    (first = other ∧ rest = others) ∧ tail = tail' := by
  rw [List.append_assoc, List.append_assoc] at htokens
  obtain ⟨hhead, hafter⟩ := hfirst.eq_of_chain hsign hstarts hstarts' htokens
  obtain ⟨hparts, htail⟩ := determined_flatMap hsign hrest others tail tail' hstarts hstarts' hafter
  exact ⟨⟨hhead, hparts⟩, htail⟩

/-- The number of negation signs after a primary is determined when no more of them follow. -/
theorem determined_replicate (times : Nat) :
    Determined Factor.continuations (fun times ↦ List.replicate times Token.notAfter) times := by
  induction times with
  | zero =>
    intro other tail tail' hstarts hstarts' htokens
    cases other with
    | zero => exact ⟨rfl, htokens⟩
    | succ other => exact absurd (congrArg List.head? htokens) (hstarts _ List.mem_cons_self)
  | succ times ih =>
    intro other tail tail' hstarts hstarts' htokens
    cases other with
    | zero => exact absurd (congrArg List.head? htokens).symm (hstarts' _ List.mem_cons_self)
    | succ other =>
      obtain ⟨htimes, htail⟩ := ih other tail tail' hstarts hstarts' (List.cons.inj htokens).2
      exact ⟨congrArg (· + 1) htimes, htail⟩

theorem Primary.tokens_append_ne (primary : Primary) (tail tail' : List Token) :
    primary.tokens ++ tail ≠ .notBefore :: tail' := by
  cases primary <;> simp [Primary.tokens]

/-- A sum is determined when no sign with which it could go on follows. -/
theorem Sum.determined (derivation : Sum) :
    Determined Sum.continuations Sum.tokens derivation := by
  induction derivation using Sum.induct (Determined Product.continuations Product.tokens)
    (Determined Factor.continuations Factor.tokens) (Determined [] Primary.tokens) with
  | sum first rest hfirst hrest =>
    rintro ⟨first', rest'⟩ tail tail' hstarts hstarts' htokens
    rw [Sum.tokens, Sum.tokens, Product.tokensAfter_eq_flatMap,
      Product.tokensAfter_eq_flatMap] at htokens
    obtain ⟨⟨rfl, rfl⟩, htail⟩ :=
      eq_of_chain_append (by decide) hfirst hrest hstarts hstarts' htokens
    exact ⟨rfl, htail⟩
  | product first rest hfirst hrest =>
    rintro ⟨first', rest'⟩ tail tail' hstarts hstarts' htokens
    rw [Product.tokens, Product.tokens, Factor.tokensAfter_eq_flatMap,
      Factor.tokensAfter_eq_flatMap] at htokens
    obtain ⟨⟨rfl, rfl⟩, htail⟩ :=
      eq_of_chain_append (by decide) hfirst hrest hstarts hstarts' htokens
    exact ⟨rfl, htail⟩
  | negated operand ih =>
    rintro (other | ⟨primary, times⟩) tail tail' hstarts hstarts' htokens
    · rw [Factor.tokens, Factor.tokens] at htokens
      obtain ⟨rfl, htail⟩ := ih other tail tail' hstarts hstarts' (List.cons.inj htokens).2
      exact ⟨rfl, htail⟩
    · rw [Factor.tokens, Factor.tokens, List.append_assoc] at htokens
      exact absurd htokens.symm (primary.tokens_append_ne _ _)
  | complemented operand times ih =>
    rintro (other | ⟨primary, times'⟩) tail tail' hstarts hstarts' htokens
    · rw [Factor.tokens, Factor.tokens, List.append_assoc] at htokens
      exact absurd htokens (operand.tokens_append_ne _ _)
    · rw [Factor.tokens, Factor.tokens, List.append_assoc, List.append_assoc] at htokens
      obtain ⟨rfl, hsigns⟩ := ih primary _ _ (fun _ h ↦ absurd h List.not_mem_nil)
        (fun _ h ↦ absurd h List.not_mem_nil) htokens
      obtain ⟨rfl, htail⟩ := determined_replicate times times' tail tail' hstarts hstarts' hsigns
      exact ⟨rfl, htail⟩
  | number value =>
    rintro (other | other | other) tail tail' - - htokens
    · obtain ⟨hhead, htail⟩ := List.cons.inj htokens
      exact ⟨congrArg _ (Token.number.inj hhead), htail⟩
    · cases (List.cons.inj htokens).1
    · cases (List.cons.inj htokens).1
  | name text =>
    rintro (other | other | other) tail tail' - - htokens
    · cases (List.cons.inj htokens).1
    · obtain ⟨hhead, htail⟩ := List.cons.inj htokens
      exact ⟨congrArg _ (Token.name.inj hhead), htail⟩
    · cases (List.cons.inj htokens).1
  | group inner ih =>
    rintro (other | other | other) tail tail' - - htokens
    · cases (List.cons.inj htokens).1
    · cases (List.cons.inj htokens).1
    · rw [Primary.tokens, Primary.tokens, List.cons_append, List.cons_append, List.append_assoc,
        List.append_assoc] at htokens
      obtain ⟨rfl, htail⟩ := ih other _ _ (startsWithout_rightParen tail)
        (startsWithout_rightParen tail') (List.cons.inj htokens).2
      exact ⟨rfl, (List.cons.inj htail).2⟩

/-- A list of tokens has at most one derivation. -/
theorem Sum.tokens_injective {first second : Sum} (htokens : first.tokens = second.tokens) :
    first = second := by
  have htails : first.tokens ++ [] = second.tokens ++ [] := by rw [htokens]
  exact (first.determined second [] [] (startsWithout_nil _) (startsWithout_nil _) htails).1

end Grammar

end SwitchingAlgebra.Reading
