import Mathlib
import SwitchingAlgebra.Proofs.EvaluatingPolicies
import SwitchingAlgebra.Proofs.Reachable
import SwitchingAlgebra.Proofs.Renaming
import SwitchingAlgebra.Reading.Parse

/-!
# Reading through the prefixed policy

What is read next, and whether and where an error is found, depends on the tokens and on how many
operands wait in each open chain, but not on the operands. So two builders read one text step by
step together: they find the same error, or they make related expressions where related parts make
related nodes.

The prefixed policy gives the symbols of a text other names and numbers, in the order of the written
ones as long as no number is raised beyond the greatest one. Evaluation depends on symbols through
their order alone. So the policy reads what the standard policy reads, renamed.

Main statements: two builders that make related nodes read related expressions or find the same
error (`Builder.Tracks.read`), and evaluation and reading depend on symbols through their order
alone (`evaluation_depends_on_order`).
-/

set_option autoImplicit false
set_option relaxedAutoImplicit false

namespace SwitchingAlgebra

namespace Reading

variable {R : Expr → Expr → Prop} {Q : Token → Prop} {b b' : Builder}

/-! ### Two builders side by side -/

/-- Both readings give related expressions, or both find the same error. -/
inductive Agree (R : Expr → Expr → Prop) : Except Error Expr → Except Error Expr → Prop
  | ok {d e : Expr} (hrelated : R d e) : Agree R (.ok d) (.ok e)
  | error (error : Error) : Agree R (.error error) (.error error)

/-- What stands before the operand is related, operand by operand. -/
structure Pending.Related (R : Expr → Expr → Prop) (pending pending' : Pending) : Prop where
  terms : List.Forall₂ R pending.terms pending'.terms
  factors : List.Forall₂ R pending.factors pending'.factors
  negations : pending.negations = pending'.negations

/-- The open parentheses stand in the same place, and what stands before them is related. -/
structure Frame.Related (R : Expr → Expr → Prop) (frame frame' : Frame) : Prop where
  position : frame.position = frame'.position
  outer : frame.outer.Related R frame'.outer

theorem Pending.related_none : Pending.none.Related R Pending.none :=
  ⟨.nil, .nil, rfl⟩

theorem isEmpty_eq_of_forall₂ {α : Type} {S : α → α → Prop} {xs ys : List α}
    (hrelated : List.Forall₂ S xs ys) : xs.isEmpty = ys.isEmpty := by
  cases hrelated <;> rfl

theorem Pending.Related.isNone_eq {pending pending' : Pending}
    (hpending : pending.Related R pending') : pending.isNone = pending'.isNone := by
  rw [Pending.isNone, Pending.isNone, isEmpty_eq_of_forall₂ hpending.terms,
    isEmpty_eq_of_forall₂ hpending.factors, hpending.negations]

/-- Two builders make related nodes from related parts, and related operands from the tokens with
the property. -/
structure Builder.Tracks (R : Expr → Expr → Prop) (Q : Token → Prop) (b b' : Builder) :
    Prop where
  number : ∀ value, Q (.number value) → R (b.ofNumber value) (b'.ofNumber value)
  name : ∀ text, Q (.name text) → R (b.ofName text) (b'.ofName text)
  negate : ∀ {d e}, R d e → R (b.negate d) (b'.negate e)
  join : ∀ op {ds es}, List.Forall₂ R ds es →
    R (b.policy.join b.mode op ds) (b'.policy.join b'.mode op es)

namespace Builder.Tracks

variable {pending pending' : Pending} {operand operand' : Expr}

theorem chain (htracks : Tracks R Q b b') (op : Connective) {ds es : List Expr}
    (hoperands : List.Forall₂ R ds es) : R (b.chain op ds) (b'.chain op es) := by
  match hoperands with
  | .nil => exact htracks.join op .nil
  | .cons hfirst .nil => exact hfirst
  | .cons hfirst (.cons hsecond hrest) =>
    exact htracks.join op (.cons hfirst (.cons hsecond hrest))

theorem negateTimes (htracks : Tracks R Q b b') (hoperand : R operand operand') (times : Nat) :
    R (b.negateTimes times operand) (b'.negateTimes times operand') := by
  induction times with
  | zero => exact hoperand
  | succ times ih => exact htracks.negate ih

theorem factor (htracks : Tracks R Q b b') (hpending : pending.Related R pending')
    (hoperand : R operand operand') :
    R (b.factor pending operand) (b'.factor pending' operand') := by
  rw [Builder.factor, Builder.factor, ← hpending.negations]
  exact htracks.negateTimes hoperand _

theorem term (htracks : Tracks R Q b b') (hpending : pending.Related R pending')
    (hoperand : R operand operand') : R (b.term pending operand) (b'.term pending' operand') :=
  htracks.chain .and (List.rel_reverse (.cons (htracks.factor hpending hoperand) hpending.factors))

theorem close (htracks : Tracks R Q b b') (hpending : pending.Related R pending')
    (hoperand : R operand operand') : R (b.close pending operand) (b'.close pending' operand') :=
  htracks.chain .or (List.rel_reverse (.cons (htracks.term hpending hoperand) hpending.terms))

theorem extend (htracks : Tracks R Q b b') (hpending : pending.Related R pending')
    (hoperand : R operand operand') (op : Connective) :
    (b.extend pending operand op).Related R (b'.extend pending' operand' op) := by
  cases op with
  | and => exact ⟨hpending.terms, .cons (htracks.factor hpending hoperand) hpending.factors, rfl⟩
  | or => exact ⟨.cons (htracks.term hpending hoperand) hpending.terms, .nil, rfl⟩

/-- Side by side, two builders read on alike from the tokens: where an operand is expected, and
after related operands. -/
structure ReadsAlike (R : Expr → Expr → Prop) (b b' : Builder) (length : Nat)
    (tokens : List PlacedToken) : Prop where
  expect : ∀ {stack stack' : List Frame} {pending pending' : Pending},
    List.Forall₂ (Frame.Related R) stack stack' → pending.Related R pending' →
      Agree R (b.expectOperand length stack pending tokens)
        (b'.expectOperand length stack' pending' tokens)
  after : ∀ {stack stack' : List Frame} {pending pending' : Pending} {operand operand' : Expr},
    List.Forall₂ (Frame.Related R) stack stack' → pending.Related R pending' →
      R operand operand' →
        Agree R (b.afterOperand length stack pending operand tokens)
          (b'.afterOperand length stack' pending' operand' tokens)

variable {length position : Nat} {token : Token} {rest : List PlacedToken}
  {stack stack' : List Frame}

/-- At the end of a text open parentheses and missing operands are found alike. -/
theorem readsAlike_nil (htracks : Tracks R Q b b') (length : Nat) :
    ReadsAlike R b b' length [] where
  expect hstack hpending := by
    rw [expectOperand, expectOperand, isEmpty_eq_of_forall₂ hstack, hpending.isNone_eq]
    split_ifs <;> exact .error _
  after hstack hpending hoperand := by
    cases hstack with
    | nil =>
      rw [afterOperand, afterOperand]
      exact .ok (htracks.close hpending hoperand)
    | cons hframe _ =>
      rw [afterOperand, afterOperand, hframe.position]
      exact .error _

/-- One token is read where an operand is expected. -/
theorem expect_cons (htracks : Tracks R Q b b') (hrest : ReadsAlike R b b' length rest)
    (htoken : Q token) (hstack : List.Forall₂ (Frame.Related R) stack stack')
    (hpending : pending.Related R pending') :
    Agree R (b.expectOperand length stack pending (⟨position, token⟩ :: rest))
      (b'.expectOperand length stack' pending' (⟨position, token⟩ :: rest)) := by
  cases token with
  | number value =>
    rw [expectOperand, expectOperand]
    exact hrest.after hstack hpending (htracks.number value htoken)
  | name text =>
    rw [expectOperand, expectOperand]
    exact hrest.after hstack hpending (htracks.name text htoken)
  | notBefore =>
    rw [expectOperand, expectOperand]
    have hnegations := congrArg (· + 1) hpending.negations
    exact hrest.expect hstack ⟨hpending.terms, hpending.factors, hnegations⟩
  | leftParen =>
    rw [expectOperand, expectOperand]
    exact hrest.expect (.cons ⟨rfl, hpending⟩ hstack) Pending.related_none
  | rightParen =>
    rw [expectOperand, expectOperand, isEmpty_eq_of_forall₂ hstack]
    split_ifs <;> exact .error _
  | notAfter | connective op =>
    rw [expectOperand, expectOperand]
    exact .error _

/-- One token is read after an operand. -/
theorem after_cons (htracks : Tracks R Q b b') (hrest : ReadsAlike R b b' length rest)
    (hstack : List.Forall₂ (Frame.Related R) stack stack') (hpending : pending.Related R pending')
    (hoperand : R operand operand') :
    Agree R (b.afterOperand length stack pending operand (⟨position, token⟩ :: rest))
      (b'.afterOperand length stack' pending' operand' (⟨position, token⟩ :: rest)) := by
  cases token with
  | notAfter =>
    rw [afterOperand, afterOperand]
    exact hrest.after hstack hpending (htracks.negate hoperand)
  | connective op =>
    rw [afterOperand, afterOperand]
    exact hrest.expect hstack (htracks.extend hpending hoperand op)
  | rightParen =>
    cases hstack with
    | nil =>
      rw [afterOperand, afterOperand]
      exact .error _
    | cons hframe hstack =>
      rw [afterOperand, afterOperand]
      exact hrest.after hstack hframe.outer (htracks.close hpending hoperand)
  | number _ | name _ | notBefore | leftParen =>
    rw [afterOperand, afterOperand]
    exact .error _

/-- Side by side, two builders go through the same steps. -/
theorem readsAlike (htracks : Tracks R Q b b') (length : Nat) (tokens : List PlacedToken)
    (htokens : ∀ placed ∈ tokens, Q placed.token) : ReadsAlike R b b' length tokens := by
  induction tokens with
  | nil => exact htracks.readsAlike_nil length
  | cons placed rest ih =>
    obtain ⟨htoken, hrest⟩ := List.forall_mem_cons.mp htokens
    exact ⟨htracks.expect_cons (ih hrest) htoken, htracks.after_cons (ih hrest)⟩

/-- A text whose tokens have the property is read as related expressions, or with the same error. -/
theorem read (htracks : Tracks R Q b b') {text : String}
    (htext : ∀ tokens, Token.ofText text = .ok tokens → ∀ placed ∈ tokens, Q placed.token) :
    Agree R (b.read text) (b'.read text) := by
  have hread : ∀ b : Builder, b.read text =
      (Token.ofText text).bind (b.ofTokens text.utf8ByteSize) := fun _ ↦ rfl
  rw [hread, hread]
  cases htokens : Token.ofText text with
  | error error => exact .error error
  | ok tokens =>
    show Agree R (b.ofTokens text.utf8ByteSize tokens) (b'.ofTokens text.utf8ByteSize tokens)
    rw [ofTokens, ofTokens]
    split_ifs
    · exact .error _
    · exact (htracks.readsAlike _ tokens (htext tokens htokens)).expect .nil Pending.related_none

end Builder.Tracks

theorem Agree.map_eq {f : Expr → Expr} {x y : Except Error Expr}
    (hagree : Agree (fun d e ↦ e = f d) x y) : y = x.map f := by
  cases hagree with
  | ok hrelated => exact congrArg Except.ok hrelated
  | error error => rfl

theorem Agree.imp {S : Expr → Expr → Prop} {x y : Except Error Expr}
    (himp : ∀ d e, R d e → S d e) (hagree : Agree R x y) : Agree S x y := by
  cases hagree with
  | ok hrelated => exact .ok (himp _ _ hrelated)
  | error error => exact .error error

end Reading

/-! ### Raised symbols -/

open Policy Reading

/-- An integer that can be raised by a hundred, or any other symbol. -/
def Symbol.CanBeRaised : Symbol → Prop
  | .int value => value.toInt + 100 ≤ Token.maxNumber
  | .name _ => True
  | .anonymous _ => True

theorem toInt_add_hundred {value : Int64} (hvalue : value.toInt + 100 ≤ Token.maxNumber) :
    (value + 100).toInt = value.toInt + 100 := by
  have hlower : -2 ^ 63 ≤ value.toInt := value.le_toInt
  have hhundred : (100 : Int64).toInt = 100 := rfl
  have hmax : (Token.maxNumber : Int) = 2 ^ 63 - 1 := rfl
  rw [Int64.toInt_add, hhundred]
  exact Int.bmod_eq_of_le (by omega) (by omega)

/-- The prefixed policy keeps the order of the symbols. -/
theorem increasingOn_prefixed : IncreasingOn Symbol.CanBeRaised prefixed.symbol := by
  intro s t hs ht hlt
  match s, t with
  | .int x, .int y =>
    have hlt : x < y := Std.compare_eq_lt.mp hlt
    have hraised : x + 100 < y + 100 := by
      rw [Int64.lt_iff_toInt_lt] at hlt ⊢
      rw [toInt_add_hundred hs, toInt_add_hundred ht]
      omega
    show compare (x + 100) (y + 100) = .lt
    exact Std.compare_eq_lt.mpr hraised
  | .name x, .name y =>
    have hlt : x < y := compare_lt_iff_lt.mp hlt
    have hraised : "x_" ++ x < "x_" ++ y := by
      rw [String.lt_iff_toList_lt] at hlt ⊢
      rw [String.toList_append, String.toList_append]
      exact List.Lex.append_left _ hlt _
    show compare ("x_" ++ x) ("x_" ++ y) = .lt
    exact compare_lt_iff_lt.mpr hraised
  | .anonymous _, .anonymous _ => exact hlt
  | .int _, .name _ | .int _, .anonymous _ | .name _, .anonymous _ => rfl
  | .name _, .int _ | .anonymous _, .int _ | .anonymous _, .name _ => cases hlt

/-! ### What the prefixed policy reads -/

theorem eq_map_of_forall₂ {α : Type} {f : α → α} {xs ys : List α}
    (hrelated : List.Forall₂ (fun x y ↦ y = f x) xs ys) : ys = xs.map f := by
  rw [← List.forall₂_eq_eq_eq, List.forall₂_map_right_iff]
  exact hrelated.flip.imp fun _ _ heq ↦ heq

/-- Without evaluation the prefixed policy makes the nodes of the standard one, renamed. -/
theorem tracks_prefixed_raw : Builder.Tracks (fun d e ↦ e = d.rename prefixed.symbol)
    (fun _ ↦ True) ⟨standard, .raw⟩ ⟨prefixed, .raw⟩ where
  number value _ := by
    match value with
    | 0 | 1 | _ + 2 => simp only [Builder.ofNumber, Expr.rename]; rfl
  name text _ := by
    simp only [Builder.ofName, Expr.rename]
    rfl
  negate {d e} hoperand := by
    show Expr.not .raw e = (Expr.not .raw d).rename prefixed.symbol
    rw [Expr.rename, hoperand]
  join op {ds es} hoperands := by
    show Expr.join .raw op es = (Expr.join .raw op ds).rename prefixed.symbol
    rw [Expr.rename_join, eq_map_of_forall₂ hoperands]

/-- The second expression is the first one with raised symbols, where both are evaluated. -/
structure IsRaised (d e : Expr) : Prop where
  evaluated : d.Evaluated
  canBeRaised : d.MentionsOnly Symbol.CanBeRaised
  eq_rename : e = d.rename prefixed.symbol

theorem IsRaised.evaluated_rename {d e : Expr} (hraised : IsRaised d e) : e.Evaluated :=
  hraised.eq_rename ▸
    (Expr.symmetry_rename increasingOn_prefixed).evaluated_map hraised.evaluated hraised.canBeRaised

/-- A number that can be raised by a hundred, or any other token. -/
def Reading.Token.CanBeRaised (token : Token) : Prop :=
  ∀ value, token = .number value → value ≤ Token.maxNumber - 100

theorem canBeRaised_ofNat {value : Nat} (hvalue : value ≤ Token.maxNumber - 100) :
    Symbol.CanBeRaised (.int (Int64.ofNat value)) := by
  have hmax : Token.maxNumber = 2 ^ 63 - 1 := rfl
  rw [hmax] at hvalue
  rw [Symbol.CanBeRaised, Int64.toInt_ofNat_of_lt (by omega), hmax]
  omega

theorem IsRaised.negation {d e : Expr} (hoperand : IsRaised d e) :
    IsRaised (standard.negation .evaluated d) (prefixed.negation .evaluated e) := by
  have hsymmetry := Expr.symmetry_rename increasingOn_prefixed
  rw [evaluating_standard.negation_evaluated, evaluating_prefixed.negation_evaluated,
    hoperand.evaluated.eval_eq, hoperand.evaluated_rename.eval_eq, hoperand.eq_rename,
    hsymmetry.complement_map]
  exact ⟨Expr.evaluated_complement hoperand.evaluated,
    mentionsOnly_complement hoperand.canBeRaised, rfl⟩

theorem IsRaised.join (op : Connective) {ds es : List Expr}
    (hoperands : List.Forall₂ IsRaised ds es) :
    IsRaised (standard.join .evaluated op ds) (prefixed.join .evaluated op es) := by
  have hsymmetry := Expr.symmetry_rename increasingOn_prefixed
  have hes := eq_map_of_forall₂ (hoperands.imp fun _ _ hraised ↦ hraised.eq_rename)
  have hds : ∀ d ∈ ds, d.Evaluated ∧ d.MentionsOnly Symbol.CanBeRaised :=
    ((List.forall₂_and_left ds es).mp
      (hoperands.imp fun _ _ hraised ↦ ⟨⟨hraised.evaluated, hraised.canBeRaised⟩, hraised⟩)).1
  have hevaluated := fun d hd ↦ (hds d hd).1
  have hsymbols := fun d hd ↦ (hds d hd).2
  have hrenamed : ∀ e ∈ ds.map (Expr.rename prefixed.symbol), e.Evaluated :=
    List.forall_mem_map.mpr fun d hd ↦
      hsymmetry.evaluated_map (hevaluated d hd) (hsymbols d hd)
  rw [evaluating_standard.join_evaluated, evaluating_prefixed.join_evaluated, hes,
    Expr.map_eval_eq hevaluated, Expr.map_eval_eq hrenamed]
  exact ⟨Expr.evaluated_combine hevaluated, mentionsOnly_combine hsymbols,
    hsymmetry.combine_map hevaluated hsymbols⟩

/-- With evaluation it makes the evaluated nodes of the standard policy, renamed. -/
theorem tracks_prefixed_evaluated : Builder.Tracks IsRaised Token.CanBeRaised
    ⟨standard, .evaluated⟩ ⟨prefixed, .evaluated⟩ where
  number value hvalue := by
    match value with
    | 0 | 1 =>
      refine ⟨.truth _, Expr.mentionsOnly_truth _, ?_⟩
      simp only [Builder.ofNumber, Expr.rename]
      rfl
    | value + 2 =>
      have hraised := canBeRaised_ofNat (hvalue (value + 2) rfl)
      refine ⟨.symbol _, Expr.mentionsOnly_symbol_iff.mpr hraised, ?_⟩
      simp only [Builder.ofNumber, Expr.rename]
      rfl
  name text _ := by
    refine ⟨.symbol _, Expr.mentionsOnly_symbol_iff.mpr trivial, ?_⟩
    simp only [Builder.ofName, Expr.rename]
    rfl
  negate hoperand := hoperand.negation
  join op := IsRaised.join op

/-- Evaluation depends on symbols through their order alone: for an expression that is built by the
standard policy it commutes with every renaming that increases on the symbols of the expression. A
text without numbers that raising by a hundred would take beyond the greatest one is read through
the prefixed policy, with evaluation or without, as through the standard policy with all symbols
renamed, or with the same error. -/
theorem evaluation_depends_on_order {e : Expr} (he : e.Built) {r : Symbol → Symbol}
    (hr : ∀ s ∈ e.symbols, ∀ t ∈ e.symbols, compare s t = .lt → compare (r s) (r t) = .lt)
    (mode : Mode) {text : String}
    (htext : ∀ tokens, Token.ofText text = .ok tokens → ∀ placed ∈ tokens, ∀ value,
      placed.token = .number value → value ≤ Token.maxNumber - 100) :
    (e.rename r).eval = e.eval.rename r ∧
      Builder.read ⟨prefixed, mode⟩ text =
        (Builder.read ⟨standard, mode⟩ text).map (Expr.rename prefixed.symbol) := by
  refine ⟨he.settled.eval_rename fun s t hs ht ↦ hr s hs t ht, ?_⟩
  cases mode with
  | evaluated =>
    exact ((tracks_prefixed_evaluated.read htext).imp fun _ _ hraised ↦ hraised.eq_rename).map_eq
  | raw => exact (tracks_prefixed_raw.read fun _ _ _ _ ↦ trivial).map_eq

/-- The symbols of the written choice are renamed to symbols of the three kinds, in their order. -/
def spreadSymbols : Symbol → Symbol
  | .name "a" => .int 3
  | .name "b" => .name "k"
  | _ => .anonymous 0

/-- A choice between two names by a number, as a text. -/
def numberedChoice : String :=
  "7*b + ~7*a"

/-- The evaluated choice between two symbols by a third. -/
def choiceBetween (s t u : Symbol) : Expr :=
  .join .evaluated .or [.join .evaluated .and [.symbol s, .symbol t],
    .join .evaluated .and [.not .evaluated (.symbol s), .symbol u]]

/-- The written choice is evaluated to the same form after its names are spread over the kinds of
symbols, and the prefixed policy reads the numbered choice with raised symbols. -/
theorem choice_depends_on_order : writtenChoice.Built ∧
    (∀ s ∈ writtenChoice.symbols, ∀ t ∈ writtenChoice.symbols, compare s t = .lt →
      compare (spreadSymbols s) (spreadSymbols t) = .lt) ∧
    (∀ tokens, Token.ofText numberedChoice = .ok tokens → ∀ placed ∈ tokens, ∀ value,
      placed.token = .number value → value ≤ Token.maxNumber - 100) ∧
    (writtenChoice.rename spreadSymbols).eval =
      choiceBetween (.int 3) (.name "k") (.anonymous 0) ∧
    Builder.read ⟨prefixed, .evaluated⟩ numberedChoice =
      .ok (choiceBetween (.int 107) (.name "x_b") (.name "x_a")) := by
  have hsymbols : writtenChoice.symbols = [.name "a", .name "b", .name "c"] := by cbv
  have hincreasing : ∀ s ∈ writtenChoice.symbols, ∀ t ∈ writtenChoice.symbols,
      compare s t = .lt → compare (spreadSymbols s) (spreadSymbols t) = .lt := by
    rw [hsymbols]
    decide +kernel
  have htokens : Token.ofText numberedChoice = .ok [⟨0, .number 7⟩, ⟨1, .connective .and⟩,
      ⟨2, .name "b"⟩, ⟨4, .connective .or⟩, ⟨6, .notBefore⟩, ⟨7, .number 7⟩,
      ⟨8, .connective .and⟩, ⟨9, .name "a"⟩] := by cbv
  have hnumbers : ∀ tokens, Token.ofText numberedChoice = .ok tokens → ∀ placed ∈ tokens,
      ∀ value, placed.token = .number value → value ≤ Token.maxNumber - 100 := by
    rw [htokens]
    rintro _ ⟨⟩
    simp [Token.maxNumber]
  obtain ⟨heval, hread⟩ :=
    evaluation_depends_on_order Expr.built_writtenChoice hincreasing .evaluated
    hnumbers
  have hwritten : writtenChoice.eval.rename spreadSymbols =
      choiceBetween (.int 3) (.name "k") (.anonymous 0) := by cbv
  have hstandard : Builder.read ⟨standard, .evaluated⟩ numberedChoice =
      .ok (choiceBetween (.int 7) (.name "b") (.name "a")) := by cbv
  rw [hstandard] at hread
  have hraised : (choiceBetween (.int 7) (.name "b") (.name "a")).rename prefixed.symbol =
      choiceBetween (.int 107) (.name "x_b") (.name "x_a") := by cbv
  exact ⟨Expr.built_writtenChoice, hincreasing, hnumbers, heval.trans hwritten,
    hread.trans (congrArg Except.ok hraised)⟩

end SwitchingAlgebra
