import Mathlib
import SwitchingAlgebra.Proofs.Descent
import SwitchingAlgebra.Proofs.EvaluatedReading

/-!
# Syntax errors

Whether tokens make up an expression, and what is wrong with them if they do not, can be told from
left to right without building anything. It is enough to know where the open parentheses stand and
whether an operand is expected. The first token that does not fit is the error; if all fit, what is
missing at the end is.

Main statement: whatever is built while a text is read, by the rules of the grammar or by one scan,
the text is accepted or rejected as these checks say (`outcome_eq_check`).
-/

set_option autoImplicit false
set_option relaxedAutoImplicit false

namespace SwitchingAlgebra.Reading

/-! ### Checking tokens -/

/-- What the tokens so far leave open. -/
structure Nesting where
  /-- The positions of the open parentheses, the innermost first. -/
  opened : List Nat
  /-- An operand must come next. -/
  expectsOperand : Bool

namespace Nesting

/-- Before the first token an operand is expected and nothing is open. -/
def start : Nesting :=
  ⟨[], true⟩

/-- One more token is checked. Where an operand is expected, a connective or a negation sign that
stands after its operand lacks it. After an operand nothing can stand that starts another one. -/
def step (state : Nesting) (p : PlacedToken) : Except Error Nesting :=
  match state.expectsOperand, p.token with
  | true, .number _ | true, .name _ => .ok ⟨state.opened, false⟩
  | true, .notBefore => .ok ⟨state.opened, true⟩
  | true, .leftParen => .ok ⟨p.position :: state.opened, true⟩
  | true, .rightParen =>
    if state.opened.isEmpty then .error ⟨.unbalancedParenthesis, p.position⟩
    else .error ⟨.unexpectedToken p.token.text, p.position⟩
  | true, .notAfter | true, .connective _ => .error ⟨.danglingOperator, p.position⟩
  | false, .notAfter => .ok ⟨state.opened, false⟩
  | false, .connective _ => .ok ⟨state.opened, true⟩
  | false, .rightParen =>
    match state.opened with
    | [] => .error ⟨.unbalancedParenthesis, p.position⟩
    | _ :: outer => .ok ⟨outer, false⟩
  | false, .notBefore | false, .leftParen | false, .number _ | false, .name _ =>
    .error ⟨.unexpectedToken p.token.text, p.position⟩

/-- The end of a text of the given length is checked, after its last token. -/
def finish (length : Nat) (last : Option PlacedToken) (state : Nesting) : Except Error Unit :=
  if state.expectsOperand then
    if last.map PlacedToken.token = some .leftParen then .error ⟨.unbalancedParenthesis, length⟩
    else .error ⟨.danglingOperator, length⟩
  else
    match state.opened with
    | [] => .ok ()
    | innermost :: _ => .error ⟨.unbalancedParenthesis, innermost⟩

end Nesting

/-- All tokens of a text of the given length are checked from left to right. -/
def check (length : Nat) (tokens : List PlacedToken) : Except Error Unit := do
  if tokens.isEmpty then .error ⟨.empty, 0⟩
  let state ← tokens.foldlM Nesting.step .start
  state.finish length tokens.getLast?

/-! ### Reading and checking -/

variable {b : Builder} {length : Nat} {tokens rest : List PlacedToken}

/-- Reading on from the tokens ends as checking them does: where an operand is expected after the
latest token, and after an operand. -/
structure EndsAsChecked (b : Builder) (length : Nat) (tokens : List PlacedToken) : Prop where
  expect : ∀ (stack : List Frame) (pending : Pending) (latest : Option PlacedToken),
    (latest.map PlacedToken.token = some .leftParen ↔
      stack.isEmpty = false ∧ pending.isNone = true) →
      outcome (b.expectOperand length stack pending tokens) =
        tokens.foldlM Nesting.step ⟨stack.map Frame.position, true⟩ >>=
          Nesting.finish length (tokens.getLast?.or latest)
  after : ∀ (stack : List Frame) (pending : Pending) (operand : Expr) (latest : Option PlacedToken),
    outcome (b.afterOperand length stack pending operand tokens) =
      tokens.foldlM Nesting.step ⟨stack.map Frame.position, false⟩ >>=
        Nesting.finish length (tokens.getLast?.or latest)

theorem endsAsChecked_nil : EndsAsChecked b length [] where
  expect stack pending latest hlatest := by
    rw [Builder.expectOperand]
    show outcome _ = Nesting.finish length latest ⟨stack.map Frame.position, true⟩
    rw [Nesting.finish, if_pos rfl]
    by_cases hopened : latest.map PlacedToken.token = some .leftParen
    · obtain ⟨hstack, hpending⟩ := hlatest.mp hopened
      rw [if_pos hopened, hstack, hpending]
      rfl
    · have hnot := mt hlatest.mpr hopened
      rw [if_neg hopened, if_neg (by simpa using hnot)]
      rfl
  after stack pending operand latest := by
    cases stack with
    | nil =>
      rw [Builder.afterOperand]
      rfl
    | cons frame stack =>
      rw [Builder.afterOperand]
      rfl

theorem getLast?_cons_or (p : PlacedToken) (latest : Option PlacedToken) :
    (p :: rest).getLast?.or latest = rest.getLast?.or (some p) := by
  rw [List.getLast?_cons]
  cases rest.getLast? <;> rfl

theorem endsAsChecked_cons (hrest : EndsAsChecked b length rest) (p : PlacedToken) :
    EndsAsChecked b length (p :: rest) := by
  obtain ⟨position, token⟩ := p
  constructor
  · intro stack pending latest _
    rw [getLast?_cons_or, List.foldlM_cons, bind_assoc]
    cases token with
    | number value =>
      rw [Builder.expectOperand]
      exact hrest.after stack pending _ _
    | name text =>
      rw [Builder.expectOperand]
      exact hrest.after stack pending _ _
    | notBefore =>
      rw [Builder.expectOperand]
      exact hrest.expect stack _ _ (by simp [Pending.isNone])
    | leftParen =>
      rw [Builder.expectOperand]
      exact hrest.expect (⟨position, pending⟩ :: stack) .none _
        (by simp [Pending.none, Pending.isNone])
    | rightParen =>
      rw [Builder.expectOperand]
      cases stack <;> rfl
    | notAfter | connective op =>
      rw [Builder.expectOperand]
      rfl
  · intro stack pending operand latest
    rw [getLast?_cons_or, List.foldlM_cons, bind_assoc]
    cases token with
    | notAfter =>
      rw [Builder.afterOperand]
      exact hrest.after stack pending _ _
    | connective op =>
      rw [Builder.afterOperand]
      have hextended : (b.extend pending operand op).isNone = false := by
        cases op <;> simp [Builder.extend, Pending.isNone]
      exact hrest.expect stack _ _ (by simp [hextended])
    | rightParen =>
      cases stack with
      | nil =>
        rw [Builder.afterOperand]
        rfl
      | cons frame stack =>
        rw [Builder.afterOperand]
        exact hrest.after stack frame.outer _ _
    | number _ | name _ | notBefore | leftParen =>
      rw [Builder.afterOperand]
      rfl

theorem endsAsChecked (b : Builder) (length : Nat) (tokens : List PlacedToken) :
    EndsAsChecked b length tokens := by
  induction tokens with
  | nil => exact endsAsChecked_nil
  | cons p rest ih => exact endsAsChecked_cons ih p

/-- A text that is not cut into tokens is rejected for that reason. A text that is cut into tokens
is read with the outcome of checking the tokens from left to right, whatever is built and in
whichever of the two ways it is read. -/
theorem outcome_eq_check (b : Builder) (text : String) :
    b.descend text = b.read text ∧
      outcome (b.read text) = (Token.ofText text >>= check text.utf8ByteSize) := by
  refine ⟨b.descend_eq_read text, ?_⟩
  have hread : b.read text = (Token.ofText text >>= b.ofTokens text.utf8ByteSize) := rfl
  rw [hread]
  cases Token.ofText text with
  | error error => rfl
  | ok tokens =>
    show outcome (b.ofTokens text.utf8ByteSize tokens) = check text.utf8ByteSize tokens
    rw [Builder.ofTokens, check]
    split_ifs with hempty
    · rfl
    · have hchecked := (endsAsChecked b text.utf8ByteSize tokens).expect [] .none none (by simp)
      rw [Option.or_none] at hchecked
      exact hchecked

/-- A parenthesis that is left open after an operand is the error, not the end of the text. -/
example : (Token.ofText "a ∨ (b" >>= check 8) = .error ⟨.unbalancedParenthesis, 6⟩ := by
  cbv

end SwitchingAlgebra.Reading
