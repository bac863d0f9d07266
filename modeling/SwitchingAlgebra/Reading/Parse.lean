import SwitchingAlgebra.Evaluation
import SwitchingAlgebra.Reading.Token

/-!
# Reading expressions

A text is read from left to right. Between any two tokens either an operand is expected or one has
just been read. For each open parenthesis the part before it is kept: the operands already joined by
OR, those joined by AND since, and the negation signs still waiting for their operand. AND binds
more tightly than OR, a negation sign more tightly than both, and one after its operand more tightly
than one before it. An operator chain becomes one join with all its operands.
-/

set_option autoImplicit false
set_option relaxedAutoImplicit false

namespace SwitchingAlgebra.Reading

/-- How nodes are built while reading. -/
structure Builder where
  /-- The policy for all nodes. -/
  policy : Policy
  /-- The mode that is asked for. -/
  mode : Mode

/-- The part of an expression before the operand that is being read. -/
structure Pending where
  /-- The finished operands of OR, the latest first. -/
  terms : List Expr
  /-- The finished operands of AND after them, the latest first. -/
  factors : List Expr
  /-- The number of negation signs before the operand. -/
  negations : Nat

/-- Nothing stands before the operand. -/
def Pending.none : Pending :=
  ⟨[], [], 0⟩

/-- Nothing stands before the operand. -/
def Pending.isNone (pending : Pending) : Bool :=
  pending.terms.isEmpty && pending.factors.isEmpty && pending.negations == 0

/-- An open parenthesis. -/
structure Frame where
  /-- The position of the parenthesis. -/
  position : Nat
  /-- What stands before it at its own level. -/
  outer : Pending

namespace Builder

/-- A chain of operands; a chain of one is that operand. -/
def chain (b : Builder) (op : Connective) : List Expr → Expr
  | [e] => e
  | es => b.policy.join b.mode op es

/-- A negated operand. -/
def negate (b : Builder) (e : Expr) : Expr :=
  b.policy.negation b.mode e

/-- An operand under a number of negations. -/
def negateTimes (b : Builder) : Nat → Expr → Expr
  | 0, e => e
  | n + 1, e => b.negate (b.negateTimes n e)

/-- The expression that a number stands for: the constants are written as 0 and 1. -/
def ofNumber (b : Builder) : Nat → Expr
  | 0 => .truth (b.policy.truth false)
  | 1 => .truth (b.policy.truth true)
  | value => .symbol (b.policy.symbol (.int (Int64.ofNat value)))

/-- The expression that a name stands for. -/
def ofName (b : Builder) (text : String) : Expr :=
  .symbol (b.policy.symbol (.name text))

/-- The factor that ends with an operand. -/
def factor (b : Builder) (pending : Pending) (operand : Expr) : Expr :=
  b.negateTimes pending.negations operand

/-- The term that ends with an operand. -/
def term (b : Builder) (pending : Pending) (operand : Expr) : Expr :=
  b.chain .and (b.factor pending operand :: pending.factors).reverse

/-- The expression that ends with an operand. -/
def close (b : Builder) (pending : Pending) (operand : Expr) : Expr :=
  b.chain .or (b.term pending operand :: pending.terms).reverse

/-- What stands before the next operand after an operand and a connective. -/
def extend (b : Builder) (pending : Pending) (operand : Expr) : Connective → Pending
  | .and => ⟨pending.terms, b.factor pending operand :: pending.factors, 0⟩
  | .or => ⟨b.term pending operand :: pending.terms, [], 0⟩

mutual

/-- Reads on where an operand is expected. The length of the text is `length`, the open parentheses,
the innermost first, are `stack`. -/
def expectOperand (b : Builder) (length : Nat) (stack : List Frame) (pending : Pending) :
    List PlacedToken → Except Error Expr
  | [] =>
    if !stack.isEmpty && pending.isNone then .error ⟨.unbalancedParenthesis, length⟩
    else .error ⟨.danglingOperator, length⟩
  | ⟨position, token⟩ :: rest =>
    match token with
    | .number value => b.afterOperand length stack pending (b.ofNumber value) rest
    | .name text => b.afterOperand length stack pending (b.ofName text) rest
    | .notBefore =>
      b.expectOperand length stack { pending with negations := pending.negations + 1 } rest
    | .leftParen => b.expectOperand length (⟨position, pending⟩ :: stack) .none rest
    | .rightParen =>
      if stack.isEmpty then .error ⟨.unbalancedParenthesis, position⟩
      else .error ⟨.unexpectedToken token.text, position⟩
    | .notAfter => .error ⟨.danglingOperator, position⟩
    | .connective _ => .error ⟨.danglingOperator, position⟩

/-- Reads on after an operand. -/
def afterOperand (b : Builder) (length : Nat) (stack : List Frame) (pending : Pending)
    (operand : Expr) : List PlacedToken → Except Error Expr
  | [] =>
    match stack with
    | [] => .ok (b.close pending operand)
    | frame :: _ => .error ⟨.unbalancedParenthesis, frame.position⟩
  | ⟨position, token⟩ :: rest =>
    match token with
    | .notAfter => b.afterOperand length stack pending (b.negate operand) rest
    | .connective op => b.expectOperand length stack (b.extend pending operand op) rest
    | .rightParen =>
      match stack with
      | [] => .error ⟨.unbalancedParenthesis, position⟩
      | frame :: stack =>
        b.afterOperand length stack frame.outer (b.close pending operand) rest
    | .number _ => .error ⟨.unexpectedToken token.text, position⟩
    | .name _ => .error ⟨.unexpectedToken token.text, position⟩
    | .notBefore => .error ⟨.unexpectedToken token.text, position⟩
    | .leftParen => .error ⟨.unexpectedToken token.text, position⟩

end

/-- The expression that a list of tokens of a text of the given length stands for. -/
def ofTokens (b : Builder) (length : Nat) (tokens : List PlacedToken) : Except Error Expr :=
  if tokens.isEmpty then .error ⟨.empty, 0⟩
  else b.expectOperand length [] .none tokens

/-- The expression that a text stands for. -/
def read (b : Builder) (text : String) : Except Error Expr := do
  let tokens ← Token.ofText text
  b.ofTokens text.utf8ByteSize tokens

end Builder

/-- The evaluated expression that a text stands for. -/
def readEvaluated (text : String) : Except Error Expr :=
  Builder.read ⟨.standard, .evaluated⟩ text

/-- The expression that a text stands for, as it is written. -/
def readRaw (text : String) : Except Error Expr :=
  Builder.read ⟨.standard, .raw⟩ text

end SwitchingAlgebra.Reading
