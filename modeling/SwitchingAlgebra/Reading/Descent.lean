import SwitchingAlgebra.Reading.Parse

/-!
# Reading by the rules of the grammar

An expression is read by one function for each rule of the grammar. A sum is a chain of products, a
product a chain of factors, a factor a primary under negation signs, and a primary a number, a name
or a sum in parentheses. Here an open parenthesis is a call that has not returned. Whether there is
one is found from the tokens that are already read.

Every rule takes at least one token, so reading ends.
-/

set_option autoImplicit false
set_option relaxedAutoImplicit false

namespace SwitchingAlgebra.Reading

/-- A place between the tokens of a text. -/
structure Cursor where
  /-- The tokens before the place, the latest first. -/
  past : List PlacedToken
  /-- The tokens after it. -/
  rest : List PlacedToken

/-- What was read from a place, and the later place at which reading goes on. -/
structure Step (start : Cursor) (α : Type) where
  /-- What was read. -/
  value : α
  /-- Where reading goes on. -/
  next : Cursor
  /-- At least one token was taken. -/
  progress : next.rest.length < start.rest.length

/-- What was read after a first step is read from the start of that step. -/
def Step.before {α β : Type} {start : Cursor} (first : Step start α) (second : Step first.next β) :
    Step start β :=
  ⟨second.value, second.next, Nat.lt_trans second.progress first.progress⟩

/-- Something is made of what was read. -/
def Step.map {α β : Type} {start : Cursor} (f : α → β) (step : Step start α) : Step start β :=
  ⟨f step.value, step.next, step.progress⟩

namespace Cursor

/-- The next token is taken, if there is one. -/
def pop? : (place : Cursor) → Option (Step place PlacedToken)
  | ⟨_, []⟩ => none
  | ⟨past, p :: rest⟩ => some ⟨p, ⟨p :: past, rest⟩, Nat.lt_succ_self _⟩

/-- The next token is taken, if it is the given one. -/
def take? (place : Cursor) (token : Token) : Option (Step place PlacedToken) :=
  place.pop?.filter fun step => step.value.token == token

/-- By how much a token changes the number of open parentheses. -/
def weight : Token → Int
  | .leftParen => 1
  | .rightParen => -1
  | _ => 0

/-- How many more parentheses are opened than closed before a place. -/
def depth (place : Cursor) : Int :=
  place.past.foldr (fun p opened => weight p.token + opened) 0

end Cursor

namespace Descent

/-- The negation signs after an operand are taken. -/
def complements (b : Builder) (operand : Expr) (past : List PlacedToken) :
    List PlacedToken → Expr × Cursor
  | [] => (operand, ⟨past, []⟩)
  | p :: rest =>
    if p.token = .notAfter then complements b (b.negate operand) (p :: past) rest
    else (operand, ⟨past, p :: rest⟩)

theorem length_complements_le (b : Builder) (operand : Expr) (past rest : List PlacedToken) :
    (complements b operand past rest).2.rest.length ≤ rest.length := by
  induction rest generalizing operand past with
  | nil => exact Nat.le_refl 0
  | cons p rest ih =>
    rw [complements]
    split
    · exact Nat.le_succ_of_le (ih _ _)
    · exact Nat.le_refl _

/-- An operand with the negation signs after it. -/
def complemented (b : Builder) {start : Cursor} (operand : Step start Expr) : Step start Expr :=
  let signs := complements b operand.value operand.next.past operand.next.rest
  ⟨signs.1, signs.2, Nat.lt_of_le_of_lt (length_complements_le _ _ _ _) operand.progress⟩

/-- The closing parenthesis after what stands behind an opening one. -/
def closing (position : Nat) (place : Cursor) : Except Error (Step place PlacedToken) :=
  match place.pop? with
  | none => .error ⟨.unbalancedParenthesis, position⟩
  | some last =>
    if last.value.token = .rightParen then .ok last
    else .error ⟨.unexpectedToken last.value.token.text, last.value.position⟩

/-- The operands of a chain from its first one on. The others, each after a sign of the connective,
are read in the same way from a later place. -/
def chained (op : Connective) {start : Cursor} (first : Step start Expr)
    (others : (later : Cursor) → later.rest.length < start.rest.length →
      Except Error (Step later (List Expr))) : Except Error (Step start (List Expr)) :=
  match first.next.take? (.connective op) with
  | none => return first.map fun e => [e]
  | some sign => do
    let others ← others sign.next (Nat.lt_trans sign.progress first.progress)
    return first.before (sign.before (others.map (first.value :: ·)))

mutual

/-- The products of a sum. -/
def products (b : Builder) (length : Nat) (place : Cursor) :
    Except Error (Step place (List Expr)) := do
  let first ← factors b length place
  chained .or (first.map (b.chain .and)) fun later _ => products b length later
termination_by (place.rest.length, 3)
decreasing_by
  · exact Prod.Lex.right _ (by omega)
  · exact Prod.Lex.left _ _ (by assumption)

/-- The factors of a product. -/
def factors (b : Builder) (length : Nat) (place : Cursor) :
    Except Error (Step place (List Expr)) := do
  let first ← factor b length place
  chained .and first fun later _ => factors b length later
termination_by (place.rest.length, 2)
decreasing_by
  · exact Prod.Lex.right _ (by omega)
  · exact Prod.Lex.left _ _ (by assumption)

/-- A factor. -/
def factor (b : Builder) (length : Nat) (place : Cursor) : Except Error (Step place Expr) := do
  match place.take? .notBefore with
  | some sign =>
    let operand ← factor b length sign.next
    return sign.before (operand.map b.negate)
  | none =>
    let operand ← primary b length place
    return complemented b operand
termination_by (place.rest.length, 1)
decreasing_by
  · exact Prod.Lex.left _ _ sign.progress
  · exact Prod.Lex.right _ (by omega)

/-- A primary. -/
def primary (b : Builder) (length : Nat) (place : Cursor) : Except Error (Step place Expr) := do
  match place.pop? with
  | none =>
    if place.past.head?.map PlacedToken.token = some .leftParen then
      .error ⟨.unbalancedParenthesis, length⟩
    else .error ⟨.danglingOperator, length⟩
  | some first =>
    match first.value.token with
    | .number value => return first.map fun _ => b.ofNumber value
    | .name text => return first.map fun _ => b.ofName text
    | .leftParen =>
      let inner ← products b length first.next
      let last ← closing first.value.position inner.next
      return first.before (inner.before (last.map fun _ => b.chain .or inner.value))
    | .rightParen =>
      if 0 < place.depth then
        .error ⟨.unexpectedToken first.value.token.text, first.value.position⟩
      else .error ⟨.unbalancedParenthesis, first.value.position⟩
    | .notBefore | .notAfter | .connective _ => .error ⟨.danglingOperator, first.value.position⟩
termination_by (place.rest.length, 0)
decreasing_by
  exact Prod.Lex.left _ _ first.progress

end

/-- Nothing may be left after an expression. -/
def finished (place : Cursor) : Except Error Unit :=
  match place.pop? with
  | none => .ok ()
  | some last =>
    if last.value.token = .rightParen then .error ⟨.unbalancedParenthesis, last.value.position⟩
    else .error ⟨.unexpectedToken last.value.token.text, last.value.position⟩

/-- The expression that all tokens make up. -/
def wholeSum (b : Builder) (length : Nat) (tokens : List PlacedToken) : Except Error Expr := do
  let sum ← products b length ⟨[], tokens⟩
  finished sum.next
  return b.chain .or sum.value

end Descent

/-- The expression that a text stands for, read by the rules of the grammar. -/
def Builder.descend (b : Builder) (text : String) : Except Error Expr := do
  let tokens ← Token.ofText text
  if tokens.isEmpty then .error ⟨.empty, 0⟩
  else Descent.wholeSum b text.utf8ByteSize tokens

end SwitchingAlgebra.Reading
