import SwitchingAlgebra.Connective
import SwitchingAlgebra.Reading.Error
import SwitchingAlgebra.Text.Blank

/-!
# Tokens

A text is cut into operators, parentheses, numbers and names, with white space between them. Every
operator can be written with any of several signs.
-/

set_option autoImplicit false
set_option relaxedAutoImplicit false

namespace SwitchingAlgebra.Reading

/-- What an expression is written with. -/
inductive Token where
  /-- A negation sign before what it negates. -/
  | notBefore
  /-- A negation sign after what it negates. -/
  | notAfter
  /-- The sign of a connective. -/
  | connective (op : Connective)
  /-- An opening parenthesis. -/
  | leftParen
  /-- A closing parenthesis. -/
  | rightParen
  /-- A run of digits. -/
  | number (value : Nat)
  /-- A name. -/
  | name (text : String)
  deriving DecidableEq, Repr

/-- A token with the number of bytes of the text before it. -/
structure PlacedToken where
  /-- The number of bytes before the token. -/
  position : Nat
  /-- The token. -/
  token : Token
  deriving DecidableEq, Repr

namespace Token

/-- How a token is named in an error. -/
def text : Token → String
  | notBefore => "~"
  | notAfter => "'"
  | connective .and => "*"
  | connective .or => "+"
  | leftParen => "("
  | rightParen => ")"
  | number value => toString value
  | name text => text

/-- The token that a sign stands for. -/
def ofSign? (c : Char) : Option Token :=
  if c ∈ ['~', '¬', '!'] then some notBefore
  else if c = Text.apostrophe then some notAfter
  else if c ∈ ['*', '.', '∙', '^', '∧'] then some (connective .and)
  else if c ∈ ['+', '∨'] then some (connective .or)
  else if c = '(' then some leftParen
  else if c = ')' then some rightParen
  else none

/-- A name starts with a letter of the English alphabet or an underscore. -/
def startsName (c : Char) : Bool :=
  c.isAlpha || c == '_'

/-- A name goes on with letters, digits and underscores. -/
def continuesName (c : Char) : Bool :=
  c.isAlphanum || c == '_'

/-- The number that decimal digits stand for. -/
def decimalValue (digits : List Char) : Nat :=
  digits.foldl (fun n c => 10 * n + (c.toNat - '0'.toNat)) 0

/-- The greatest number that can be written. -/
def maxNumber : Nat := 0x7fffffffffffffff

/-- The number of bytes of a list of characters. -/
def byteCount (cs : List Char) : Nat :=
  cs.foldr (fun c bytes => c.utf8Size + bytes) 0

/-- The tokens of a list of characters that stands at a position of a text. -/
def scan (position : Nat) : List Char → Except Error (List PlacedToken)
  | [] => .ok []
  | c :: rest =>
    if Text.isBlank c then scan (position + c.utf8Size) rest
    else
      match ofSign? c with
      | some token => do
        let tokens ← scan (position + c.utf8Size) rest
        return ⟨position, token⟩ :: tokens
      | none =>
        if c.isDigit then
          let run := c :: rest.takeWhile Char.isDigit
          if decimalValue run ≤ maxNumber then do
            let tokens ← scan (position + byteCount run) (rest.dropWhile Char.isDigit)
            return ⟨position, number (decimalValue run)⟩ :: tokens
          else .error ⟨.unexpectedToken (String.ofList run), position⟩
        else if startsName c then do
          let run := c :: rest.takeWhile continuesName
          let tokens ← scan (position + byteCount run) (rest.dropWhile continuesName)
          return ⟨position, name (String.ofList run)⟩ :: tokens
        else .error ⟨.unexpectedCharacter c, position⟩
termination_by cs => cs.length
decreasing_by
  all_goals simp only [List.length_cons]
  · omega
  · omega
  · exact Nat.lt_succ_of_le (List.dropWhile_sublist _).length_le
  · exact Nat.lt_succ_of_le (List.dropWhile_sublist _).length_le

/-- The tokens of a text. -/
def ofText (text : String) : Except Error (List PlacedToken) :=
  scan 0 text.toList

end Token

end SwitchingAlgebra.Reading
