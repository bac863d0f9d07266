import SwitchingAlgebra.Expr.Shape

/-!
# Terms

A term is a set of literals of pairwise distinct symbols, kept in the order of the symbols. An
expression is expanded, with respect to a connective, into terms that are read with the dual
connective and joined with the connective itself: into products for OR and into clauses for AND.
Negations are pushed down to the symbols by De Morgan's laws, joins of the other connective are
distributed, constants are folded away, and terms with opposite literals are dropped. The result may
still hold redundant terms.
-/

set_option autoImplicit false
set_option relaxedAutoImplicit false

namespace SwitchingAlgebra

/-- A symbol with a polarity. -/
structure Literal where
  /-- The symbol. -/
  symbol : Symbol
  /-- The symbol stands without a negation. -/
  positive : Bool
  deriving DecidableEq, Repr

/-- Literals compare by their symbols; a negated symbol comes before the symbol itself. -/
instance : Ord Literal :=
  ⟨fun l m => (compare l.symbol m.symbol).then (compare l.positive m.positive)⟩

/-- The literal is true under an assignment. -/
def Literal.holds (assignment : Symbol → Bool) (l : Literal) : Bool :=
  assignment l.symbol == l.positive

/-- Literals in the increasing order of their symbols. -/
abbrev Term := List Literal

namespace Term

/-- A term with one more literal, unless it holds the opposite one. -/
def insert? (l : Literal) : Term → Option Term
  | [] => some [l]
  | m :: rest =>
    match compare l.symbol m.symbol with
    | .lt => some (l :: m :: rest)
    | .eq => if l.positive = m.positive then some (m :: rest) else none
    | .gt => (insert? l rest).map (m :: ·)

/-- The literals of both terms, unless some are opposite. -/
def merge? (t : Term) : Term → Option Term
  | [] => some t
  | l :: rest => (insert? l t).bind fun t => merge? t rest

/-- Every literal of the first term is in the second. -/
def subsumes (t u : Term) : Bool :=
  t.all u.contains

/-- The polarity in which a symbol occurs in a term. -/
def polarity? (t : Term) (s : Symbol) : Option Bool :=
  (t.find? fun l => l.symbol == s).map Literal.positive

/-- The value of a term read with a connective. -/
def holds (assignment : Symbol → Bool) (reading : Connective) (t : Term) : Bool :=
  match reading with
  | .and => t.all (Literal.holds assignment)
  | .or => t.any (Literal.holds assignment)

/-- The value of a list of terms joined with a connective, each read with the dual one. -/
def allHold (assignment : Symbol → Bool) (op : Connective) (ts : List Term) : Bool :=
  match op with
  | .and => ts.all (holds assignment .or)
  | .or => ts.any (holds assignment .and)

/-- The distinct terms of a list in increasing order. -/
def distinct (ts : List Term) : List Term :=
  sortDistinct compare ts

/-- Every term of the first list merged with every term of the second. -/
def cross (ts us : List Term) : List Term :=
  distinct (ts.flatMap fun t => us.filterMap fun u => merge? t u)

end Term

namespace Expr

mutual

/-- The terms of an expression, or of its negation, with respect to a connective. -/
def terms (op : Connective) : Expr → Bool → List Term
  | truth value, negated => if (value != negated) = op.identity then [] else [[]]
  | symbol name, negated => [[⟨name, !negated⟩]]
  | not _ operand, negated => operand.terms op !negated
  | join _ child operands, negated =>
    if (if negated then child.dual else child) = op then gatheredTerms op operands negated
    else crossedTerms op operands negated [[]]

/-- The terms of all operands. -/
def gatheredTerms (op : Connective) : List Expr → Bool → List Term
  | [], _ => []
  | e :: rest, negated => e.terms op negated ++ gatheredTerms op rest negated

/-- The given terms merged with one term of each operand in every way. -/
def crossedTerms (op : Connective) : List Expr → Bool → List Term → List Term
  | [], _, acc => acc
  | e :: rest, negated, acc =>
    crossedTerms op rest negated (Term.cross acc (e.terms op negated))

end

end Expr

end SwitchingAlgebra
