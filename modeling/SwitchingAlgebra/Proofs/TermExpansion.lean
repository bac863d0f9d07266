import Mathlib
import SwitchingAlgebra.Proofs.EvaluatedSymbols

/-!
# Terms read back

A list of terms is read back as an expression. Each term is a join of its literals with the dual
connective and the terms are joined with the connective itself; an empty term is the annihilator and
no term at all is the identity. Read back, the terms of an expression have its value, and the terms
of its negation the opposite one.

Main statement: `terms_read_back`.
-/

set_option autoImplicit false
set_option relaxedAutoImplicit false

namespace SwitchingAlgebra.Expr

variable {assignment : Symbol → Bool}

/-- A literal as an expression. -/
def ofLiteral (l : Literal) : Expr :=
  if l.positive then .symbol l.symbol else .not .raw (.symbol l.symbol)

/-- A term as an operand of a connective. -/
def ofTerm (op : Connective) (t : Term) : Expr :=
  if t = [] then .truth op.annihilator else .join .raw op.dual (t.map ofLiteral)

/-- Terms joined with a connective. -/
def ofTerms (op : Connective) (ts : List Term) : Expr :=
  if ts = [] then .truth op.identity else .join .raw op (ts.map (ofTerm op))

theorem holds_ofLiteral (l : Literal) : (ofLiteral l).holds assignment = l.holds assignment := by
  obtain ⟨s, positive⟩ := l
  cases positive <;> cases hvalue : assignment s <;> simp [ofLiteral, Literal.holds, hvalue]

theorem holds_ofTerm (op : Connective) (t : Term) :
    (ofTerm op t).holds assignment = t.holds assignment op.dual := by
  have hliterals : (fun l ↦ (ofLiteral l).holds assignment) = Literal.holds assignment :=
    funext holds_ofLiteral
  rw [ofTerm]
  split_ifs with hempty
  · subst hempty
    cases op <;> rfl
  · cases op <;> simp [Connective.dual, Term.holds, Function.comp_def, hliterals]

theorem holds_ofTerms (op : Connective) (ts : List Term) :
    (ofTerms op ts).holds assignment = Term.allHold assignment op ts := by
  have hterms : (fun t ↦ (ofTerm op t).holds assignment) =
      fun t ↦ t.holds assignment op.dual := funext (holds_ofTerm op)
  rw [ofTerms]
  split_ifs with hempty
  · subst hempty
    cases op <;> rfl
  · cases op <;> simp_all [Connective.dual, Term.allHold, Function.comp_def]

/-- With respect to either connective the terms of an expression have its value under every
assignment, and those of its negation the opposite value. The literals of each term are literals of
distinct symbols of the expression. -/
theorem terms_read_back (op : Connective) (e : Expr) (negated : Bool) :
    (∀ assignment, (ofTerms op (e.terms op negated)).holds assignment =
      if negated then !e.holds assignment else e.holds assignment) ∧
      ∀ t ∈ e.terms op negated, (t.map Literal.symbol).Nodup ∧ ∀ l ∈ t, l.symbol ∈ e.symbols := by
  refine ⟨fun assignment ↦ ?_, fun t ht ↦
    ⟨(increasing_of_mem_terms e negated t ht).nodup_symbols, fun l hl ↦ ?_⟩⟩
  · rw [holds_ofTerms, allHold_terms]
    cases negated <;> simp
  · have hleaves : e.MentionsOnly (· ∈ e.symbolLeaves) := fun _ hs ↦ hs
    exact mem_sortDistinct.mpr (hleaves.terms e negated t ht l hl)

/-- A symbol that implies another one or a constant, in a product with that symbol. -/
def opposedProduct : Expr :=
  .join .raw .and [.symbol (.name "a"),
    .join .raw .or [.symbol (.name "b"), .not .raw (.symbol (.name "a")), .truth false]]

/-- For OR the product has one term, since a symbol and its negation have no common one. For AND the
terms of its negation come from crossing, and one of them is no longer than its symbol. -/
theorem terms_read_back_opposedProduct :
    opposedProduct.terms .or false = [[⟨.name "a", true⟩, ⟨.name "b", true⟩]] ∧
      (∀ assignment, (ofTerms .or [[⟨.name "a", true⟩, ⟨.name "b", true⟩]]).holds assignment =
        opposedProduct.holds assignment) ∧
      (∀ assignment, (ofTerms .and (opposedProduct.terms .and true)).holds assignment =
        !opposedProduct.holds assignment) ∧
      Symbol.name "b" ∈ opposedProduct.symbols := by
  have hterms : opposedProduct.terms .or false = [[⟨.name "a", true⟩, ⟨.name "b", true⟩]] := by cbv
  obtain ⟨hholds, hsymbols⟩ := terms_read_back .or opposedProduct false
  refine ⟨hterms, ?_, (terms_read_back .and opposedProduct true).1, ?_⟩
  · rwa [hterms] at hholds
  · exact (hsymbols _ (hterms ▸ List.mem_singleton_self _)).2 ⟨.name "b", true⟩ (by simp)

end SwitchingAlgebra.Expr
