import Mathlib
import SwitchingAlgebra.Proofs.MinimumTerms

/-!
# The literals that a function needs

A function needs a literal when, under some assignment, it becomes true as the symbol of the literal
alone is switched to the value that the literal asks for. Every sum of terms that has the value of
the function shows each needed literal in some term. In a prime term no literal can be left out, so
all its literals are needed. An evaluated expression therefore mentions exactly the literals that
its function needs, and it is a constant exactly when its function is.

Turning a function around for AND exchanges the values of the function and those of its symbols, and
so keeps the literals that are needed.

Main statements: `exists_mem_minimumTerms_iff` for the terms of a minimum two-level form and
`eval_mentions_exactly` for evaluated expressions.
-/

set_option autoImplicit false
set_option relaxedAutoImplicit false

namespace SwitchingAlgebra

open Policy

variable {value : (Symbol → Bool) → Bool} {s : Symbol} {op : Connective} {e : Expr}
  {es : List Expr} {t : Term} {ts : List Term} {l : Literal}

/-! ### Functions of the symbols -/

/-- Under some assignment the function goes from false to true when the symbol alone is switched
from false to true. -/
def Rises (value : (Symbol → Bool) → Bool) (s : Symbol) : Prop :=
  ∃ assignment, value (Function.update assignment s false) = false ∧
    value (Function.update assignment s true) = true

/-- Under some assignment the function goes from true to false when the symbol alone is switched
from false to true. -/
def Falls (value : (Symbol → Bool) → Bool) (s : Symbol) : Prop :=
  ∃ assignment, value (Function.update assignment s false) = true ∧
    value (Function.update assignment s true) = false

/-- Under some assignment the function changes its value with the symbol. -/
def DependsOn (value : (Symbol → Bool) → Bool) (s : Symbol) : Prop :=
  ∃ assignment, value (Function.update assignment s false) ≠
    value (Function.update assignment s true)

theorem dependsOn_iff : DependsOn value s ↔ Rises value s ∨ Falls value s := by
  rw [DependsOn, Rises, Falls, ← exists_or]
  refine exists_congr fun assignment ↦ ?_
  cases value (Function.update assignment s false) <;>
    cases value (Function.update assignment s true) <;> simp

theorem dependsOn_not_iff : DependsOn (fun assignment ↦ !value assignment) s ↔
    DependsOn value s :=
  exists_congr fun _ ↦ not_congr Bool.not_inj_iff

/-- Under some assignment the function becomes true when the symbol of the literal alone is switched
to what the literal asks for. -/
def Literal.IsNeeded (value : (Symbol → Bool) → Bool) (l : Literal) : Prop :=
  ∃ assignment, value (Function.update assignment l.symbol !l.positive) = false ∧
    value (Function.update assignment l.symbol l.positive) = true

theorem isNeeded_positive_iff : Literal.IsNeeded value ⟨s, true⟩ ↔ Rises value s :=
  Iff.rfl

theorem isNeeded_negative_iff : Literal.IsNeeded value ⟨s, false⟩ ↔ Falls value s :=
  exists_congr fun _ ↦ and_comm

theorem exists_isNeeded_iff :
    (∃ l : Literal, l.symbol = s ∧ l.IsNeeded value) ↔ DependsOn value s := by
  rw [dependsOn_iff, ← isNeeded_positive_iff, ← isNeeded_negative_iff]
  constructor
  · rintro ⟨⟨_, _ | _⟩, rfl, hneeded⟩
    · exact .inr hneeded
    · exact .inl hneeded
  · rintro (hneeded | hneeded)
    · exact ⟨_, rfl, hneeded⟩
    · exact ⟨_, rfl, hneeded⟩

/-! ### Terms of a function -/

namespace Term

/-- No literal of a prime term can be left out, so the function needs it. -/
theorem IsPrime.isNeeded (ht : IsPrime value t) (hl : l ∈ t) : l.IsNeeded value := by
  obtain ⟨⟨hincreasing, himplicant⟩, hmaximal⟩ := ht
  let shorter : Term := t.filter (· ≠ l)
  have hshorter : ∀ m, m ∈ shorter ↔ m ∈ t ∧ m ≠ l := fun m ↦ by simp [shorter]
  -- The term without the literal is no implicant, or it would be the whole term.
  have hnot : ¬ IsImplicant value shorter := by
    intro himplicant
    have hwhole := hmaximal shorter himplicant
      (implies_of_subset fun m hm ↦ ((hshorter m).mp hm).1)
    exact ((hshorter l).mp (hwhole ▸ hl)).2 rfl
  obtain ⟨assignment, hholds, hfalse⟩ : ∃ assignment,
      shorter.holds assignment .and = true ∧ value assignment = false := by
    by_contra hnone
    refine hnot ⟨hincreasing.filter _, fun assignment hholds ↦ ?_⟩
    by_contra hfalse
    exact hnone ⟨assignment, hholds, Bool.eq_false_of_not_eq_true hfalse⟩
  have htrue : value (Function.update assignment l.symbol l.positive) = true := by
    refine himplicant _ (List.all_eq_true.mpr fun m hm ↦ ?_)
    by_cases hml : m = l
    · simp [hml, Literal.holds]
    · have hsymbol : m.symbol ≠ l.symbol := fun hsymbol ↦
        hml (hincreasing.eq_of_symbol_eq hm hl hsymbol)
      rw [Literal.holds, Function.update_of_ne hsymbol]
      exact List.all_eq_true.mp hholds m ((hshorter m).mpr ⟨hm, hml⟩)
  refine ⟨assignment, ?_, htrue⟩
  have hvalue : assignment l.symbol = !l.positive := by
    refine Bool.eq_not_of_ne fun hvalue ↦ ?_
    rw [← hvalue, Function.update_eq_self, hfalse] at htrue
    cases htrue
  rw [← hvalue, Function.update_eq_self, hfalse]

/-- Terms of which the sum has the value of the function show every literal that it needs. -/
theorem exists_mem_of_isNeeded
    (hsum : ∀ assignment, allHold assignment .or ts = value assignment)
    (hneeded : l.IsNeeded value) : ∃ t ∈ ts, l ∈ t := by
  obtain ⟨assignment, hfalse, htrue⟩ := hneeded
  rw [← hsum] at htrue hfalse
  obtain ⟨t, ht, hholds⟩ := List.any_eq_true.mp htrue
  refine ⟨t, ht, ?_⟩
  -- Without the literal the term would hold before the switch as well.
  by_contra hl
  have hbefore : t.holds (Function.update assignment l.symbol !l.positive) .and = true := by
    refine List.all_eq_true.mpr fun m hm ↦ ?_
    have hm' := List.all_eq_true.mp hholds m hm
    by_cases hsymbol : m.symbol = l.symbol
    · have hpositive : l.positive = m.positive := by
        simpa [Literal.holds, hsymbol] using hm'
      have hml : m = l := by
        cases m
        cases l
        simp_all
      exact absurd (hml ▸ hm) hl
    · rw [Literal.holds, Function.update_of_ne hsymbol] at hm' ⊢
      exact hm'
  exact List.any_eq_false.mp hfalse t ht hbefore

end Term

/-! ### Functions turned around -/

theorem Connective.orient_update (assignment : Symbol → Bool) (s : Symbol) (b : Bool) :
    op.orient (Function.update assignment s b) =
      Function.update (op.orient assignment) s (op.decides b) := by
  ext r
  by_cases hr : r = s
  · simp [hr, Connective.orient]
  · simp [hr, Connective.orient]

namespace Expr

/-- Turning a function around keeps the literals that it needs. -/
theorem isNeeded_decision_iff : l.IsNeeded (e.decision op) ↔ l.IsNeeded e.holds := by
  have hturn : ∀ (assignment : Symbol → Bool) (b : Bool),
      e.decision op (Function.update assignment l.symbol b) =
        op.decides (e.holds (Function.update (op.orient assignment) l.symbol (op.decides b))) :=
    fun assignment b ↦ by rw [decision, Connective.orient_update]
  have horient : (∃ assignment, e.decision op (Function.update assignment l.symbol !l.positive) =
      false ∧ e.decision op (Function.update assignment l.symbol l.positive) = true) ↔
        ∃ assignment, op.decides (e.holds (Function.update assignment l.symbol
          (op.decides !l.positive))) = false ∧ op.decides (e.holds
            (Function.update assignment l.symbol (op.decides l.positive))) = true := by
    simp only [hturn]
    constructor
    · rintro ⟨assignment, hswitch⟩
      exact ⟨op.orient assignment, hswitch⟩
    · rintro ⟨assignment, hswitch⟩
      exact ⟨op.orient assignment, by rwa [Connective.orient_orient]⟩
  rw [Literal.IsNeeded, Literal.IsNeeded, horient]
  refine exists_congr fun assignment ↦ ?_
  cases op <;> simp [Connective.decides, Connective.annihilator, Connective.identity, and_comm]

/-! ### Minimum two-level forms -/

/-- The terms of a minimum two-level form have exactly the literals that its function needs. -/
theorem exists_mem_minimumTerms_iff (mode : Mode) :
    (∃ t ∈ minimumTerms op es, l ∈ t) ↔ l.IsNeeded (Expr.join mode op es).holds := by
  rw [← @isNeeded_decision_iff op]
  constructor
  · rintro ⟨t, ht, hl⟩
    exact (isPrime_of_mem_minimumTerms mode ht).isNeeded hl
  · exact Term.exists_mem_of_isNeeded fun assignment ↦ allHold_minimumTerms mode op es

theorem IsMinimum.mem_literalLeaves_iff (hes : IsMinimum op es) {d : Expr} :
    d ∈ (Expr.join .evaluated op es).literalLeaves ↔
      ∃ t ∈ minimumTerms op es, d ∈ standard.literalsOf t := by
  rw [literalLeaves, literalLeavesAll_eq_flatMap, List.mem_flatMap]
  constructor
  · rintro ⟨e, he, hd⟩
    obtain ⟨t, ht, rfl⟩ := hes.mem_iff.mp he
    exact ⟨t, ht, by rwa [literalLeaves_term] at hd⟩
  · rintro ⟨t, ht, hd⟩
    exact ⟨_, hes.mem_iff.mpr ⟨t, ht, rfl⟩, by rwa [literalLeaves_term]⟩

/-- The literals of a minimum two-level form are those that its function needs. -/
theorem IsMinimum.mem_literals_iff (hes : IsMinimum op es) :
    standard.literal l.symbol l.positive ∈ (Expr.join .evaluated op es).literals ↔
      l.IsNeeded (Expr.join .evaluated op es).holds := by
  have hevaluated : ∀ d ∈ (Expr.join .evaluated op es).literalLeaves, d.Evaluated := by
    intro d hd
    obtain ⟨t, -, hmem⟩ := hes.mem_literalLeaves_iff.mp hd
    obtain ⟨m, -, rfl⟩ := mem_literalsOf.mp hmem
    exact (@IsClause.literal op m.symbol m.positive).evaluated
  rw [literals, mem_distinct hevaluated, hes.mem_literalLeaves_iff]
  simp only [literal_mem_literalsOf]
  exact exists_mem_minimumTerms_iff .evaluated

/-- The symbols of a minimum two-level form are those that its function depends on. -/
theorem IsMinimum.mem_symbolLeaves_iff (hes : IsMinimum op es) :
    s ∈ (Expr.join .evaluated op es).symbolLeaves ↔
      DependsOn (Expr.join .evaluated op es).holds s := by
  rw [← exists_isNeeded_iff]
  simp only [← exists_mem_minimumTerms_iff, symbolLeaves, symbolLeavesAll_eq_flatMap,
    List.mem_flatMap]
  constructor
  · rintro ⟨e, he, hs⟩
    obtain ⟨t, ht, rfl⟩ := hes.mem_iff.mp he
    rw [symbolLeaves_term] at hs
    obtain ⟨l, hl, rfl⟩ := List.mem_map.mp hs
    exact ⟨l, rfl, t, ht, hl⟩
  · rintro ⟨l, rfl, t, ht, hl⟩
    refine ⟨_, hes.mem_iff.mpr ⟨t, ht, rfl⟩, ?_⟩
    rw [symbolLeaves_term]
    exact List.mem_map_of_mem hl

/-! ### Evaluated expressions -/

/-- The symbols among the literals of an expression are those in which a function rises, and the
negated symbols those in which it falls. -/
def MentionsExactly (e : Expr) (value : (Symbol → Bool) → Bool) : Prop :=
  ∀ s, (.symbol s ∈ e.literals ↔ Rises value s) ∧
    (.not .evaluated (.symbol s) ∈ e.literals ↔ Falls value s)

theorem mentionsExactly_iff : e.MentionsExactly value ↔
    ∀ l : Literal, standard.literal l.symbol l.positive ∈ e.literals ↔ l.IsNeeded value := by
  constructor
  · rintro hmentions ⟨s, _ | _⟩
    · exact (hmentions s).2.trans isNeeded_negative_iff.symm
    · exact (hmentions s).1.trans isNeeded_positive_iff.symm
  · intro hneeded s
    exact ⟨(hneeded ⟨s, true⟩).trans isNeeded_positive_iff,
      (hneeded ⟨s, false⟩).trans isNeeded_negative_iff⟩

/-- A literal needs itself alone. -/
theorem isNeeded_literal_iff {m : Literal} :
    l.IsNeeded (standard.literal m.symbol m.positive).holds ↔ l = m := by
  have hvalue : (standard.literal m.symbol m.positive).holds = fun assignment ↦
      m.holds assignment := funext fun _ ↦ holds_literal standard m
  rw [hvalue]
  obtain ⟨s, positive⟩ := l
  obtain ⟨r, positive'⟩ := m
  simp only [Literal.IsNeeded, Literal.holds, Literal.mk.injEq]
  by_cases hsymbol : r = s
  · subst hsymbol
    cases positive <;> cases positive' <;> simp
  · simp [Function.update_of_ne hsymbol, Ne.symm hsymbol]

theorem mentionsExactly_truth (b : Bool) : (Expr.truth b).MentionsExactly (Expr.truth b).holds := by
  refine mentionsExactly_iff.mpr fun l ↦ ?_
  have hnone : (Expr.truth b).literals = [] := by
    simp [literals, literalLeaves, distinct, sortDistinct, dropRepeats]
  rw [hnone]
  refine ⟨fun hmem ↦ absurd hmem List.not_mem_nil, ?_⟩
  rintro ⟨assignment, hfalse, htrue⟩
  have hconstant : (Expr.truth b).holds (Function.update assignment l.symbol l.positive) = false :=
    hfalse
  exact absurd (hconstant.symm.trans htrue) Bool.false_ne_true

theorem mentionsExactly_literal (s : Symbol) (positive : Bool) :
    (standard.literal s positive).MentionsExactly (standard.literal s positive).holds := by
  refine mentionsExactly_iff.mpr fun l ↦ ?_
  have hself : (standard.literal s positive).literals = [standard.literal s positive] :=
    @literals_term standard .or [⟨s, positive⟩] (Term.increasing_singleton _)
  rw [hself, List.mem_singleton, @isNeeded_literal_iff l ⟨s, positive⟩]
  exact ⟨fun heq ↦ @literal_injective standard l ⟨s, positive⟩ heq, fun heq ↦ heq ▸ rfl⟩

/-- An evaluated expression mentions exactly the literals that its function needs, unless it is a
negated join. -/
theorem Evaluated.mentionsExactly (he : e.Evaluated)
    (hjoin : ∀ mode mode' op es, e ≠ .not mode (.join mode' op es)) :
    e.MentionsExactly e.holds := by
  cases he with
  | truth b => exact mentionsExactly_truth b
  | symbol name => exact mentionsExactly_literal name true
  | notSymbol name => exact mentionsExactly_literal name false
  | join hes => exact mentionsExactly_iff.mpr fun _ ↦ hes.mem_literals_iff
  | notJoin _ => exact absurd rfl (hjoin _ _ _ _)

theorem holds_not_eq (mode : Mode) (e : Expr) :
    (Expr.not mode e).holds = fun assignment ↦ !e.holds assignment :=
  funext fun assignment ↦ holds_not assignment mode e

/-- The symbols of an evaluated expression are those that its function depends on. -/
theorem Evaluated.mem_symbols_iff (he : e.Evaluated) : s ∈ e.symbols ↔ DependsOn e.holds s := by
  have hsymbol : ∀ name : Symbol, s ∈ (Expr.symbol name).symbolLeaves ↔
      DependsOn (Expr.symbol name).holds s := by
    intro name
    by_cases hs : name = s
    · simp [hs, symbolLeaves, DependsOn]
    · simp [symbolLeaves, DependsOn, Function.update_of_ne hs, Ne.symm hs]
  rw [symbols, mem_sortDistinct]
  cases he with
  | truth b => simp [symbolLeaves, DependsOn]
  | symbol name => exact hsymbol name
  | join hes => exact hes.mem_symbolLeaves_iff
  | notSymbol name =>
    rw [symbolLeaves, holds_not_eq, dependsOn_not_iff]
    exact hsymbol name
  | notJoin hes =>
    rw [symbolLeaves, holds_not_eq, dependsOn_not_iff]
    exact hes.mem_symbolLeaves_iff

/-- What evaluation gives of an expression mentions exactly the literals that the expression needs:
the symbols in which it rises, and negated those in which it falls. Where evaluation gives a negated
join, so does the join for the negation of the expression. The symbols of the evaluated form are
those that the expression depends on, and it is a constant exactly when the expression has one value
under all assignments. -/
theorem eval_mentions_exactly (he : e.Built) :
    ((∀ mode mode' op es, e.eval ≠ .not mode (.join mode' op es)) →
      e.eval.MentionsExactly e.holds) ∧
      (∀ mode mode' op es, e.eval = .not mode (.join mode' op es) →
        (Expr.join mode' op es).MentionsExactly fun assignment ↦ !e.holds assignment) ∧
        (∀ s, s ∈ e.eval.symbols ↔ DependsOn e.holds s) ∧
          ((∃ b, e.eval = .truth b) ↔ ∃ b, ∀ assignment, e.holds assignment = b) := by
  have hevaluated := he.settled.evaluated_eval
  have hvalue : ∀ assignment, e.holds assignment = e.eval.holds assignment := fun assignment ↦
    (holds_eval faithful_standard e).symm
  simp only [hvalue]
  refine ⟨hevaluated.mentionsExactly, fun mode mode' op es heval ↦ ?_,
    fun s ↦ hevaluated.mem_symbols_iff, ?_, ?_⟩
  · have hoperand : (Expr.join mode' op es).Evaluated :=
      hevaluated.of_mem_operands (heval ▸ List.mem_singleton_self _)
    have hnegation : ∀ assignment, (!e.eval.holds assignment) =
        (Expr.join mode' op es).holds assignment := fun assignment ↦ by simp [heval]
    simp only [hnegation]
    exact hoperand.mentionsExactly fun _ _ _ _ heq ↦ by cases heq
  · rintro ⟨b, htruth⟩
    exact ⟨b, fun assignment ↦ by rw [htruth, holds_truth]⟩
  · rintro ⟨b, hconstant⟩
    exact ⟨b, hevaluated.eq_truth hconstant⟩

/-- A sum that does not depend on the symbol `b`, as written. -/
def redundantSum : Expr :=
  standard.join .raw .or [standard.join .raw .and [.symbol (.name "a"), .symbol (.name "b")],
    standard.join .raw .and [.symbol (.name "a"), standard.negation .raw (.symbol (.name "b"))],
    standard.negation .raw (.symbol (.name "c"))]

/-- The sum as it is evaluated. -/
def shortSum : Expr :=
  .join .evaluated .or [.symbol (.name "a"), .not .evaluated (.symbol (.name "c"))]

/-- The evaluated sum mentions what the written one needs, for its negation as well, and the sum
does not depend on the symbol that is left out. -/
theorem redundantSum_mentions_exactly : redundantSum.Built ∧ redundantSum.eval = shortSum ∧
    shortSum.MentionsExactly redundantSum.holds ∧
      (standard.negation .raw redundantSum).eval = .not .evaluated shortSum ∧
        (shortSum.MentionsExactly fun assignment ↦
          !(standard.negation .raw redundantSum).holds assignment) ∧
            DependsOn redundantSum.holds (.name "c") ∧ ¬ DependsOn redundantSum.holds (.name "b") ∧
              ¬ ∃ b, ∀ assignment, redundantSum.holds assignment = b := by
  have hsymbol : ∀ text, (Expr.symbol (.name text)).Built := fun text ↦ .symbol (.name text)
  have hnegation : ∀ text, (standard.negation .raw (.symbol (.name text))).Built := fun text ↦
    .negation .raw (hsymbol text)
  have hbuilt : redundantSum.Built := by
    refine .join .raw .or (List.forall_mem_cons.mpr ⟨.join .raw .and ?_,
      List.forall_mem_cons.mpr ⟨.join .raw .and ?_, List.forall_mem_singleton.mpr (hnegation "c")⟩⟩)
    · simp [hsymbol]
    · simp [hsymbol, hnegation]
  have heval : redundantSum.eval = shortSum := by cbv
  have hnegated : (standard.negation .raw redundantSum).eval = .not .evaluated shortSum :=
    (Settled.eval_not (.not hbuilt.settled)).trans (by rw [heval]; rfl)
  obtain ⟨hmentions, -, hsymbols, hconstant⟩ := eval_mentions_exactly hbuilt
  obtain ⟨-, hmentions', -, -⟩ := eval_mentions_exactly (hbuilt.negation .raw)
  rw [heval] at hmentions hsymbols hconstant
  have hleaves : shortSum.symbols = [.name "a", .name "c"] := by cbv
  rw [hleaves] at hsymbols
  have hshort : shortSum.MentionsExactly redundantSum.holds :=
    hmentions fun _ _ _ _ heq ↦ by cases heq
  refine ⟨hbuilt, heval, hshort, hnegated, hmentions' _ _ _ _ hnegated,
    (hsymbols (.name "c")).mp (by simp), ?_, ?_⟩
  · intro hdepends
    exact absurd ((hsymbols (.name "b")).mpr hdepends) (by simp)
  · rintro hall
    obtain ⟨b, htruth⟩ := hconstant.mpr hall
    cases htruth

end Expr

end SwitchingAlgebra
