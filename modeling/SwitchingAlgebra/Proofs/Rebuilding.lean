import Mathlib
import SwitchingAlgebra.Proofs.PrimeTerms
import SwitchingAlgebra.Proofs.Soundness

/-!
# Evaluation through the policy

The operands of a minimum two-level form are themselves built as the policy says. Where it asks for
evaluated joins, the literals of a cube are brought into two-level form once more, and each cube of
that form is rebuilt in turn. This recursion follows no structure. So one round of it is defined
first, with a function `again` for the joins within it, and `evalWithin` is evaluation with at most
so many rounds nested within one another, which has no value where more are needed.

One nested round is always enough. The cover of two or more literals of distinct symbols has the
literals as its primes and can spare none of them, so every cube of its minimum is a single literal,
and the round gives back the join of the literals.

Main statements: a join of literals is its own minimum two-level form (`minimize_literals`), and
evaluation through a policy ends with the evaluated form, which has the value of the expression
(`evalWithin_ends_and_keeps_value`).
-/

set_option autoImplicit false
set_option relaxedAutoImplicit false

namespace SwitchingAlgebra.Policy

/-! ### The recursion -/

/-- Literals as an operand of a connective. Several of them are joined by the policy, and an
evaluated join of them is made by `again`. -/
def rebuildWith (p : Policy) (again : Connective → List Expr → Option Expr) (op : Connective) :
    List Expr → Option Expr
  | [l] => some l
  | ls =>
    match p.joinMode .evaluated with
    | .evaluated => again (p.connective op.dual) ls
    | .raw => some (.join .raw (p.connective op.dual) ls)

/-- Operands as the operands of a minimum two-level form, each rebuilt by the policy. -/
def minimizeWith (p : Policy) (again : Connective → List Expr → Option Expr) (op : Connective)
    (operands : List Expr) : Option Expr :=
  let form := TwoLevel.ofOperands op operands
  let cover := form.cover.minimum
  if cover.containsWhole then some (.truth (p.truth op.annihilator))
  else do
    let rebuilt ← cover.cubes.mapM fun c ↦ p.rebuildWith again op (form.literals p c)
    some (joinLeft op (.truth (p.truth op.identity)) (Expr.distinct rebuilt))

/-- Evaluated operands joined with a connective. -/
def combineWith (p : Policy) (again : Connective → List Expr → Option Expr) (op : Connective)
    (operands : List Expr) : Option Expr :=
  let parts := p.parts op operands
  if parts.any (Expr.isTruth (p.truth op.annihilator)) then some (.truth (p.truth op.annihilator))
  else if parts.length < 2 then some (joinLeft op (.truth (p.truth op.identity)) parts)
  else p.minimizeWith again op parts

mutual

/-- The evaluated form of an expression, with `again` for the joins of rebuilt literals. -/
def evalWith (p : Policy) (again : Connective → List Expr → Option Expr) : Expr → Option Expr
  | .truth value => some (.truth value)
  | .symbol s => some (.symbol s)
  | .not .evaluated operand => some (.not .evaluated operand)
  | .not .raw operand => do some (p.complement (← evalWith p again operand))
  | .join .evaluated op operands => some (.join .evaluated op operands)
  | .join .raw op operands => do p.combineWith again op (← evalAllWith p again operands)

/-- The evaluated forms of a list of expressions. -/
def evalAllWith (p : Policy) (again : Connective → List Expr → Option Expr) :
    List Expr → Option (List Expr)
  | [] => some []
  | e :: rest => do some ((← evalWith p again e) :: (← evalAllWith p again rest))

end

/-- Operands evaluated and joined with a connective, in at most `rounds` nested rounds. -/
def joinWithin (p : Policy) : Nat → Connective → List Expr → Option Expr
  | 0, _, _ => none
  | rounds + 1, op, operands => do
    p.combineWith (joinWithin p rounds) op (← p.evalAllWith (joinWithin p rounds) operands)

/-- The evaluated form of an expression, if every join of rebuilt literals ends in at most `rounds`
nested rounds. -/
def evalWithin (p : Policy) (rounds : Nat) (e : Expr) : Option Expr :=
  p.evalWith (p.joinWithin rounds) e

variable {p : Policy} {op : Connective}

/-! ### Joins of literals -/

theorem terms_literal (p : Policy) (l : Literal) :
    (p.literal l.symbol l.positive).terms op false = [[l]] := by
  obtain ⟨s, positive⟩ := l
  cases positive <;> simp [literal, Expr.terms]

theorem compare_literal {l m : Literal} (hlt : compare l.symbol m.symbol = .lt) :
    compare (p.literal l.symbol l.positive) (p.literal m.symbol m.positive) = .lt := by
  obtain ⟨s, positive⟩ := l
  obtain ⟨t, positive'⟩ := m
  have hthen : ∀ o : Ordering, (compare s t).then o = .lt := fun o ↦ by
    rw [show compare s t = .lt from hlt]
    rfl
  cases positive <;> cases positive' <;> exact hthen _

/-- The literals of a term stand in canonical order. -/
theorem pairwise_literalsOf {t : Term} (ht : t.Increasing) :
    (p.literalsOf t).Pairwise fun d e ↦ compare d e = .lt :=
  List.Pairwise.map _ (fun _ _ hlt ↦ compare_literal hlt) ht

theorem splice_literal (p : Policy) (s : Symbol) (positive : Bool) :
    (p.literal s positive).splice op = [p.literal s positive] := by
  cases positive <;> rfl

theorem isTruth_literal (p : Policy) (s : Symbol) (positive value : Bool) :
    (p.literal s positive).isTruth value = false := by
  cases positive <;> rfl

theorem flatMap_splice_eq {es : List Expr} (hsplice : ∀ e ∈ es, e.splice op = [e]) :
    es.flatMap (Expr.splice op) = es := by
  rw [List.flatMap_congr hsplice, List.flatMap_singleton']

/-- Operands in canonical order, with no join of the connective and no identity among them, are
their own parts. -/
theorem parts_eq_self {es : List Expr} (hincreasing : es.Pairwise fun d e ↦ compare d e = .lt)
    (hsplice : ∀ e ∈ es, e.splice op = [e])
    (hidentity : ∀ e ∈ es, e.isTruth (p.truth op.identity) = false) : p.parts op es = es := by
  have hdistinct : Expr.distinct es = es :=
    sortDistinct_eq_of_pairwise hincreasing fun _ ↦ Iff.rfl
  rw [parts, flatMap_splice_eq hsplice, hdistinct, List.filter_eq_self]
  intro e he
  rw [hidentity e he]
  rfl

/-- Nothing is dropped from the literals of a term. -/
theorem parts_literalsOf {t : Term} (ht : t.Increasing) :
    p.parts op (p.literalsOf t) = p.literalsOf t := by
  refine parts_eq_self (pairwise_literalsOf ht) (fun e he ↦ ?_) fun e he ↦ ?_
  · obtain ⟨l, -, rfl⟩ := mem_literalsOf.mp he
    exact splice_literal p _ _
  · obtain ⟨l, -, rfl⟩ := mem_literalsOf.mp he
    exact isTruth_literal p _ _ _

/-! ### The cover of the literals -/

section Literals

variable {form : TwoLevel} {t : Term} {c : Cube}

/-- The terms of the literals of a term are these literals, each by itself. -/
theorem mem_terms_literalsOf {u : Term} :
    u ∈ (TwoLevel.ofOperands op (p.literalsOf t)).terms ↔ ∃ l ∈ t, u = [l] := by
  rw [TwoLevel.ofOperands, Term.mem_distinct, literalsOf, List.flatMap_map]
  simp only [terms_literal, List.mem_flatMap, List.mem_singleton]

theorem sum_literals (hterms : ∀ u, u ∈ form.terms ↔ ∃ l ∈ t, u = [l])
    {assignment : Symbol → Bool} :
    form.sum assignment = true ↔ ∃ l ∈ t, l.holds assignment = true := by
  rw [TwoLevel.sum, Term.allHold, List.any_eq_true]
  simp only [hterms]
  constructor
  · rintro ⟨_, ⟨l, hl, rfl⟩, hholds⟩
    exact ⟨l, hl, by simpa [Term.holds] using hholds⟩
  · rintro ⟨l, hl, hholds⟩
    exact ⟨[l], ⟨l, hl, rfl⟩, by simpa [Term.holds] using hholds⟩

/-- A prime of the cover of literals is one of the literals. -/
theorem exists_term_eq_of_isPrime (hform : form.WellFormed) (ht : t.Increasing)
    (hterms : ∀ u, u ∈ form.terms ↔ ∃ l ∈ t, u = [l]) (hprime : form.cover.IsPrime c) :
    ∃ l ∈ t, form.term c = [l] := by
  obtain ⟨⟨hincreasing, himplicant⟩, hmaximal⟩ :=
    (TwoLevel.isPrime_iff hform hprime.1.1).mp hprime
  obtain ⟨l, hl, hmem⟩ := Term.exists_mem_of_forall_exists hincreasing ht fun assignment hholds ↦
    (sum_literals hterms).mp (himplicant assignment hholds)
  have hliteral : Term.IsImplicant form.sum [l] := by
    refine ⟨Term.increasing_singleton l, fun assignment hholds ↦ (sum_literals hterms).mpr ?_⟩
    exact ⟨l, hl, by simpa [Term.holds] using hholds⟩
  have hsubset : [l] ⊆ form.term c := List.cons_subset.mpr ⟨hmem, List.nil_subset _⟩
  exact ⟨l, hl, (hmaximal [l] hliteral (Term.implies_of_subset hsubset)).symm⟩

/-- A minimum cover of literals can spare none of them. -/
theorem exists_mem_minimum_term_eq (hform : form.WellFormed) (ht : t.Increasing)
    (hterms : ∀ u, u ∈ form.terms ↔ ∃ l ∈ t, u = [l]) {l : Literal} (hl : l ∈ t) :
    ∃ c ∈ form.cover.minimum.cubes, form.term c = [l] := by
  -- The assignment under which this literal alone holds.
  let only : Symbol → Bool := fun s ↦
    if s = l.symbol then l.positive else !(t.polarity? s).getD true
  have hpoint : form.row only ∈ form.cover.minimum.points := by
    rw [Cover.points_minimum form.wellFormed_cover, TwoLevel.row_mem_points_iff_sum hform]
    exact (sum_literals hterms).mpr ⟨l, hl, by simp [Literal.holds, only]⟩
  obtain ⟨c, hc, hin⟩ :=
    (Cover.mem_points_iff (Cover.wellFormed_minimum form.wellFormed_cover)).mp hpoint
  have hprime := Cover.isPrime_of_mem_minimum form.wellFormed_cover hc
  obtain ⟨m, hm, hterm⟩ := exists_term_eq_of_isPrime hform ht hterms hprime
  rw [TwoLevel.row_mem_points_iff hform hprime.1.1, hterm] at hin
  have hvalue : only m.symbol = m.positive := by simpa [Term.holds, Literal.holds] using hin
  have hsymbol : m.symbol = l.symbol := by
    by_contra hne
    simp [only, hne, (Term.polarity?_eq_some_iff ht).mpr hm] at hvalue
  exact ⟨c, hc, by rw [hterm, ht.eq_of_symbol_eq hm hl hsymbol]⟩

/-- Every cube of a minimum cover of literals is one of the literals. -/
theorem exists_term_eq_of_mem_minimum (ht : t.Increasing)
    (hc : c ∈ (TwoLevel.ofOperands op (p.literalsOf t)).cover.minimum.cubes) :
    ∃ l ∈ t, (TwoLevel.ofOperands op (p.literalsOf t)).term c = [l] :=
  exists_term_eq_of_isPrime (TwoLevel.wellFormed_ofOperands op _) ht (fun _ ↦ mem_terms_literalsOf)
    (Cover.isPrime_of_mem_minimum (TwoLevel.wellFormed_cover _) hc)

/-- The operands of a minimum two-level form of literals are the literals. -/
theorem distinct_minimum_literals (ht : t.Increasing) :
    Expr.distinct ((TwoLevel.ofOperands op (p.literalsOf t)).cover.minimum.cubes.map fun c ↦
      p.term op ((TwoLevel.ofOperands op (p.literalsOf t)).literals p c)) = p.literalsOf t := by
  refine sortDistinct_eq_of_pairwise (pairwise_literalsOf ht) fun e ↦ ?_
  rw [List.mem_map, mem_literalsOf]
  constructor
  · rintro ⟨c, hc, rfl⟩
    obtain ⟨l, hl, hterm⟩ := exists_term_eq_of_mem_minimum ht hc
    exact ⟨l, hl, by rw [TwoLevel.literals_eq, hterm]; rfl⟩
  · rintro ⟨l, hl, rfl⟩
    obtain ⟨c, hc, hterm⟩ := exists_mem_minimum_term_eq
      (TwoLevel.wellFormed_ofOperands op (p.literalsOf t)) ht (fun _ ↦ mem_terms_literalsOf) hl
    exact ⟨c, hc, by rw [TwoLevel.literals_eq, hterm]; rfl⟩

/-- No cube of a minimum cover of literals asks for nothing. -/
theorem containsWhole_minimum_literals (ht : t.Increasing) :
    (TwoLevel.ofOperands op (p.literalsOf t)).cover.minimum.containsWhole = false := by
  rw [Cover.containsWhole, List.any_eq_false]
  intro c hc hwhole
  obtain ⟨l, -, hterm⟩ := exists_term_eq_of_mem_minimum ht hc
  obtain ⟨i, -, hcolumn⟩ := TwoLevel.mem_term.mp (hterm ▸ List.mem_singleton_self l)
  rw [Cube.isWhole_iff.mp hwhole i] at hcolumn
  cases hcolumn

theorem exists_eq_cons_cons {α : Type} {xs : List α} (hlength : 2 ≤ xs.length) :
    ∃ x y rest, xs = x :: y :: rest := by
  obtain ⟨x, tail, rfl⟩ := List.exists_cons_of_length_pos (by omega : 0 < xs.length)
  rw [List.length_cons] at hlength
  obtain ⟨y, rest, rfl⟩ := List.exists_cons_of_length_pos (by omega : 0 < tail.length)
  exact ⟨x, y, rest, rfl⟩

/-- Two or more literals of distinct symbols are their own minimum two-level form. -/
theorem minimize_literals (ht : t.Increasing) (hlength : 2 ≤ t.length) :
    p.minimize op (p.literalsOf t) = .join .evaluated op (p.literalsOf t) := by
  rw [minimize, containsWhole_minimum_literals ht, if_neg Bool.false_ne_true,
    distinct_minimum_literals ht]
  obtain ⟨l, m, rest, rfl⟩ := exists_eq_cons_cons hlength
  rfl

/-- Two or more literals of distinct symbols are joined as they stand. -/
theorem combine_literals (ht : t.Increasing) (hlength : 2 ≤ t.length) :
    p.combine op (p.literalsOf t) = .join .evaluated op (p.literalsOf t) := by
  have hannihilator :
      ¬ (p.literalsOf t).any (Expr.isTruth (p.truth op.annihilator)) = true := by
    intro hany
    obtain ⟨e, he, htruth⟩ := List.any_eq_true.mp hany
    obtain ⟨l, -, rfl⟩ := mem_literalsOf.mp he
    rw [isTruth_literal] at htruth
    cases htruth
  rw [combine, parts_literalsOf ht, if_neg hannihilator, ← minimize_literals ht hlength]
  obtain ⟨l, m, rest, rfl⟩ := exists_eq_cons_cons hlength
  rfl

end Literals

/-! ### The end of the recursion -/

theorem mapM_eq_some_map {α β : Type} {f : α → Option β} {g : α → β} {xs : List α}
    (hsome : ∀ x ∈ xs, f x = some (g x)) : xs.mapM f = some (xs.map g) := by
  induction xs with
  | nil => rfl
  | cons x rest ih =>
    rw [List.mapM_cons, hsome x List.mem_cons_self,
      ih fun y hy ↦ hsome y (List.mem_cons_of_mem _ hy)]
    rfl

section Round

variable {again : Connective → List Expr → Option Expr}

/-- Where every cube of the minimum cover is rebuilt as an operand, the two-level form is built. -/
theorem minimizeWith_eq {operands : List Expr}
    (hrebuild : ∀ c ∈ (TwoLevel.ofOperands op operands).cover.minimum.cubes, ¬ c.isWhole →
      p.rebuildWith again op ((TwoLevel.ofOperands op operands).literals p c) =
        some (p.term op ((TwoLevel.ofOperands op operands).literals p c))) :
    p.minimizeWith again op operands = some (p.minimize op operands) := by
  rw [minimizeWith, minimize]
  by_cases hwhole : (TwoLevel.ofOperands op operands).cover.minimum.containsWhole = true
  · rw [if_pos hwhole, if_pos hwhole]
  · have hnot : ∀ c ∈ (TwoLevel.ofOperands op operands).cover.minimum.cubes, ¬ c.isWhole :=
      fun c hc hcwhole ↦ hwhole (List.any_eq_true.mpr ⟨c, hc, hcwhole⟩)
    rw [if_neg hwhole, if_neg hwhole, mapM_eq_some_map fun c hc ↦ hrebuild c hc (hnot c hc)]
    rfl

/-- Where what is left of the operands is brought into two-level form, they are combined. -/
theorem combineWith_eq {operands : List Expr}
    (hminimize : p.minimizeWith again op (p.parts op operands) =
      some (p.minimize op (p.parts op operands))) :
    p.combineWith again op operands = some (p.combine op operands) := by
  rw [combineWith, combine]
  generalize p.parts op operands = parts at hminimize ⊢
  by_cases hannihilator : parts.any (Expr.isTruth (p.truth op.annihilator)) = true
  · rw [if_pos hannihilator, if_pos hannihilator]
  · rw [if_neg hannihilator, if_neg hannihilator]
    rcases parts with _ | ⟨d, _ | ⟨e, rest⟩⟩
    · rfl
    · rfl
    · exact hminimize

theorem evalAllWith_eq {es : List Expr}
    (heval : ∀ e ∈ es, p.evalWith again e = some (p.eval e)) :
    p.evalAllWith again es = some (es.map p.eval) := by
  induction es with
  | nil => rw [evalAllWith, List.map_nil]
  | cons e rest ih =>
    rw [evalAllWith, heval e List.mem_cons_self, ih fun d hd ↦ heval d (List.mem_cons_of_mem _ hd)]
    rfl

theorem eval_literal (hmode : p.negationMode .evaluated = .evaluated) (s : Symbol)
    (positive : Bool) : p.eval (p.literal s positive) = p.literal s positive := by
  cases positive <;> simp [literal, hmode, eval]

theorem evalWith_literal (hmode : p.negationMode .evaluated = .evaluated) (s : Symbol)
    (positive : Bool) :
    p.evalWith again (p.literal s positive) = some (p.literal s positive) := by
  cases positive
  · rw [literal, if_neg Bool.false_ne_true, hmode, evalWith]
  · rw [literal, if_pos rfl, evalWith]

end Round

/-- A round over literals of distinct symbols gives back their join, with no round within it. -/
theorem joinWithin_literals (hmode : p.negationMode .evaluated = .evaluated) (rounds : Nat)
    {t : Term} (ht : t.Increasing) (hlength : 2 ≤ t.length) :
    p.joinWithin (rounds + 1) op (p.literalsOf t) =
      some (.join .evaluated op (p.literalsOf t)) := by
  have heval : ∀ e ∈ p.literalsOf t,
      p.evalWith (p.joinWithin rounds) e = some (p.eval e) := by
    intro e he
    obtain ⟨l, -, rfl⟩ := mem_literalsOf.mp he
    rw [evalWith_literal hmode, eval_literal hmode]
  have hmap : (p.literalsOf t).map p.eval = p.literalsOf t := by
    rw [literalsOf, List.map_map]
    exact List.map_congr_left fun l _ ↦ eval_literal hmode _ _
  have hminimize : p.minimizeWith (p.joinWithin rounds) op (p.literalsOf t) =
      some (p.minimize op (p.literalsOf t)) := by
    refine minimizeWith_eq fun c hc _ ↦ ?_
    obtain ⟨l, -, hterm⟩ := exists_term_eq_of_mem_minimum ht hc
    rw [TwoLevel.literals_eq, hterm, literalsOf, List.map_singleton, rebuildWith, term]
  rw [joinWithin, evalAllWith_eq heval, hmap, Option.bind_eq_bind, Option.bind_some,
    combineWith_eq (by rw [parts_literalsOf ht, hminimize]), combine_literals ht hlength]

/-- The literals of a term are rebuilt as an operand, whichever way the policy joins them. -/
theorem rebuildWith_literalsOf
    (hmode : p.joinMode .evaluated = .evaluated → p.negationMode .evaluated = .evaluated)
    (rounds : Nat) {t : Term} (ht : t.Increasing) (hne : t ≠ []) :
    p.rebuildWith (p.joinWithin (rounds + 1)) op (p.literalsOf t) =
      some (p.term op (p.literalsOf t)) := by
  by_cases hlength : 2 ≤ t.length
  · obtain ⟨l, m, rest, rfl⟩ := exists_eq_cons_cons hlength
    show (match p.joinMode .evaluated with
      | .evaluated =>
        p.joinWithin (rounds + 1) (p.connective op.dual) (p.literalsOf (l :: m :: rest))
      | .raw => some (.join .raw (p.connective op.dual) (p.literalsOf (l :: m :: rest)))) =
        some (.join (p.joinMode .evaluated) (p.connective op.dual)
          (p.literalsOf (l :: m :: rest)))
    rcases hjoin : p.joinMode .evaluated with _ | _
    · exact joinWithin_literals (hmode hjoin) rounds ht hlength
    · rfl
  · obtain ⟨l, rfl⟩ : ∃ l, t = [l] := by
      refine List.length_eq_one_iff.mp ?_
      have hpos := List.length_pos_iff.mpr hne
      omega
    rw [literalsOf, List.map_singleton, rebuildWith, term]

/-- The two-level form of operands is built. -/
theorem minimizeWith_joinWithin
    (hmode : p.joinMode .evaluated = .evaluated → p.negationMode .evaluated = .evaluated)
    (rounds : Nat) (operands : List Expr) :
    p.minimizeWith (p.joinWithin (rounds + 1)) op operands = some (p.minimize op operands) := by
  have hform := TwoLevel.wellFormed_ofOperands op operands
  refine minimizeWith_eq fun c hc hwhole ↦ ?_
  rw [TwoLevel.literals_eq]
  refine rebuildWith_literalsOf hmode rounds hform.increasing_term fun hempty ↦ hwhole ?_
  have hcover := (TwoLevel.ofOperands op operands).wellFormed_cover
  exact (TwoLevel.isWhole_iff_term_eq_nil (Cover.isPrime_of_mem_minimum hcover hc).1.1).mpr hempty

/-- Evaluation through a policy ends with the evaluated form. -/
theorem evalWithin_eq_eval
    (hmode : p.joinMode .evaluated = .evaluated → p.negationMode .evaluated = .evaluated)
    (rounds : Nat) (e : Expr) : p.evalWithin (rounds + 1) e = some (p.eval e) := by
  show p.evalWith (p.joinWithin (rounds + 1)) e = some (p.eval e)
  induction e using Expr.induct with
  | truth value => rw [evalWith, eval]
  | symbol name => rw [evalWith, eval]
  | not mode operand ih =>
    cases mode with
    | evaluated => rw [evalWith, eval]
    | raw =>
      rw [evalWith, ih, eval]
      rfl
  | join mode op operands ih =>
    cases mode with
    | evaluated => rw [evalWith, eval]
    | raw =>
      rw [evalWith, evalAllWith_eq ih, Option.bind_eq_bind, Option.bind_some,
        combineWith_eq (minimizeWith_joinWithin hmode rounds _), eval, evalAll_eq_map]

/-- Through the standard, the prefixed, the lazy and the eager policy evaluation of any expression
ends: no round is nested deeper than one within the first. What it ends with has the value of the
expression under every assignment. -/
theorem evalWithin_ends_and_keeps_value (hp : p ∈ [standard, prefixed, lazy, eager]) (e : Expr) :
    (∀ rounds ≥ 1, p.evalWithin rounds e = some (p.eval e)) ∧
      ∀ assignment : Symbol → Bool, (p.eval e).holds assignment = e.holds assignment := by
  simp only [List.mem_cons, List.not_mem_nil, or_false] at hp
  constructor
  · intro rounds hrounds
    rw [← Nat.sub_add_cancel hrounds]
    refine evalWithin_eq_eval (fun hjoin ↦ ?_) _ e
    rcases hp with rfl | rfl | rfl | rfl
    · rfl
    · rfl
    · cases hjoin
    · rfl
  · intro assignment
    refine holds_eval ?_ e
    rcases hp with rfl | rfl | rfl | rfl <;> exact ⟨fun _ ↦ rfl, fun _ ↦ rfl⟩

/-- A choice between two symbols by a third, with the operand that both choices imply, as
written. -/
def writtenChoice : Expr :=
  .join .raw .or [.join .raw .and [.symbol (.name "a"), .symbol (.name "b")],
    .join .raw .and [.not .raw (.symbol (.name "a")), .symbol (.name "c")],
    .join .raw .and [.symbol (.name "b"), .symbol (.name "c")]]

/-- The choice as it is evaluated. The implied operand is left out. -/
def evaluatedChoice : Expr :=
  .join .evaluated .or [.join .evaluated .and [.symbol (.name "a"), .symbol (.name "b")],
    .join .evaluated .and [.not .evaluated (.symbol (.name "a")), .symbol (.name "c")]]

/-- Through the eager policy, evaluation of the written choice ends with the evaluated one, which
has its value. -/
theorem evalWithin_writtenChoice : eager ∈ [standard, prefixed, lazy, eager] ∧
    (∀ rounds ≥ 1, eager.evalWithin rounds writtenChoice = some evaluatedChoice) ∧
      ∀ assignment : Symbol → Bool,
        evaluatedChoice.holds assignment = writtenChoice.holds assignment := by
  have hmem : eager ∈ [standard, prefixed, lazy, eager] := by simp
  have heval : eager.eval writtenChoice = evaluatedChoice := by cbv
  have hends := evalWithin_ends_and_keeps_value hmem writtenChoice
  rw [heval] at hends
  exact ⟨hmem, hends⟩

end SwitchingAlgebra.Policy
