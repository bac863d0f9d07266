import Mathlib
import SwitchingAlgebra.Proofs.NormalForms

/-!
# Normal forms of negations

By De Morgan's laws the negation of a sum of products is a product of sums of the opposite literals.
Terms know nothing of how they are read, so the terms of the negation of an expression with respect
to a connective are those of the expression with respect to the dual one, with every literal turned
into the opposite one. Where the one expansion gathers terms the other one gathers them as well, and
where it crosses them so does the other, because two terms can be merged just when their opposites
can.

Main statement: the normal form of the negation has the opposite literals of the normal form of the
expression with respect to the dual connective, operand by operand, and it is a single constant just
when that one is the opposite constant (`normalForm_negation`).
-/

set_option autoImplicit false
set_option relaxedAutoImplicit false

namespace SwitchingAlgebra

open Policy

variable {op : Connective} {negated : Bool} {e : Expr} {es : List Expr} {t u : Term}
  {ts us ts' us' : List Term}

/-! ### Opposite literals -/

/-- The literal of the same symbol in the other polarity. -/
def Literal.opposite (l : Literal) : Literal :=
  ⟨l.symbol, !l.positive⟩

@[simp]
theorem Literal.opposite_opposite (l : Literal) : l.opposite.opposite = l := by
  simp [Literal.opposite]

theorem literal_opposite (l : Literal) :
    standard.literal l.opposite.symbol l.opposite.positive =
      standard.complement (standard.literal l.symbol l.positive) := by
  obtain ⟨s, positive⟩ := l
  cases positive <;> rfl

namespace Term

/-- The term of the opposite literals. -/
def opposite (t : Term) : Term :=
  t.map Literal.opposite

theorem opposite_cons (l : Literal) (t : Term) :
    opposite (l :: t) = l.opposite :: opposite t :=
  rfl

@[simp]
theorem opposite_opposite (t : Term) : t.opposite.opposite = t := by
  simp [opposite, Function.comp_def]

theorem opposite_injective : Function.Injective opposite :=
  Function.LeftInverse.injective opposite_opposite

theorem opposite_subset_iff : t.opposite ⊆ u.opposite ↔ t ⊆ u :=
  List.map_subset_iff _ (Function.LeftInverse.injective Literal.opposite_opposite)

/-- Which literals are the same, which are opposite and how they are ordered does not change when
all of them are turned around. -/
theorem insert?_opposite (l : Literal) (t : Term) :
    insert? l.opposite (opposite t) = (insert? l t).map opposite := by
  induction t with
  | nil => rfl
  | cons m rest ih =>
    have hcompare : compare l.opposite.symbol m.opposite.symbol = compare l.symbol m.symbol := rfl
    have hpositive : l.opposite.positive = m.opposite.positive ↔ l.positive = m.positive := by
      simp [Literal.opposite]
    rw [opposite_cons, insert?, insert?, hcompare, ih]
    simp only [hpositive]
    split
    · rfl
    · split_ifs <;> rfl
    · cases insert? l rest <;> rfl

theorem merge?_opposite (t u : Term) :
    merge? t.opposite u.opposite = (merge? t u).map opposite := by
  induction u generalizing t with
  | nil => rfl
  | cons l rest ih =>
    rw [opposite_cons, merge?, merge?, insert?_opposite]
    cases insert? l t with
    | none => rfl
    | some inserted => exact ih inserted

/-- Every term of the first list has its opposite in the second one. -/
def Opposed (ts us : List Term) : Prop :=
  ∀ t ∈ ts, t.opposite ∈ us

theorem opposed_singleton_nil : Opposed [[]] [[]] := by
  intro t ht
  rw [List.mem_singleton.mp ht]
  exact List.mem_singleton_self []

theorem Opposed.cross (hts : Opposed ts ts') (hus : Opposed us us') :
    Opposed (cross ts us) (cross ts' us') := by
  intro m hm
  obtain ⟨t, ht, hmerged⟩ := List.mem_flatMap.mp (mem_distinct.mp hm)
  obtain ⟨u, hu, hmerge⟩ := List.mem_filterMap.mp hmerged
  refine mem_distinct.mpr (List.mem_flatMap.mpr ⟨_, hts t ht, List.mem_filterMap.mpr
    ⟨_, hus u hu, ?_⟩⟩)
  rw [merge?_opposite, hmerge, Option.map_some]

/-- Turning all terms of a list around turns its minimal terms around. -/
theorem mem_minimal_opposite_iff (hts : ∀ t ∈ ts, t.Increasing) (hus : ∀ u ∈ us, u.Increasing)
    (hopposite : ∀ t, t ∈ ts ↔ t.opposite ∈ us) :
    t ∈ minimal ts ↔ t.opposite ∈ minimal us := by
  rw [mem_minimal_iff hts, mem_minimal_iff hus, ← hopposite]
  refine and_congr_right fun _ ↦ ⟨fun hminimal u hu hsubset ↦ ?_, fun hminimal u hu hsubset ↦ ?_⟩
  · rw [← u.opposite_opposite] at hu hsubset ⊢
    rw [hminimal u.opposite ((hopposite _).mpr hu) (opposite_subset_iff.mp hsubset)]
  · exact opposite_injective
      (hminimal u.opposite ((hopposite u).mp hu) (opposite_subset_iff.mpr hsubset))

end Term

namespace Expr

/-! ### Terms of negations -/

theorem opposed_gatheredTerms
    (hes : ∀ e ∈ es, Term.Opposed (e.terms op negated) (e.terms op.dual !negated)) :
    Term.Opposed (gatheredTerms op es negated) (gatheredTerms op.dual es !negated) := by
  intro t ht
  obtain ⟨e, he, hmem⟩ := mem_gatheredTerms_iff.mp ht
  exact mem_gatheredTerms_iff.mpr ⟨e, he, hes e he t hmem⟩

theorem opposed_crossedTerms
    (hes : ∀ e ∈ es, Term.Opposed (e.terms op negated) (e.terms op.dual !negated))
    (hts : Term.Opposed ts us) :
    Term.Opposed (crossedTerms op es negated ts) (crossedTerms op.dual es (!negated) us) := by
  induction es generalizing ts us with
  | nil =>
    rw [crossedTerms, crossedTerms]
    exact hts
  | cons e rest ih =>
    obtain ⟨he, hrest⟩ := List.forall_mem_cons.mp hes
    rw [crossedTerms, crossedTerms]
    exact ih hrest (hts.cross he)

/-- Negation turns the terms of an expression into terms with respect to the dual connective. -/
theorem opposed_terms (e : Expr) : ∀ (op : Connective) (negated : Bool),
    Term.Opposed (e.terms op negated) (e.terms op.dual !negated) := by
  induction e using Expr.induct with
  | truth value =>
    intro op negated
    have hidentity : (value != !negated) = op.dual.identity ↔ (value != negated) = op.identity := by
      rw [Connective.identity_dual]
      cases value <;> cases negated <;> simp
    rw [terms, terms]
    simp only [hidentity]
    split_ifs
    · exact fun _ ht ↦ absurd ht List.not_mem_nil
    · exact Term.opposed_singleton_nil
  | symbol name =>
    intro op negated t ht
    rw [terms, List.mem_singleton] at ht
    rw [ht, terms]
    exact List.mem_singleton_self _
  | not mode operand ih =>
    intro op negated
    rw [terms, terms]
    exact ih op _
  | join mode child operands ih =>
    intro op negated
    have hchild : (if (!negated) = true then child.dual else child) = op.dual ↔
        (if negated = true then child.dual else child) = op := by
      cases negated <;> cases child <;> cases op <;> decide
    rw [terms, terms]
    by_cases hop : (if negated = true then child.dual else child) = op
    · rw [if_pos hop, if_pos (hchild.mpr hop)]
      exact opposed_gatheredTerms fun e he ↦ ih e he op negated
    · rw [if_neg hop, if_neg fun heq ↦ hop (hchild.mp heq)]
      exact opposed_crossedTerms (fun e he ↦ ih e he op negated) Term.opposed_singleton_nil

/-- The terms of a negation are the opposites of the terms with respect to the dual connective. -/
theorem mem_terms_not_iff (mode : Mode) : t ∈ (Expr.not mode e).terms op false ↔
    t.opposite ∈ e.terms op.dual false := by
  rw [terms]
  constructor
  · exact opposed_terms e op true t
  · intro ht
    have hopposite := opposed_terms e op.dual false t.opposite ht
    rwa [Term.opposite_opposite, Connective.dual_dual] at hopposite

/-- So are its minimal terms. -/
theorem mem_minimalTerms_not_iff (mode : Mode) : t ∈ (Expr.not mode e).minimalTerms op ↔
    t.opposite ∈ e.minimalTerms op.dual := by
  refine Term.mem_minimal_opposite_iff (increasing_of_mem_distinct_terms _ _)
    (increasing_of_mem_distinct_terms _ _) fun t ↦ ?_
  rw [Term.mem_distinct, Term.mem_distinct, mem_terms_not_iff]

theorem nodup_minimalTerms (op : Connective) (e : Expr) : (e.minimalTerms op).Nodup :=
  nodup_of_pairwise_lt (pairwise_minimalTerms op e)

theorem minimalTerms_not_perm (mode : Mode) (op : Connective) (e : Expr) :
    ((Expr.not mode e).minimalTerms op).Perm ((e.minimalTerms op.dual).map Term.opposite) := by
  refine (List.perm_ext_iff_of_nodup (nodup_minimalTerms _ _)
    ((nodup_minimalTerms _ _).map Term.opposite_injective)).mpr fun t ↦ ?_
  rw [mem_minimalTerms_not_iff, List.mem_map]
  exact ⟨fun ht ↦ ⟨_, ht, t.opposite_opposite⟩, by
    rintro ⟨u, hu, rfl⟩
    rwa [u.opposite_opposite]⟩

/-! ### Normal forms of negations -/

/-- The operands of a normal form are those of the minimal terms. -/
theorem normalForm_perm (hne : e.minimalTerms op ≠ []) : (standard.normalForm op e).Perm
    ((e.minimalTerms op).map fun t ↦ standard.term op (standard.literalsOf t)) := by
  have hnodup : ((e.minimalTerms op).map fun t ↦
      standard.term op (standard.literalsOf t)).Nodup := by
    refine (nodup_minimalTerms op e).map_on fun t ht u hu heq ↦ ?_
    have hliterals := congrArg literals heq
    rw [literals_term (increasing_of_mem_minimalTerms ht),
      literals_term (increasing_of_mem_minimalTerms hu)] at hliterals
    exact eq_of_subset_of_mem_minimalTerms ht hu
      (literalsOf_subset (List.Perm.of_eq hliterals).subset)
  refine (List.perm_ext_iff_of_nodup
    (nodup_of_pairwise_lt (isNormalForm_normalForm op e).increasing) hnodup).mpr fun d ↦ ?_
  rw [mem_normalForm_iff hne, List.mem_map]

/-- So their literals are those of the minimal terms. -/
theorem map_literals_normalForm_perm (hne : e.minimalTerms op ≠ []) :
    ((standard.normalForm op e).map literals).Perm
      ((e.minimalTerms op).map standard.literalsOf) := by
  refine ((normalForm_perm hne).map literals).trans (.of_eq ?_)
  rw [List.map_map]
  exact List.map_congr_left fun t ht ↦ literals_term (increasing_of_mem_minimalTerms ht)

theorem literalsOf_opposite (t : Term) :
    standard.literalsOf t.opposite = (standard.literalsOf t).map standard.complement := by
  rw [literalsOf, literalsOf, Term.opposite, List.map_map, List.map_map]
  exact List.map_congr_left fun l _ ↦ literal_opposite l

theorem literals_truth (value : Bool) : (Expr.truth value).literals = [] := by
  rw [literals, literalLeaves]
  exact sortDistinct_eq_of_pairwise .nil fun _ ↦ Iff.rfl

theorem minimalTerms_not_eq_nil_iff (mode : Mode) :
    (Expr.not mode e).minimalTerms op = [] ↔ e.minimalTerms op.dual = [] := by
  rw [← List.perm_nil, (minimalTerms_not_perm mode op e).congr_left, List.perm_nil,
    List.map_eq_nil_iff]

open scoped List in
/-- The normal form of the negation of an expression has an operand for each operand of the normal
form of the expression with respect to the dual connective, with the opposite literals and no
others. One of the two normal forms is a single constant just when the other one is the opposite
constant alone. -/
theorem normalForm_negation (op : Connective) (e : Expr) :
    ((standard.normalForm op (standard.negation .raw e)).map literals).Perm
        ((standard.normalForm op.dual e).map fun d ↦ d.literals.map standard.complement) ∧
      ∀ value, standard.normalForm op (standard.negation .raw e) = [.truth value] ↔
        standard.normalForm op.dual e = [.truth !value] := by
  have hraw : standard.negation .raw e = .not .raw e := rfl
  have hnil := @minimalTerms_not_eq_nil_iff op e .raw
  rw [hraw]
  constructor
  · by_cases hempty : e.minimalTerms op.dual = []
    · rw [normalForm_eq, if_pos (hnil.mpr hempty), normalForm_eq, if_pos hempty,
        List.map_singleton, List.map_singleton, literals_truth, literals_truth]
      exact .refl _
    · calc (standard.normalForm op (.not .raw e)).map literals
        _ ~ ((Expr.not .raw e).minimalTerms op).map standard.literalsOf :=
          map_literals_normalForm_perm fun h ↦ hempty (hnil.mp h)
        _ ~ ((e.minimalTerms op.dual).map Term.opposite).map standard.literalsOf :=
          (minimalTerms_not_perm .raw op e).map _
        _ ~ ((e.minimalTerms op.dual).map standard.literalsOf).map (List.map standard.complement) :=
          .of_eq (by simp [literalsOf_opposite, Function.comp_def])
        _ ~ ((standard.normalForm op.dual e).map literals).map (List.map standard.complement) :=
          ((map_literals_normalForm_perm hempty).map _).symm
        _ ~ (standard.normalForm op.dual e).map fun d ↦ d.literals.map standard.complement :=
          .of_eq (List.map_map ..)
  · intro value
    have hidentity : value = op.identity ↔ (!value) = op.dual.identity := by
      rw [Connective.identity_dual, Bool.not_inj_iff]
    have hannihilator : value = op.annihilator ↔ (!value) = op.dual.annihilator := by
      rw [Connective.annihilator, Connective.annihilator, Connective.identity_dual,
        Bool.not_inj_iff]
    rw [normalForm_eq_truth_iff, normalForm_eq_truth_iff, hnil, mem_minimalTerms_not_iff,
      hidentity, hannihilator]
    rfl

end Expr

end SwitchingAlgebra
