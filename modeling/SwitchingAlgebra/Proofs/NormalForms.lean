import Mathlib
import SwitchingAlgebra.Proofs.CrossedTerms
import SwitchingAlgebra.Proofs.Reachable

/-!
# Normal forms are irredundant

Below every term of a list there is a minimal one, whose literals are all among those of the term,
so the sum of the minimal terms is the sum of all. The normal form of an expression has one operand
for each minimal term. Such an operand has no other term than the one it is built from, so the
minimal terms of an expression can be read off its normal form, and normalizing what the normal form
joins gives it back.

Without minimal terms the expression is the identity of the connective. An empty term is below every
other one, so it is the only minimal term where there is one, and the expression is the annihilator.

Main statements: the minimal terms keep the sum (`Term.allHold_minimal`), the terms of an operand
are the term it is built from (`Expr.mem_terms_term_iff`), and all that normal forms promise
(`Expr.normalForm_irredundant`).
-/

set_option autoImplicit false
set_option relaxedAutoImplicit false

namespace SwitchingAlgebra

open Policy

variable {op : Connective} {d e : Expr} {t u : Term} {ts : List Term}
  {assignment : Symbol → Bool}

namespace Term

/-! ### Minimal terms -/

theorem subsumes_iff : t.subsumes u = true ↔ t ⊆ u := by
  simp only [subsumes, List.all_eq_true, List.contains_iff_mem]
  rfl

theorem Increasing.nodup (ht : t.Increasing) : t.Nodup :=
  ht.imp fun hlt heq ↦ ne_of_compare_lt hlt (congrArg Literal.symbol heq)

/-- A term of literals of another that has at least as many is that other term. -/
theorem Increasing.eq_of_subset (ht : t.Increasing) (hu : u.Increasing) (hsubset : t ⊆ u)
    (hlength : u.length ≤ t.length) : t = u := by
  have hperm : t.Perm u := (ht.nodup.subperm hsubset).perm_of_length_le hlength
  exact ext_mem ht hu fun l ↦ hperm.mem_iff

/-- The minimal terms are those of which no other term is a part. -/
theorem mem_minimal_iff (hts : ∀ t ∈ ts, t.Increasing) :
    t ∈ minimal ts ↔ t ∈ ts ∧ ∀ u ∈ ts, u ⊆ t → u = t := by
  rw [minimal, List.mem_filter, Bool.not_eq_true', List.any_eq_false]
  refine and_congr_right fun ht ↦ forall₂_congr fun u hu ↦ ?_
  rw [Bool.and_eq_true, decide_eq_true_iff, subsumes_iff]
  constructor
  · intro hshorter hsubset
    refine (hts u hu).eq_of_subset (hts t ht) hsubset (Nat.le_of_not_lt fun hlt ↦ ?_)
    exact hshorter ⟨hlt, hsubset⟩
  · rintro hequal ⟨hlt, hsubset⟩
    rw [hequal hsubset] at hlt
    exact Nat.lt_irrefl _ hlt

theorem mem_of_mem_minimal (ht : t ∈ minimal ts) : t ∈ ts :=
  List.mem_of_mem_filter ht

/-- Every term has a minimal part. -/
theorem exists_minimal_subset (hts : ∀ t ∈ ts, t.Increasing) (ht : t ∈ ts) :
    ∃ u ∈ minimal ts, u ⊆ t := by
  -- A part with the fewest literals.
  obtain ⟨u, ⟨hu, hsubset⟩, hfewest⟩ := exists_minimalFor_of_wellFoundedLT
    (fun u : Term ↦ u ∈ ts ∧ u ⊆ t) List.length ⟨t, ht, List.Subset.refl t⟩
  refine ⟨u, (mem_minimal_iff hts).mpr ⟨hu, fun v hv hvu ↦ ?_⟩, hsubset⟩
  have hlength : u.length ≤ v.length :=
    hfewest ⟨hv, List.Subset.trans hvu hsubset⟩ ((hts v hv).nodup.subperm hvu).length_le
  exact (hts v hv).eq_of_subset (hts u hu) hvu hlength

/-- The sum of the minimal terms is the sum of all terms. -/
theorem allHold_minimal (hts : ∀ t ∈ ts, t.Increasing) :
    allHold assignment .or (minimal ts) = allHold assignment .or ts := by
  rw [Bool.eq_iff_iff, allHold, allHold, List.any_eq_true, List.any_eq_true]
  constructor
  · rintro ⟨t, ht, hholds⟩
    exact ⟨t, mem_of_mem_minimal ht, hholds⟩
  · rintro ⟨t, ht, hholds⟩
    obtain ⟨u, hu, hsubset⟩ := exists_minimal_subset hts ht
    exact ⟨u, hu, implies_of_subset hsubset assignment hholds⟩

theorem minimal_minimal (ts : List Term) : minimal (minimal ts) = minimal ts := by
  refine List.filter_eq_self.mpr fun t ht ↦ ?_
  rw [Bool.not_eq_true', List.any_eq_false]
  intro u hu
  have hnone := (List.mem_filter.mp ht).2
  rw [Bool.not_eq_true', List.any_eq_false] at hnone
  exact hnone u (mem_of_mem_minimal hu)

end Term

namespace Expr

/-- The minimal terms of an expression with respect to a connective. -/
def minimalTerms (op : Connective) (e : Expr) : List Term :=
  Term.minimal (Term.distinct (e.terms op false))

/-! ### The minimal terms of an expression -/

theorem increasing_of_mem_distinct_terms (op : Connective) (e : Expr) :
    ∀ t ∈ Term.distinct (e.terms op false), t.Increasing := fun t ht ↦
  increasing_of_mem_terms e false t (Term.mem_distinct.mp ht)

theorem increasing_of_mem_minimalTerms (ht : t ∈ e.minimalTerms op) : t.Increasing :=
  increasing_of_mem_distinct_terms op e t (Term.mem_of_mem_minimal ht)

theorem pairwise_minimalTerms (op : Connective) (e : Expr) :
    (e.minimalTerms op).Pairwise fun t u ↦ compare t u = .lt :=
  (pairwise_sortDistinct _).filter _

/-- No minimal term is part of another. -/
theorem eq_of_subset_of_mem_minimalTerms (ht : t ∈ e.minimalTerms op) (hu : u ∈ e.minimalTerms op)
    (hsubset : t ⊆ u) : t = u :=
  ((Term.mem_minimal_iff (increasing_of_mem_distinct_terms op e)).mp hu).2 t
    (Term.mem_of_mem_minimal ht) hsubset

/-- The minimal terms, read as products, hold when the value of the expression decides the
connective. -/
theorem allHold_minimalTerms (op : Connective) (e : Expr) (assignment : Symbol → Bool) :
    Term.allHold (op.orient assignment) .or (e.minimalTerms op) =
      op.decides (e.holds assignment) := by
  rw [minimalTerms, Term.allHold_minimal (increasing_of_mem_distinct_terms op e),
    Term.allHold_distinct, allHold_orient_terms, Bool.bne_false]

/-- There are no minimal terms just when the expression always has the value of the identity. -/
theorem minimalTerms_eq_nil_iff :
    e.minimalTerms op = [] ↔ ∀ assignment, e.holds assignment = op.identity := by
  have hidentity : ∀ assignment, e.holds assignment = op.identity ↔
      Term.allHold (op.orient assignment) .or (e.minimalTerms op) = false := by
    intro assignment
    rw [allHold_minimalTerms, ← Connective.decides_identity]
    exact ⟨congrArg _, Connective.decides_injective⟩
  simp only [hidentity]
  constructor
  · intro hnil assignment
    rw [hnil]
    rfl
  · intro hnone
    refine List.eq_nil_iff_forall_not_mem.mpr fun t ht ↦ ?_
    -- A term holds somewhere, and there the connective would be decided.
    obtain ⟨assignment, hholds⟩ := (increasing_of_mem_minimalTerms ht).exists_holds
    have hfalse := hnone (op.orient assignment)
    rw [Connective.orient_orient, Term.allHold, List.any_eq_false] at hfalse
    exact hfalse t ht hholds

/-! ### Operands of terms -/

/-- From each literal of a term there is only the literal itself to choose. -/
theorem forall₂_terms_literalsOf_iff {choice : List Term} :
    List.Forall₂ (fun u e ↦ u ∈ e.terms op false) choice (standard.literalsOf t) ↔
      choice = t.map fun l ↦ [l] := by
  rw [literalsOf, List.forall₂_map_right_iff]
  simp only [terms_literal, List.mem_singleton]
  rw [← List.forall₂_map_right_iff, List.forall₂_eq_eq_eq]

/-- Crossing the literals of a term gives the term. -/
theorem mem_crossedTerms_literalsOf_iff (ht : t.Increasing) :
    u ∈ crossedTerms op (standard.literalsOf t) false [[]] ↔ u = t := by
  have hchoice : ∀ assignment : Symbol → Bool,
      (t.map fun l ↦ [l]).all (Term.holds assignment .and) = t.holds assignment .and := by
    intro assignment
    simp [Term.holds, List.all_map, Function.comp_def]
  rw [mem_crossedTerms_iff (by simp [Term.Increasing])]
  simp only [forall₂_terms_literalsOf_iff, List.mem_singleton]
  constructor
  · rintro ⟨_, rfl, _, rfl, hu, hholds⟩
    refine hu.eq_of_holds_eq ht fun assignment ↦ ?_
    rw [hholds, hchoice]
    rfl
  · rintro rfl
    exact ⟨[], rfl, _, rfl, ht, fun assignment ↦ (hchoice assignment).symm⟩

/-- An operand has the term that it is built from and no other. -/
theorem mem_terms_term_iff (ht : t.Increasing) :
    u ∈ (standard.term op (standard.literalsOf t)).terms op false ↔ u = t := by
  match t with
  | [] =>
    show u ∈ (Expr.truth op.annihilator).terms op false ↔ _
    cases op <;> simp [terms, Connective.annihilator, Connective.identity]
  | [l] =>
    show u ∈ (standard.literal l.symbol l.positive).terms op false ↔ _
    rw [terms_literal, List.mem_singleton]
  | l :: m :: rest =>
    show u ∈ (join .evaluated op.dual (standard.literalsOf (l :: m :: rest))).terms op false ↔ _
    rw [terms, if_neg (by simp), mem_crossedTerms_literalsOf_iff ht]

/-! ### The operands of a normal form -/

theorem normalForm_eq (op : Connective) (e : Expr) :
    standard.normalForm op e = if e.minimalTerms op = [] then [.truth op.identity] else
      Expr.distinct ((e.minimalTerms op).map fun t ↦
        standard.term op (standard.literalsOf t)) := by
  rw [normalForm, ← minimalTerms]
  split
  · next hnil =>
    rw [if_pos hnil]
    rfl
  · next hne =>
    rw [if_neg hne]
    rfl

/-- A normal form has an operand for each minimal term. -/
theorem mem_normalForm_iff (hne : e.minimalTerms op ≠ []) : d ∈ standard.normalForm op e ↔
    ∃ t ∈ e.minimalTerms op, standard.term op (standard.literalsOf t) = d := by
  have hevaluated : ∀ d ∈ (e.minimalTerms op).map fun t ↦
      standard.term op (standard.literalsOf t), d.Evaluated :=
    List.forall_mem_map.mpr fun t ht ↦ evaluated_term (increasing_of_mem_minimalTerms ht)
  rw [normalForm_eq, if_neg hne, mem_distinct hevaluated, List.mem_map]

/-- The terms of the operands of a normal form are the minimal terms. -/
theorem mem_terms_normalForm_iff :
    (∃ d ∈ standard.normalForm op e, t ∈ d.terms op false) ↔ t ∈ e.minimalTerms op := by
  by_cases hnil : e.minimalTerms op = []
  · rw [normalForm_eq, if_pos hnil, hnil]
    simp [terms]
  · simp only [mem_normalForm_iff hnil]
    constructor
    · rintro ⟨_, ⟨u, hu, rfl⟩, ht⟩
      rwa [(mem_terms_term_iff (increasing_of_mem_minimalTerms hu)).mp ht]
    · intro ht
      exact ⟨_, ⟨t, ht, rfl⟩, (mem_terms_term_iff (increasing_of_mem_minimalTerms ht)).mpr rfl⟩

/-- What a normal form joins has the minimal terms of the expression it comes from. -/
theorem minimalTerms_join_normalForm (mode : Mode) (op : Connective) (e : Expr) :
    (Expr.join mode op (standard.normalForm op e)).minimalTerms op = e.minimalTerms op := by
  have hterms : Term.distinct ((Expr.join mode op (standard.normalForm op e)).terms op false) =
      e.minimalTerms op := by
    refine sortDistinct_eq_of_pairwise (pairwise_minimalTerms op e) fun t ↦ ?_
    rw [terms, if_pos (if_neg Bool.false_ne_true), mem_gatheredTerms_iff,
      mem_terms_normalForm_iff]
  rw [minimalTerms, hterms, minimalTerms, Term.minimal_minimal]

/-- A normal form is joined to the value of the expression, in whichever mode. -/
theorem holds_join_normalForm (mode : Mode) (op : Connective) (e : Expr) :
    (standard.join mode op (standard.normalForm op e)).holds assignment = e.holds assignment := by
  apply @Connective.decides_injective op
  rw [holds_built_join faithful_standard mode .raw, ← allHold_minimalTerms,
    ← allHold_minimalTerms, minimalTerms_join_normalForm]

/-! ### The shape of normal forms -/

/-- A normal form is not empty and strictly increases. It is a single constant or consists of
clauses, of which none has all literals of another. -/
structure IsNormalForm (op : Connective) (es : List Expr) : Prop where
  ne_nil : es ≠ []
  increasing : es.Pairwise fun d e ↦ compare d e = .lt
  truth_or_isClause : (∃ value, es = [.truth value]) ∨ ∀ e ∈ es, IsClause op e
  eq_of_subset : ∀ d ∈ es, ∀ e ∈ es, d.literals ⊆ e.literals → d = e

theorem isNormalForm_truth (op : Connective) (value : Bool) : IsNormalForm op [.truth value] where
  ne_nil := List.cons_ne_nil _ _
  increasing := List.pairwise_singleton _ _
  truth_or_isClause := .inl ⟨value, rfl⟩
  eq_of_subset _ hd _ he _ := (List.mem_singleton.mp hd).trans (List.mem_singleton.mp he).symm

/-- The empty term is the only minimal one where there is one. -/
theorem minimalTerms_eq_of_nil_mem (hmem : [] ∈ e.minimalTerms op) : e.minimalTerms op = [[]] := by
  refine eq_of_pairwise_of_mem_iff asymm_of_orientedCmp (pairwise_minimalTerms op e)
    (List.pairwise_singleton _ _) fun t ↦ ?_
  rw [List.mem_singleton]
  constructor
  · exact fun ht ↦ (eq_of_subset_of_mem_minimalTerms hmem ht (List.nil_subset t)).symm
  · rintro rfl
    exact hmem

/-- It makes the normal form the annihilator. -/
theorem normalForm_of_nil_mem (hmem : [] ∈ e.minimalTerms op) :
    standard.normalForm op e = [.truth op.annihilator] := by
  rw [normalForm_eq, minimalTerms_eq_of_nil_mem hmem, if_neg (List.cons_ne_nil _ _)]
  exact sortDistinct_eq_of_pairwise (List.pairwise_singleton _ _) fun _ ↦ Iff.rfl

/-- A normal form is a single constant where there is no minimal term or the empty one. -/
theorem normalForm_eq_truth_iff {value : Bool} : standard.normalForm op e = [.truth value] ↔
    e.minimalTerms op = [] ∧ value = op.identity ∨
      [] ∈ e.minimalTerms op ∧ value = op.annihilator := by
  constructor
  · intro hvalue
    by_cases hnil : e.minimalTerms op = []
    · rw [normalForm_eq, if_pos hnil] at hvalue
      cases hvalue
      exact .inl ⟨hnil, rfl⟩
    · have hmem : Expr.truth value ∈ standard.normalForm op e :=
        hvalue ▸ List.mem_singleton_self _
      obtain ⟨t, ht, hterm⟩ := (mem_normalForm_iff hnil).mp hmem
      by_cases hempty : t = []
      · subst hempty
        cases hterm
        exact .inr ⟨ht, rfl⟩
      · have hclause : IsClause op (standard.term op (standard.literalsOf t)) :=
          isClause_term (increasing_of_mem_minimalTerms ht) hempty
        exact absurd hterm (hclause.ne_truth value)
  · rintro (⟨hnil, rfl⟩ | ⟨hmem, rfl⟩)
    · rw [normalForm_eq, if_pos hnil]
    · exact normalForm_of_nil_mem hmem

theorem isNormalForm_normalForm (op : Connective) (e : Expr) :
    IsNormalForm op (standard.normalForm op e) := by
  by_cases hnil : e.minimalTerms op = []
  · rw [normalForm_eq, if_pos hnil]
    exact isNormalForm_truth op _
  by_cases hempty : [] ∈ e.minimalTerms op
  · rw [normalForm_of_nil_mem hempty]
    exact isNormalForm_truth op op.annihilator
  · refine ⟨fun hnone ↦ ?_, ?_, .inr fun d hd ↦ ?_, fun d hd f hf hsubset ↦ ?_⟩
    · obtain ⟨t, ht⟩ := List.exists_mem_of_ne_nil _ hnil
      have hoperand := (mem_normalForm_iff hnil).mpr ⟨t, ht, rfl⟩
      rw [hnone] at hoperand
      cases hoperand
    · rw [normalForm_eq, if_neg hnil]
      exact pairwise_sortDistinct _
    · obtain ⟨t, ht, rfl⟩ := (mem_normalForm_iff hnil).mp hd
      exact isClause_term (increasing_of_mem_minimalTerms ht) fun heq ↦ hempty (heq ▸ ht)
    · obtain ⟨t, ht, rfl⟩ := (mem_normalForm_iff hnil).mp hd
      obtain ⟨u, hu, rfl⟩ := (mem_normalForm_iff hnil).mp hf
      rw [literals_term (increasing_of_mem_minimalTerms ht),
        literals_term (increasing_of_mem_minimalTerms hu)] at hsubset
      rw [eq_of_subset_of_mem_minimalTerms ht hu (literalsOf_subset hsubset)]

/-! ### What normal forms promise -/

/-- The normal form of an expression is a non-empty, strictly increasing list. It is a single
constant or consists of clauses, of which none has all literals of another. Joined with the
connective it has the value of the expression. It is the identity alone just when the expression
always has the value of the identity, and normalizing what it joins gives it back. -/
theorem normalForm_irredundant (op : Connective) (e : Expr) :
    IsNormalForm op (standard.normalForm op e) ∧
      (∀ (mode : Mode) (assignment : Symbol → Bool),
        (standard.join mode op (standard.normalForm op e)).holds assignment =
          e.holds assignment) ∧
      (standard.normalForm op e = [.truth op.identity] ↔
        ∀ assignment, e.holds assignment = op.identity) ∧
      standard.normalForm op (standard.join .raw op (standard.normalForm op e)) =
        standard.normalForm op e := by
  have hraw : ∀ es, standard.join .raw op es = .join .raw op es := fun _ ↦ rfl
  refine ⟨isNormalForm_normalForm op e, fun mode assignment ↦ holds_join_normalForm mode op e,
    ⟨fun hidentity assignment ↦ ?_, fun hidentity ↦ ?_⟩, ?_⟩
  · rw [← holds_join_normalForm .raw op e, hidentity, hraw]
    cases op <;> simp [Connective.identity]
  · rw [normalForm_eq, if_pos (minimalTerms_eq_nil_iff.mpr hidentity)]
  · rw [hraw, normalForm_eq op (.join _ _ _), minimalTerms_join_normalForm, ← normalForm_eq]

/-- A negated product, normalized for OR and for AND. -/
example : standard.normalForm .or (.not .raw (.join .raw .and
      [.symbol (.name "a"), .not .raw (.symbol (.name "b"))])) =
        [.not .evaluated (.symbol (.name "a")), .symbol (.name "b")] ∧
    standard.normalForm .and (.not .raw (.join .raw .and
      [.symbol (.name "a"), .not .raw (.symbol (.name "b"))])) =
        [.join .evaluated .or
          [.not .evaluated (.symbol (.name "a")), .symbol (.name "b")]] := by
  cbv

end Expr

end SwitchingAlgebra
