import Mathlib
import SwitchingAlgebra.Proofs.PrimeTerms

/-!
# What crossed terms are

Merging two terms gives the term that holds exactly where both hold, and gives nothing where no term
does so. So the terms that come from crossing those of several operands can be told without the
order in which they are crossed: each holds exactly where one term of every operand does.

Main statements: `merge?_eq_some_iff` for two terms and `mem_crossedTerms_iff` for the terms of a
list of operands.
-/

set_option autoImplicit false
set_option relaxedAutoImplicit false

namespace SwitchingAlgebra

namespace Term

variable {t u m : Term}

/-- Some assignment satisfies a term. -/
theorem Increasing.exists_holds (ht : t.Increasing) :
    ∃ assignment : Symbol → Bool, t.holds assignment .and = true :=
  ⟨fun s ↦ (t.polarity? s).getD true, (holds_iff ht).mpr fun _ ↦ Column.accepts_getD _ _⟩

/-- Terms that hold under the same assignments are equal. -/
theorem Increasing.eq_of_holds_eq (ht : t.Increasing) (hu : u.Increasing)
    (hholds : ∀ assignment : Symbol → Bool, t.holds assignment .and = u.holds assignment .and) :
    t = u := by
  have htu : t.Implies u := fun assignment h ↦ (hholds assignment).symm.trans h
  have hut : u.Implies t := fun assignment h ↦ (hholds assignment).trans h
  exact ext_mem ht hu fun l ↦ ⟨fun hl ↦ hut.subset hu hl, fun hl ↦ htu.subset ht hl⟩

/-- Two terms are merged to the term that holds where both do, if there is one. -/
theorem merge?_eq_some_iff (ht : t.Increasing) : merge? t u = some m ↔
    m.Increasing ∧ ∀ assignment : Symbol → Bool,
      m.holds assignment .and = (t.holds assignment .and && u.holds assignment .and) := by
  constructor
  · intro hmerge
    refine ⟨ht.merge? hmerge, fun assignment ↦ ?_⟩
    rw [← any_merge?, hmerge, Option.any_some]
  · rintro ⟨hm, hholds⟩
    cases hmerge : merge? t u with
    | none =>
      obtain ⟨assignment, htrue⟩ := hm.exists_holds
      rw [hholds, ← any_merge?, hmerge, Option.any_none] at htrue
      cases htrue
    | some merged =>
      refine congrArg some ((ht.merge? hmerge).eq_of_holds_eq hm fun assignment ↦ ?_)
      rw [hholds, ← any_merge?, hmerge, Option.any_some]

theorem mem_cross_iff {ts us : List Term} (hts : ∀ t ∈ ts, t.Increasing) : m ∈ cross ts us ↔
    ∃ t ∈ ts, ∃ u ∈ us, m.Increasing ∧ ∀ assignment : Symbol → Bool,
      m.holds assignment .and = (t.holds assignment .and && u.holds assignment .and) := by
  rw [cross, mem_distinct, List.mem_flatMap]
  refine exists_congr fun t ↦ and_congr_right fun ht ↦ ?_
  rw [List.mem_filterMap]
  exact exists_congr fun u ↦ and_congr_right fun _ ↦ merge?_eq_some_iff (hts t ht)

end Term

namespace Expr

variable {op : Connective} {es : List Expr} {negated : Bool} {t : Term}

theorem mem_gatheredTerms_iff :
    t ∈ gatheredTerms op es negated ↔ ∃ e ∈ es, t ∈ e.terms op negated := by
  induction es with
  | nil => simp [gatheredTerms]
  | cons e rest ih => rw [gatheredTerms, List.mem_append, ih, List.exists_mem_cons_iff]

/-- A crossed term holds where a given one and one term of each operand do. -/
theorem mem_crossedTerms_iff {acc : List Term} (hacc : ∀ t ∈ acc, t.Increasing) :
    t ∈ crossedTerms op es negated acc ↔ ∃ first ∈ acc, ∃ choice : List Term,
      List.Forall₂ (fun u e ↦ u ∈ e.terms op negated) choice es ∧ t.Increasing ∧
        ∀ assignment : Symbol → Bool, t.holds assignment .and =
          (first.holds assignment .and && choice.all (Term.holds assignment .and)) := by
  induction es generalizing acc with
  | nil =>
    rw [crossedTerms]
    constructor
    · exact fun ht ↦ ⟨t, ht, [], .nil, hacc t ht, fun _ ↦ (Bool.and_true _).symm⟩
    · rintro ⟨first, hfirst, choice, hchoice, ht, hholds⟩
      cases hchoice
      have heq : t = first := ht.eq_of_holds_eq (hacc first hfirst) fun assignment ↦
        (hholds assignment).trans (Bool.and_true _)
      exact heq ▸ hfirst
  | cons e rest ih =>
    rw [crossedTerms, ih fun m hm ↦ Term.increasing_of_mem_cross hacc hm]
    constructor
    · rintro ⟨m, hm, choice, hchoice, ht, hholds⟩
      obtain ⟨first, hfirst, u, hu, -, hmerged⟩ := (Term.mem_cross_iff hacc).mp hm
      refine ⟨first, hfirst, u :: choice, .cons hu hchoice, ht, fun assignment ↦ ?_⟩
      rw [hholds, hmerged, List.all_cons, Bool.and_assoc]
    · rintro ⟨first, hfirst, choice, hchoice, ht, hholds⟩
      cases hchoice with
      | @cons u _ choice _ hu hchoice =>
        -- The first two terms are merged, since all of them hold together somewhere.
        obtain ⟨m, hmerge⟩ : ∃ m, Term.merge? first u = some m := by
          obtain ⟨assignment, htrue⟩ := ht.exists_holds
          rw [hholds, List.all_cons, ← Bool.and_assoc, ← Term.any_merge?] at htrue
          cases hmerge : Term.merge? first u with
          | none =>
            rw [hmerge] at htrue
            cases htrue
          | some m => exact ⟨m, rfl⟩
        obtain ⟨hm, hmerged⟩ := (Term.merge?_eq_some_iff (hacc first hfirst)).mp hmerge
        refine ⟨m, (Term.mem_cross_iff hacc).mpr ⟨first, hfirst, u, hu, hm, hmerged⟩, choice,
          hchoice, ht, fun assignment ↦ ?_⟩
        rw [hholds, hmerged, List.all_cons, Bool.and_assoc]

end Expr

end SwitchingAlgebra
