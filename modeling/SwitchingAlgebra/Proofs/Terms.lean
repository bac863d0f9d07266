import Mathlib
import SwitchingAlgebra.Proofs.SortedLists
import SwitchingAlgebra.Term

/-!
# What terms stand for

The clauses of an AND are products of an OR seen from the other side: a value decides a connective
when it is the annihilator, a join of the connective is decided when some operand decides it, and a
join of the dual one decides it when every operand does. Under the assignment that is turned around
in the same way, the terms of an expression are products and their list is a sum, for either
connective.

Main statements: the terms of an expression have its value (`allHold_terms`), and the literals of
each stand in increasing order of distinct symbols (`increasing_of_mem_terms`).
-/

set_option autoImplicit false
set_option relaxedAutoImplicit false

namespace SwitchingAlgebra

/-! ### Orders -/

instance : Std.LawfulEqOrd Literal where
  compare_self {l} := by
    have hsymbol : compare l.symbol l.symbol = .eq := Std.ReflCmp.compare_self
    have hpositive : compare l.positive l.positive = .eq := Std.ReflCmp.compare_self
    exact Ordering.then_eq_eq.mpr ⟨hsymbol, hpositive⟩
  eq_of_compare {l m} h := by
    obtain ⟨hsymbol, hpositive⟩ := Ordering.then_eq_eq.mp h
    have hs : l.symbol = m.symbol := Std.LawfulEqCmp.eq_of_compare hsymbol
    have hp : l.positive = m.positive := Std.LawfulEqCmp.eq_of_compare hpositive
    cases l
    cases m
    cases hs
    cases hp
    rfl

instance : Std.TransOrd Literal :=
  inferInstanceAs
    (Std.TransCmp (compareLex (compareOn Literal.symbol) (compareOn Literal.positive)))

namespace Connective

/-! ### Deciding a connective -/

/-- The value alone decides a join of the connective. -/
def decides (op : Connective) (value : Bool) : Bool :=
  value == op.annihilator

/-- The assignment under which the terms of a connective are read as products: the assignment itself
for OR and the opposite one for AND. -/
def orient (op : Connective) (assignment : Symbol → Bool) : Symbol → Bool :=
  fun s ↦ op.decides (assignment s)

variable {op : Connective} {assignment : Symbol → Bool}

@[simp]
theorem orient_orient : op.orient (op.orient assignment) = assignment := by
  ext s
  cases op <;> simp [orient, decides, annihilator, identity]

@[simp]
theorem dual_ne (op : Connective) : op.dual ≠ op := by
  cases op <;> simp [dual]

theorem eq_or_eq_dual (op child : Connective) : child = op ∨ child = op.dual := by
  cases op <;> cases child <;> simp [dual]

@[simp]
theorem decides_annihilator : op.decides op.annihilator = true := by
  simp [decides]

@[simp]
theorem decides_identity : op.decides op.identity = false := by
  cases op <;> rfl

theorem decides_injective {x y : Bool} (h : op.decides x = op.decides y) : x = y := by
  revert h
  cases op <;> cases x <;> cases y <;> simp [decides, annihilator, identity]

theorem decides_beq (x y : Bool) : op.decides (x == y) = (op.decides x == y) := by
  cases op <;> cases x <;> cases y <;> rfl

theorem decides_bne (x y : Bool) : op.decides (x != y) = (op.decides x != y) := by
  cases op <;> cases x <;> cases y <;> rfl

theorem decides_holds (l : Literal) :
    op.decides (l.holds assignment) = l.holds (op.orient assignment) :=
  decides_beq _ _

/-- A join is decided by any operand that decides it. -/
theorem decides_join (mode : Mode) (es : List Expr) :
    op.decides ((Expr.join mode op es).holds assignment) =
      es.any fun e ↦ op.decides (e.holds assignment) := by
  cases op with
  | and => simp [decides, annihilator, identity, List.not_all_eq_any_not]
  | or => simp [decides, annihilator, identity]

/-- A join of the dual connective decides if all operands do. -/
theorem decides_join_dual (mode : Mode) (es : List Expr) :
    op.decides ((Expr.join mode op.dual es).holds assignment) =
      es.all fun e ↦ op.decides (e.holds assignment) := by
  cases op with
  | and => simp [decides, annihilator, identity, dual, List.not_any_eq_all_not]
  | or => simp [decides, annihilator, identity, dual]

end Connective

namespace Term

variable {op : Connective} {assignment : Symbol → Bool}

theorem decides_holds (t : Term) :
    op.decides (t.holds assignment op.dual) = t.holds (op.orient assignment) .and := by
  have hliterals : Literal.holds (op.orient assignment) =
      fun l ↦ op.decides (l.holds assignment) :=
    funext fun l ↦ (Connective.decides_holds l).symm
  cases op with
  | and => simp [holds, Connective.dual, hliterals, Connective.decides, Connective.annihilator,
      Connective.identity, List.not_any_eq_all_not]
  | or => simp [holds, Connective.dual, hliterals, Connective.decides, Connective.annihilator,
      Connective.identity]

theorem decides_allHold (ts : List Term) :
    op.decides (allHold assignment op ts) = allHold (op.orient assignment) .or ts := by
  have hterms : holds (op.orient assignment) .and =
      fun t ↦ op.decides (t.holds assignment op.dual) :=
    funext fun t ↦ (decides_holds t).symm
  cases op with
  | and => simp [allHold, hterms, Connective.decides, Connective.annihilator, Connective.identity,
      Connective.dual, List.not_all_eq_any_not]
  | or => simp [allHold, hterms, Connective.decides, Connective.annihilator, Connective.identity,
      Connective.dual]

/-! ### Merging -/

theorem holds_cons (l : Literal) (t : Term) :
    holds assignment .and (l :: t) = (l.holds assignment && t.holds assignment .and) :=
  List.all_cons

/-- A term with one more literal asks for that literal too; where there is no such term, no
assignment has what both ask for. -/
theorem any_insert? (l : Literal) (t : Term) : (insert? l t).any (holds assignment .and) =
    (l.holds assignment && t.holds assignment .and) := by
  induction t with
  | nil => simp [insert?, holds]
  | cons m rest ih =>
    unfold insert?
    split
    · rw [Option.any_some, holds_cons]
    · next hequal =>
      have hsymbol : l.symbol = m.symbol := Std.LawfulEqOrd.eq_of_compare hequal
      rw [holds_cons, Literal.holds, Literal.holds, hsymbol]
      split_ifs with hpositive
      · rw [Option.any_some, holds_cons, hpositive, Literal.holds, ← Bool.and_assoc, Bool.and_self]
      · rw [Bool.eq_not_of_ne hpositive]
        cases assignment m.symbol <;> cases m.positive <;> simp
    · have hmap : ((insert? l rest).map (m :: ·)).any (holds assignment .and) =
          (m.holds assignment && (insert? l rest).any (holds assignment .and)) := by
        cases insert? l rest <;> simp [holds_cons]
      rw [hmap, ih, holds_cons, Bool.and_left_comm]

/-- Two merged terms ask for what both ask for. -/
theorem any_merge? (t u : Term) : (merge? t u).any (holds assignment .and) =
    (t.holds assignment .and && u.holds assignment .and) := by
  induction u generalizing t with
  | nil => simp [merge?, holds]
  | cons l rest ih =>
    rw [merge?, holds_cons, Bool.and_left_comm, ← Bool.and_assoc, ← any_insert?]
    cases insert? l t with
    | none => simp
    | some merged => simpa using ih merged

theorem mem_distinct {t : Term} {ts : List Term} : t ∈ distinct ts ↔ t ∈ ts :=
  mem_sortDistinct

theorem allHold_distinct (ts : List Term) :
    allHold assignment .or (distinct ts) = allHold assignment .or ts := by
  rw [Bool.eq_iff_iff, allHold, allHold, List.any_eq_true, List.any_eq_true]
  simp only [mem_distinct]

theorem allHold_append (ts us : List Term) : allHold assignment .or (ts ++ us) =
    (allHold assignment .or ts || allHold assignment .or us) :=
  List.any_append

/-- A sum times a sum is the sum of all products. -/
theorem allHold_cross (ts us : List Term) : allHold assignment .or (cross ts us) =
    (allHold assignment .or ts && allHold assignment .or us) := by
  have hproducts : ∀ t : Term, allHold assignment .or (us.filterMap fun u ↦ merge? t u) =
      (t.holds assignment .and && allHold assignment .or us) := by
    intro t
    have hmerged : allHold assignment .or (us.filterMap fun u ↦ merge? t u) =
        us.any fun u ↦ (merge? t u).any (holds assignment .and) :=
      List.any_filterMap
    rw [hmerged]
    simp only [any_merge?, allHold]
    cases t.holds assignment .and <;> simp
  rw [cross, allHold_distinct]
  induction ts with
  | nil => simp [allHold]
  | cons t rest ih =>
    rw [List.flatMap_cons, allHold_append, hproducts, ih, ← Bool.and_or_distrib_right]
    rfl

/-! ### Increasing terms -/

/-- The literals of a term stand in increasing order of distinct symbols. -/
def Increasing (t : Term) : Prop :=
  t.Pairwise fun l m ↦ compare l.symbol m.symbol = .lt

theorem increasing_singleton (l : Literal) : Increasing [l] :=
  List.pairwise_singleton _ l

theorem mem_of_mem_insert? {l m : Literal} {t u : Term} (hinsert : insert? l t = some u)
    (hm : m ∈ u) : m = l ∨ m ∈ t := by
  induction t generalizing u with
  | nil =>
    cases hinsert
    exact .inl (List.mem_singleton.mp hm)
  | cons first rest ih =>
    rw [insert?] at hinsert
    split at hinsert
    · cases hinsert
      exact List.mem_cons.mp hm
    · split_ifs at hinsert
      cases hinsert
      exact .inr hm
    · obtain ⟨inserted, hinserted, rfl⟩ := Option.map_eq_some_iff.mp hinsert
      rcases List.mem_cons.mp hm with rfl | hm
      · exact .inr List.mem_cons_self
      · exact (ih hinserted hm).imp_right (List.mem_cons_of_mem _)

theorem Increasing.insert? {l : Literal} {t u : Term} (ht : Increasing t)
    (hinsert : Term.insert? l t = some u) : Increasing u := by
  induction t generalizing u with
  | nil =>
    cases hinsert
    exact increasing_singleton l
  | cons first rest ih =>
    obtain ⟨hfirst, hrest⟩ := List.pairwise_cons.mp ht
    rw [Term.insert?] at hinsert
    split at hinsert
    · next hlt =>
      cases hinsert
      refine List.pairwise_cons.mpr ⟨fun m hm ↦ ?_, ht⟩
      rcases List.mem_cons.mp hm with rfl | hm
      · exact hlt
      · exact Std.TransCmp.lt_trans hlt (hfirst m hm)
    · split_ifs at hinsert
      cases hinsert
      exact ht
    · next hgt =>
      obtain ⟨inserted, hinserted, rfl⟩ := Option.map_eq_some_iff.mp hinsert
      refine List.pairwise_cons.mpr ⟨fun m hm ↦ ?_, ih hrest hinserted⟩
      rcases mem_of_mem_insert? hinserted hm with rfl | hm
      · exact Std.OrientedCmp.gt_iff_lt.mp hgt
      · exact hfirst m hm

theorem Increasing.merge? {t u merged : Term} (ht : Increasing t)
    (hmerge : Term.merge? t u = some merged) : Increasing merged := by
  induction u generalizing t with
  | nil =>
    cases hmerge
    exact ht
  | cons l rest ih =>
    obtain ⟨inserted, hinserted, hmerged⟩ := Option.bind_eq_some_iff.mp hmerge
    exact ih (ht.insert? hinserted) hmerged

theorem increasing_of_mem_cross {ts us : List Term} (hts : ∀ t ∈ ts, Increasing t) {t : Term}
    (ht : t ∈ cross ts us) : Increasing t := by
  obtain ⟨first, hfirst, hmerged⟩ := List.mem_flatMap.mp (mem_distinct.mp ht)
  obtain ⟨second, -, hmerge⟩ := List.mem_filterMap.mp hmerged
  exact (hts first hfirst).merge? hmerge

end Term

/-! ### The terms of an expression -/

namespace Expr

variable {op : Connective} {assignment : Symbol → Bool}

theorem allHold_gatheredTerms (es : List Expr) (negated : Bool) :
    Term.allHold assignment .or (Expr.gatheredTerms op es negated) =
      es.any fun e ↦ Term.allHold assignment .or (e.terms op negated) := by
  induction es with
  | nil => rw [gatheredTerms]; rfl
  | cons e rest ih => rw [gatheredTerms, Term.allHold_append, ih, List.any_cons]

theorem allHold_crossedTerms (es : List Expr) (negated : Bool) (acc : List Term) :
    Term.allHold assignment .or (crossedTerms op es negated acc) =
      (Term.allHold assignment .or acc &&
        es.all fun e ↦ Term.allHold assignment .or (e.terms op negated)) := by
  induction es generalizing acc with
  | nil => rw [crossedTerms, List.all_nil, Bool.and_true]
  | cons e rest ih => rw [crossedTerms, ih, Term.allHold_cross, List.all_cons, Bool.and_assoc]

/-- Read as products, the terms of an expression hold under an assignment when the value of the
expression under the assignment it comes from decides the connective. -/
theorem allHold_orient_terms (e : Expr) : ∀ negated : Bool,
    Term.allHold (op.orient assignment) .or (e.terms op negated) =
      op.decides (e.holds assignment != negated) := by
  induction e using Expr.induct with
  | truth value =>
    intro negated
    rw [terms, holds_truth]
    split_ifs with hidentity
    · rw [hidentity, Connective.decides_identity]
      rfl
    · rw [Bool.eq_not_of_ne hidentity]
      exact (Connective.decides_annihilator).symm
  | symbol name =>
    intro negated
    rw [terms, holds_symbol]
    cases op <;> cases negated <;> cases hvalue : assignment name <;>
      simp [Term.allHold, Term.holds, Literal.holds, Connective.orient, Connective.decides,
        Connective.annihilator, Connective.identity, hvalue]
  | not mode operand ih =>
    intro negated
    rw [terms, ih, holds_not]
    cases operand.holds assignment <;> cases negated <;> rfl
  | join mode child operands ih =>
    intro negated
    have hany : (operands.any fun e ↦
        Term.allHold (op.orient assignment) .or (e.terms op negated)) =
          operands.any fun e ↦ op.decides (e.holds assignment) != negated := by
      rw [Bool.eq_iff_iff, List.any_eq_true, List.any_eq_true]
      refine exists_congr fun e ↦ and_congr_right fun he ↦ ?_
      rw [ih e he, Connective.decides_bne]
    have hall : (operands.all fun e ↦
        Term.allHold (op.orient assignment) .or (e.terms op negated)) =
          operands.all fun e ↦ op.decides (e.holds assignment) != negated := by
      rw [Bool.eq_iff_iff, List.all_eq_true, List.all_eq_true]
      refine forall₂_congr fun e he ↦ ?_
      rw [ih e he, Connective.decides_bne]
    have hone : Term.allHold (op.orient assignment) .or [[]] = true := rfl
    rw [terms, Connective.decides_bne]
    rcases Connective.eq_or_eq_dual op child with rfl | rfl
    · rw [Connective.decides_join]
      cases negated with
      | false => simp [allHold_gatheredTerms, hany]
      | true => simp [Connective.dual_ne, allHold_crossedTerms, hall, hone, List.not_any_eq_all_not]
    · rw [Connective.decides_join_dual]
      cases negated with
      | false => simp [Connective.dual_ne, allHold_crossedTerms, hall, hone]
      | true => simp [allHold_gatheredTerms, hany, List.not_all_eq_any_not]

/-- The terms of an expression have its value. -/
theorem allHold_terms (e : Expr) (negated : Bool) :
    Term.allHold assignment op (e.terms op negated) = (e.holds assignment != negated) :=
  Connective.decides_injective <| by rw [Term.decides_allHold, allHold_orient_terms]

/-! ### Their literals -/

theorem increasing_of_mem_gatheredTerms {es : List Expr} {negated : Bool}
    (hes : ∀ e ∈ es, ∀ t ∈ e.terms op negated, t.Increasing) :
    ∀ t ∈ gatheredTerms op es negated, t.Increasing := by
  induction es with
  | nil => simp [gatheredTerms]
  | cons e rest ih =>
    intro t ht
    rw [gatheredTerms] at ht
    rcases List.mem_append.mp ht with ht | ht
    · exact hes e List.mem_cons_self t ht
    · exact ih (fun e he ↦ hes e (List.mem_cons_of_mem _ he)) t ht

theorem increasing_of_mem_crossedTerms {es : List Expr} {negated : Bool} {acc : List Term}
    (hacc : ∀ t ∈ acc, t.Increasing) : ∀ t ∈ crossedTerms op es negated acc, t.Increasing := by
  induction es generalizing acc with
  | nil =>
    rw [crossedTerms]
    exact hacc
  | cons e rest ih =>
    rw [crossedTerms]
    exact ih fun _ ht ↦ Term.increasing_of_mem_cross hacc ht

/-- The literals of every term of an expression stand in increasing order of distinct symbols. -/
theorem increasing_of_mem_terms (e : Expr) :
    ∀ negated : Bool, ∀ t ∈ e.terms op negated, t.Increasing := by
  induction e using Expr.induct with
  | truth value =>
    intro negated
    unfold terms
    split_ifs <;> simp [Term.Increasing]
  | symbol name =>
    intro negated
    simp [terms, Term.Increasing]
  | not mode operand ih =>
    intro negated
    unfold terms
    exact ih _
  | join mode child operands ih =>
    intro negated
    unfold terms
    by_cases hchild : (if negated then child.dual else child) = op
    · rw [if_pos hchild]
      exact increasing_of_mem_gatheredTerms fun e he ↦ ih e he negated
    · rw [if_neg hchild]
      exact increasing_of_mem_crossedTerms fun t ht ↦ by
        rw [List.mem_singleton.mp ht]
        exact List.Pairwise.nil

end Expr

end SwitchingAlgebra
