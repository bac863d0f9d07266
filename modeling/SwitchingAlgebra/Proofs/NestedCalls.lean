import Mathlib
import SwitchingAlgebra.Proofs.KeptByTransformations
import SwitchingAlgebra.Proofs.Sizes

/-!
# Nested calls of the transformations

Distribution goes on in every choice that it has joined. The pushing of negations goes on in the
operands of a join, in what a run of negations of even length stands in front of, and in the join
that De Morgan's law makes. Some of these are no parts of the expression but built by the policy, so
how deep the calls are nested depends on what it builds.

The lazy policy joins a choice as it stands, which is smaller than the join it is taken from, and De
Morgan's law leaves negations in front of smaller operands. A policy that evaluates makes a
two-level form of whatever is built, and there is little to do in such a form: its alternatives are
literals, which are joined to a single clause, and its negation is a two-level form again.

Main statements: the calls of both transformations are nested no deeper than the depths at which the
transformations are cut off, through the lazy policy for any expression (`descends_lazy`) and
through a policy that evaluates for settled ones (`Evaluating.descends`).
-/

set_option autoImplicit false
set_option relaxedAutoImplicit false

namespace SwitchingAlgebra

open Policy

/-! ### Depths of calls -/

/-- At most so many calls that begin with the one for the element are nested within one another. -/
def EndsWithin {α : Type} (calls : α → α → Prop) : Nat → α → Prop
  | 0, _ => False
  | depth + 1, x => ∀ y, calls x y → EndsWithin calls depth y

theorem EndsWithin.mono {α : Type} {calls : α → α → Prop} {depth more : Nat} {x : α}
    (hx : EndsWithin calls depth x) (hmore : depth ≤ more) : EndsWithin calls more x := by
  induction depth generalizing more x with
  | zero => exact hx.elim
  | succ depth ih =>
    obtain ⟨more, rfl⟩ := Nat.exists_eq_add_of_le' hmore
    exact fun y hy ↦ (ih (hx y hy) (Nat.le_add_left depth more))

namespace Policy

/-- Distribution of the first expression goes on in the second one. -/
inductive DistributesInto (p : Policy) : Expr → Expr → Prop
  | choice {mode : Mode} {op : Connective} {es choice : List Expr}
    (hdual : ∃ e ∈ es, e.connective? = some op.dual)
    (hchoice : choice ∈ choices (es.map (Expr.alternatives op.dual))) :
    DistributesInto p (.join mode op es) (p.join .evaluated op choice)

/-- The pushing of negations in the first expression goes on in the second one. -/
inductive PushesInto (p : Policy) : Expr → Expr → Prop
  | operand {mode : Mode} {op : Connective} {es : List Expr} {e : Expr} (he : e ∈ es) :
    PushesInto p (.join mode op es) e
  | core {mode : Mode} {operand : Expr} (heven : (operand.negations + 1) % 2 = 0) :
    PushesInto p (.not mode operand) operand.core
  | moved {mode mode' : Mode} {op : Connective} {operand : Expr} {es : List Expr}
    (hodd : (operand.negations + 1) % 2 = 1) (hcore : operand.core = .join mode' op es) :
    PushesInto p (.not mode operand)
      (p.join .evaluated op.dual (es.map (p.negation .evaluated)))

/-- Expressions with a property that the transformations keep, in which no calls are nested deeper
than the depths at which these are cut off. -/
structure Descends (p : Policy) (C : Expr → Prop) : Prop extends Keeps p C where
  distribution : ∀ {e : Expr}, C e → EndsWithin p.DistributesInto (distributionDepth e) e
  pushing : ∀ {e : Expr}, C e → EndsWithin p.PushesInto (literalizeDepth e) e

end Policy

variable {p : Policy} {op : Connective} {mode : Mode} {d e : Expr} {es : List Expr}

namespace Expr

/-! ### The lazy policy -/

theorem size_alternatives_le (hd : d ∈ e.alternatives op) : d.size ≤ e.size := by
  rw [alternatives_eq_splice] at hd
  rcases mem_operands_of_mem_splice hd with rfl | hd
  · exact le_rfl
  · exact (size_lt_of_mem_operands hd).le

theorem size_alternatives_lt (hop : e.connective? = some op) (hd : d ∈ e.alternatives op) :
    d.size < e.size := by
  cases e with
  | join mode child operands =>
    cases hop
    rw [alternatives, if_pos rfl] at hd
    exact size_lt_of_mem_operands hd
  | _ => cases hop

/-- A choice is smaller than the operands, if some of them are joins. -/
theorem sum_size_choice_lt {choice : List Expr} (hop : ∃ e ∈ es, e.connective? = some op)
    (hchoice : choice ∈ choices (es.map (alternatives op))) :
    (choice.map size).sum < (es.map size).sum := by
  rw [mem_choices_iff, List.forall₂_map_right_iff] at hchoice
  obtain ⟨e, he, hop⟩ := hop
  induction hchoice with
  | nil => cases he
  | @cons d f choice rest hd hrest ih =>
    rw [List.map_cons, List.sum_cons, List.map_cons, List.sum_cons]
    rcases List.mem_cons.mp he with rfl | he
    · refine Nat.add_lt_add_of_lt_of_le (size_alternatives_lt hop hd) ?_
      refine List.Forall₂.sum_le_sum ?_
      rw [List.forall₂_map_left_iff, List.forall₂_map_right_iff]
      exact hrest.imp fun _ _ ↦ size_alternatives_le
    · exact Nat.add_lt_add_of_le_of_lt (size_alternatives_le hd) (ih he)

theorem endsWithin_distribution_lazy (bound : Nat) :
    ∀ e : Expr, e.size ≤ bound → EndsWithin Policy.lazy.DistributesInto bound e := by
  induction bound with
  | zero => exact fun e he ↦ absurd he (Nat.not_le.mpr e.size_pos)
  | succ bound ih =>
    rintro _ hsize _ ⟨hdual, hchoice⟩
    have hlt := sum_size_choice_lt hdual hchoice
    rw [size_join] at hsize
    refine ih _ (show (Expr.join .raw _ _).size ≤ bound from ?_)
    rw [size_join]
    omega

theorem endsWithin_pushing_lazy (bound : Nat) :
    ∀ e : Expr, e.size ≤ bound → EndsWithin Policy.lazy.PushesInto (2 * bound) e := by
  induction bound with
  | zero => exact fun e he ↦ absurd he (Nat.not_le.mpr e.size_pos)
  | succ bound ih =>
    have hle : 2 * bound ≤ 2 * bound + 1 := Nat.le_succ _
    intro e hsize d hcall
    cases hcall with
    | @operand mode op es _ hd =>
      have hlt := size_lt_of_mem_operands (e := .join mode op es) hd
      exact (ih d (by omega)).mono hle
    | @core _ operand =>
      rw [size_not] at hsize
      have hcore := size_core_le operand
      exact (ih operand.core (by omega)).mono hle
    | @moved _ _ op operand es _ hcore =>
      -- The next calls are made on the negated operands.
      rintro _ (@⟨_, _, _, f, hf⟩)
      obtain ⟨operand', hoperand', rfl⟩ := List.mem_map.mp hf
      have hlt : operand'.size < operand.core.size :=
        size_lt_of_mem_operands (by rwa [hcore])
      have hle := size_core_le operand
      rw [size_not] at hsize
      refine ih _ (show (Expr.not .raw operand').size ≤ bound from ?_)
      rw [size_not]
      omega

end Expr

theorem Policy.descends_lazy : Policy.lazy.Descends fun _ ↦ True where
  operand _ _ := trivial
  negation _ _ _ := trivial
  join _ _ _ _ := trivial
  distribution {e} _ := (Expr.endsWithin_distribution_lazy e.size e le_rfl).mono (by
    rw [distributionDepth]
    omega)
  pushing {e} _ := (Expr.endsWithin_pushing_lazy e.size e le_rfl).mono (by
    rw [literalizeDepth]
    omega)

namespace Expr

/-! ### Joins of literals -/

/-- A symbol or its negation, as evaluation leaves it. -/
def IsEvaluatedLiteral (e : Expr) : Prop :=
  ∃ s positive, e = standard.literal s positive

theorem IsEvaluatedLiteral.evaluated (he : e.IsEvaluatedLiteral) : e.Evaluated := by
  obtain ⟨s, positive, rfl⟩ := he
  have hclause : IsClause .or (standard.literal s positive) := .literal s positive
  exact hclause.evaluated

theorem IsEvaluatedLiteral.connective?_eq_none (he : e.IsEvaluatedLiteral) :
    e.connective? = none := by
  obtain ⟨s, positive, rfl⟩ := he
  cases positive <;> rfl

/-- Opposite literals make up the annihilator. -/
theorem combine_of_opposite (hes : ∀ e ∈ es, e.Evaluated) {s : Symbol}
    (hpositive : standard.literal s true ∈ es) (hnegative : standard.literal s false ∈ es) :
    standard.combine op es = .truth op.annihilator := by
  refine (evaluated_combine hes).eq_truth fun assignment ↦ ?_
  apply @Connective.decides_injective op
  rw [holds_combine faithful_standard .raw, Connective.decides_join,
    Connective.decides_annihilator, List.any_eq_true]
  -- Under every assignment one of the two literals decides the connective.
  cases hvalue : op.decides (assignment s) with
  | true => exact ⟨_, hpositive, by simpa [literal] using hvalue⟩
  | false =>
    refine ⟨_, hnegative, ?_⟩
    rw [literal, if_neg Bool.false_ne_true, holds_not, holds_symbol, ← Bool.bne_true,
      Connective.decides_bne, hvalue]
    rfl

/-- Literals of which no two are opposite are those of a term. -/
theorem exists_term_of_literals (hes : ∀ e ∈ es, e.IsEvaluatedLiteral)
    (hopposite : ∀ s, ¬ (standard.literal s true ∈ es ∧ standard.literal s false ∈ es)) :
    ∃ t : Term, t.Increasing ∧ ∀ e, e ∈ es ↔ e ∈ standard.literalsOf t := by
  classical
  let positive (s : Symbol) : Bool := decide (standard.literal s true ∈ es)
  have hpositive : ∀ {s : Symbol} {polarity : Bool}, standard.literal s polarity ∈ es →
      positive s = polarity := by
    intro s polarity hmem
    cases polarity with
    | true => exact decide_eq_true hmem
    | false => exact decide_eq_false fun htrue ↦ hopposite s ⟨htrue, hmem⟩
  have hsymbols : ∀ s polarity, (standard.literal s polarity).symbolLeaves = [s] := by
    intro s polarity
    cases polarity <;> simp [literal, symbolLeaves]
  let symbols := sortDistinct compare (es.flatMap symbolLeaves)
  have hincreasing : symbols.Pairwise fun s s' ↦ compare s s' = .lt := pairwise_sortDistinct _
  refine ⟨symbols.map fun s ↦ ⟨s, positive s⟩, List.pairwise_map.mpr hincreasing, fun e ↦ ?_⟩
  rw [literalsOf, List.map_map, List.mem_map]
  simp only [symbols, mem_sortDistinct, List.mem_flatMap, Function.comp_apply]
  constructor
  · intro he
    obtain ⟨s, polarity, rfl⟩ := hes e he
    exact ⟨s, ⟨_, he, by simp [hsymbols]⟩, by rw [hpositive he]⟩
  · rintro ⟨s, ⟨d, hd, hs⟩, rfl⟩
    obtain ⟨s', polarity, rfl⟩ := hes d hd
    rw [hsymbols, List.mem_singleton] at hs
    subst hs
    rwa [hpositive hd]

/-- Literals are joined to a constant or to a clause of the dual connective. -/
theorem combine_literals_cases (hes : ∀ e ∈ es, e.IsEvaluatedLiteral) :
    (∃ value, standard.combine op es = .truth value) ∨
      IsClause op.dual (standard.combine op es) := by
  have hevaluated : ∀ e ∈ es, e.Evaluated := fun e he ↦ (hes e he).evaluated
  by_cases hopposite : ∃ s, standard.literal s true ∈ es ∧ standard.literal s false ∈ es
  · obtain ⟨s, hpositive, hnegative⟩ := hopposite
    exact .inl ⟨_, combine_of_opposite hevaluated hpositive hnegative⟩
  · obtain ⟨t, ht, hmem⟩ := exists_term_of_literals hes (not_exists.mp hopposite)
    rw [combine_eq_of_mem_iff hevaluated hmem]
    match t with
    | [] => exact .inl ⟨_, combine_of_parts_eq_nil (parts_literalsOf ht)⟩
    | [l] =>
      have hliteral : (standard.literal l.symbol l.positive).IsEvaluatedLiteral := ⟨_, _, rfl⟩
      rw [literalsOf, List.map_singleton, combine_singleton hliteral.evaluated]
      exact .inr (.literal l.symbol l.positive)
    | l :: m :: rest =>
      have hlength : 2 ≤ (l :: m :: rest).length := Nat.le_add_left 2 rest.length
      have hjoin : IsClause op.dual (.join .evaluated op.dual.dual
        (standard.literalsOf (l :: m :: rest))) := .join ht hlength
      rw [combine_literals ht hlength]
      rw [op.dual_dual] at hjoin
      exact .inr hjoin

/-! ### Policies that evaluate -/

theorem evaluated_join (hp : p.Evaluating) (hes : ∀ e ∈ es, e.Settled) :
    (p.join .evaluated op es).Evaluated := by
  rw [hp.join_evaluated]
  exact evaluated_combine (List.forall_mem_map.mpr fun e he ↦ (hes e he).evaluated_eval)

/-- Through such a policy, literals are joined to a constant or a clause as well. -/
theorem join_literals_cases (hp : p.Evaluating) (hes : ∀ e ∈ es, e.IsEvaluatedLiteral) :
    (∃ value, p.join .evaluated op es = .truth value) ∨
      IsClause op.dual (p.join .evaluated op es) := by
  rw [hp.join_evaluated, map_eval_eq fun e he ↦ (hes e he).evaluated]
  exact combine_literals_cases hes

/-! #### Distribution -/

theorem IsClause.isEvaluatedLiteral (he : IsClause op e) (hd : d ∈ e.alternatives op.dual) :
    d.IsEvaluatedLiteral := by
  cases he with
  | literal s positive =>
    refine ⟨s, positive, ?_⟩
    cases positive <;> exact List.mem_singleton.mp hd
  | join =>
    rw [alternatives, if_pos rfl] at hd
    obtain ⟨l, -, rfl⟩ := mem_literalsOf.mp hd
    exact ⟨l.symbol, l.positive, rfl⟩

/-- The operands of a join that is a clause are literals. -/
theorem IsClause.isEvaluatedLiteral_of_mem {child : Connective}
    (he : IsClause op (.join mode child es)) (hd : d ∈ es) : d.IsEvaluatedLiteral := by
  generalize hjoin : Expr.join mode child es = e at he
  cases he with
  | literal s positive => cases positive <;> cases hjoin
  | join =>
    cases hjoin
    obtain ⟨l, -, rfl⟩ := mem_literalsOf.mp hd
    exact ⟨l.symbol, l.positive, rfl⟩

/-- In a two-level form all choices are choices of literals. -/
theorem IsMinimum.isEvaluatedLiteral_of_mem_choice (hes : IsMinimum op es) {choice : List Expr}
    (hchoice : choice ∈ choices (es.map (alternatives op.dual))) (hd : d ∈ choice) :
    d.IsEvaluatedLiteral := by
  obtain ⟨_, halternatives, hd⟩ := exists_mem_of_mem_choices hchoice hd
  obtain ⟨clause, hclause, rfl⟩ := List.mem_map.mp halternatives
  exact (hes.spec.2.2 clause hclause).isEvaluatedLiteral hd

theorem endsWithin_distribution_truth (value : Bool) :
    EndsWithin p.DistributesInto 1 (.truth value) :=
  nofun

/-- Nothing is distributed in a clause. -/
theorem IsClause.endsWithin_distribution (he : IsClause op e) :
    EndsWithin p.DistributesInto 1 e := by
  rintro _ ⟨⟨d, hd, hop⟩, -⟩
  rw [(he.isEvaluatedLiteral_of_mem hd).connective?_eq_none] at hop
  cases hop

/-- The choices of a two-level form are joined to clauses. -/
theorem Evaluated.endsWithin_distribution (hp : p.Evaluating) (he : e.Evaluated) :
    EndsWithin p.DistributesInto 2 e := by
  intro d hcall
  cases hcall with | @choice _ _ es choice _ hchoice =>
  cases he with | join hes =>
  have hliterals : ∀ d ∈ choice, d.IsEvaluatedLiteral := fun d hd ↦
    hes.isEvaluatedLiteral_of_mem_choice hchoice hd
  rcases join_literals_cases hp hliterals with ⟨value, htruth⟩ | hclause
  · rw [htruth]
    exact endsWithin_distribution_truth value
  · exact hclause.endsWithin_distribution

theorem Settled.endsWithin_distribution (hp : p.Evaluating) (he : e.Settled) :
    EndsWithin p.DistributesInto 3 e := by
  rintro _ ⟨-, hchoice⟩
  exact (evaluated_join hp (hp.keeps_settled.of_mem_choices he hchoice)).endsWithin_distribution hp

/-! #### Pushing negations down -/

theorem endsWithin_pushing_truth (value : Bool) : EndsWithin p.PushesInto 1 (.truth value) :=
  nofun

theorem IsEvaluatedLiteral.endsWithin_pushing (he : e.IsEvaluatedLiteral) :
    EndsWithin p.PushesInto 1 e := by
  obtain ⟨s, positive, rfl⟩ := he
  intro d hcall
  cases positive with
  | true => cases hcall
  | false =>
    cases hcall with
    | core heven => cases heven
    | moved _ hcore => cases hcore

theorem IsClause.endsWithin_pushing (he : IsClause op e) : EndsWithin p.PushesInto 2 e := by
  cases he with
  | literal s positive =>
    have hliteral : (standard.literal s positive).IsEvaluatedLiteral := ⟨s, positive, rfl⟩
    exact hliteral.endsWithin_pushing.mono one_le_two
  | join =>
    intro d hcall
    cases hcall with | operand hd =>
    obtain ⟨l, -, rfl⟩ := mem_literalsOf.mp hd
    exact IsEvaluatedLiteral.endsWithin_pushing ⟨l.symbol, l.positive, rfl⟩

theorem endsWithin_pushing_minimize (op : Connective) (es : List Expr) :
    EndsWithin p.PushesInto 3 (standard.minimize op es) := by
  rcases minimize_cases op es with ⟨value, htruth⟩ | hclause | ⟨fs, hjoin, -, -, hfs⟩
  · rw [htruth]
    exact (endsWithin_pushing_truth value).mono (by decide)
  · exact hclause.endsWithin_pushing.mono (by decide)
  · rw [hjoin]
    intro d hcall
    cases hcall with | operand hd =>
    exact (hfs d hd).endsWithin_pushing

theorem IsEvaluatedLiteral.complement (he : e.IsEvaluatedLiteral) :
    (standard.complement e).IsEvaluatedLiteral := by
  obtain ⟨s, positive, rfl⟩ := he
  refine ⟨s, !positive, ?_⟩
  cases positive <;> rfl

/-- De Morgan's law turns a clause into literals of the dual connective. -/
theorem IsClause.endsWithin_pushing_complement (hp : p.Evaluating) (he : IsClause op e) :
    EndsWithin p.PushesInto 3 (standard.complement e) := by
  cases he with
  | literal s positive =>
    have hliteral : (standard.literal s positive).IsEvaluatedLiteral := ⟨s, positive, rfl⟩
    exact hliteral.complement.endsWithin_pushing.mono (by decide)
  | @join t ht hlength =>
    intro d hcall
    cases hcall with
    | core heven => cases heven
    | moved _ hcore =>
      cases hcore
      have hliterals : ∀ e ∈ (standard.literalsOf t).map (p.negation .evaluated),
          e.IsEvaluatedLiteral := by
        refine List.forall_mem_map.mpr fun e he ↦ ?_
        obtain ⟨l, -, rfl⟩ := mem_literalsOf.mp he
        have hliteral : (standard.literal l.symbol l.positive).IsEvaluatedLiteral := ⟨_, _, rfl⟩
        rw [hp.negation_evaluated, hliteral.evaluated.eval_eq]
        exact hliteral.complement
      rcases join_literals_cases hp hliterals with ⟨value, htruth⟩ | hclause
      · rw [htruth]
        exact (endsWithin_pushing_truth value).mono one_le_two
      · exact hclause.endsWithin_pushing

theorem combine_cases (op : Connective) (es : List Expr) :
    (∃ value, standard.combine op es = .truth value) ∨
      standard.combine op es ∈ standard.parts op es ∨
        ∃ fs, standard.combine op es = standard.minimize op fs := by
  rw [combine]
  split_ifs
  · exact .inl ⟨_, rfl⟩
  · split
    · exact .inl ⟨_, rfl⟩
    · next hparts => exact .inr (.inl (hparts ▸ List.mem_singleton_self _))
    · exact .inr (.inr ⟨_, rfl⟩)

theorem IsClause.splice_complement (he : IsClause op e) (child : Connective) :
    (standard.complement e).splice child = [standard.complement e] := by
  cases he with
  | literal s positive => cases positive <;> rfl
  | join => rfl

/-- De Morgan's law turns a two-level form into complements of its clauses, which are joined to a
two-level form unless a single one of them is left. -/
theorem endsWithin_pushing_complements (hp : p.Evaluating) (hes : ∀ e ∈ es, IsClause op e)
    (child : Connective) :
    EndsWithin p.PushesInto 3 (p.join .evaluated child (es.map (p.negation .evaluated))) := by
  have hmap : (es.map (p.negation .evaluated)).map eval = es.map standard.complement := by
    rw [List.map_map]
    refine List.map_congr_left fun e he ↦ ?_
    have hevaluated := (hes e he).evaluated
    rw [Function.comp_apply, hp.negation_evaluated, hevaluated.eval_eq,
      (evaluated_complement hevaluated).eval_eq]
  rw [hp.join_evaluated, hmap]
  rcases combine_cases child (es.map standard.complement) with
    ⟨value, htruth⟩ | hpart | ⟨fs, hminimum⟩
  · rw [htruth]
    exact (endsWithin_pushing_truth value).mono (by decide)
  · obtain ⟨d, hd, hspliced⟩ := exists_mem_splice_of_mem_parts hpart
    obtain ⟨clause, hclause, rfl⟩ := List.mem_map.mp hd
    rw [(hes clause hclause).splice_complement, List.mem_singleton] at hspliced
    rw [hspliced]
    exact (hes clause hclause).endsWithin_pushing_complement hp
  · rw [hminimum]
    exact endsWithin_pushing_minimize child fs

theorem Evaluated.endsWithin_pushing (hp : p.Evaluating) (he : e.Evaluated) :
    EndsWithin p.PushesInto 4 e := by
  cases he with
  | truth value => exact (endsWithin_pushing_truth value).mono (by decide)
  | symbol name =>
    have hliteral : (Expr.symbol name).IsEvaluatedLiteral := ⟨name, true, rfl⟩
    exact hliteral.endsWithin_pushing.mono (by decide)
  | @join op es hes =>
    rw [← hes]
    exact (endsWithin_pushing_minimize op es).mono (by decide)
  | notSymbol name =>
    have hliteral : (Expr.not .evaluated (.symbol name)).IsEvaluatedLiteral := ⟨name, false, rfl⟩
    exact hliteral.endsWithin_pushing.mono (by decide)
  | notJoin hes =>
    intro d hcall
    cases hcall with
    | core heven => cases heven
    | moved _ hcore =>
      cases hcore
      exact endsWithin_pushing_complements hp hes.spec.2.2 _

theorem endsWithin_pushing_settled (hp : p.Evaluating) (bound : Nat) :
    ∀ e : Expr, e.Settled → e.size ≤ bound → EndsWithin p.PushesInto (bound + 4) e := by
  induction bound with
  | zero => exact fun e _ he ↦ absurd he (Nat.not_le.mpr e.size_pos)
  | succ bound ih =>
    intro e he hsize d hcall
    cases hcall with
    | @operand mode op es _ hd =>
      have hlt := size_lt_of_mem_operands (e := .join mode op es) hd
      exact ih d (he.of_mem_operands hd) (by omega)
    | @core _ operand =>
      have hle := size_core_le operand
      rw [size_not] at hsize
      have hoperand := he.of_mem_operands (List.mem_singleton_self operand)
      exact ih operand.core (hp.keeps_settled.core hoperand) (by omega)
    | @moved _ _ op operand es _ hcore =>
      have hjoin := hp.keeps_settled.core he
      rw [Expr.core, hcore] at hjoin
      have hmoved : (p.join .evaluated op.dual (es.map (p.negation .evaluated))).Evaluated :=
        evaluated_join hp (List.forall_mem_map.mpr fun d hd ↦
          hp.keeps_settled.negation .evaluated (hjoin.of_mem_operands hd))
      exact (hmoved.endsWithin_pushing hp).mono (Nat.le_add_left 4 bound)

end Expr

/-- Through a policy that evaluates, the transformations of settled expressions end. -/
theorem Policy.Evaluating.descends (hp : p.Evaluating) : p.Descends Expr.Settled where
  toKeeps := hp.keeps_settled
  distribution {e} he := (he.endsWithin_distribution hp).mono (by
    rw [distributionDepth]
    omega)
  pushing {e} he := (Expr.endsWithin_pushing_settled hp e.size e he le_rfl).mono (by
    rw [literalizeDepth]
    omega)

end SwitchingAlgebra
