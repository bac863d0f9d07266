import Mathlib
import SwitchingAlgebra.Transform.Flattening
import SwitchingAlgebra.Proofs.NestedCalls
import SwitchingAlgebra.Proofs.Rebuilding

/-!
# Sequences of transformations

Distribution and the pushing of negations are defined with a depth at which they are cut off, and
the evaluation of joins with a number of rounds. Here every transformation has a variant with a
bound, which has no value where more nested calls or more rounds than the bound are needed. So a
transformation ends where its bounded variant has a value from some bound on, and it ends with that
value.

Of the nodes that are built, no join needs more than two rounds, and the calls are nested no deeper
than the depths at which the transformations are cut off. So the cut is never reached. In a sequence
of transformations what makes the calls end is kept from step to step, and so are the value and the
symbols that are mentioned.

Main statement: through the standard, the prefixed, the lazy and the eager policy every sequence of
transformations of an expression that is built by the standard policy ends, with expressions of its
value that have no further symbols (`sequence_ends_and_keeps_value`).
-/

set_option autoImplicit false
set_option relaxedAutoImplicit false

namespace SwitchingAlgebra

/-- The transformations of the structure of an expression. -/
inductive Transformation where
  /-- Runs of negations collapse. -/
  | cancel
  /-- De Morgan's law is applied to a negated join. -/
  | deMorgan
  /-- Joins directly below joins of the same connective are spliced in. -/
  | flatten
  /-- The outermost connective is distributed over the dual one. -/
  | distribute
  /-- Negations are pushed down to constants and symbols. -/
  | literalize
  deriving DecidableEq, Repr

namespace Policy

/-- A transformation of an expression through a policy. -/
def transform (p : Policy) : Transformation → Expr → Expr
  | .cancel => p.cancel
  | .deMorgan => p.deMorgan
  | .flatten => p.flatten
  | .distribute => p.distribute
  | .literalize => p.literalize

/-- An expression and what becomes of it by one transformation after the other. -/
def sequence (p : Policy) : List Transformation → Expr → List Expr
  | [], e => [e]
  | step :: rest, e => e :: sequence p rest (p.transform step e)

/-! ### Transformations with a bound -/

/-- A negation, if its operand is evaluated in at most so many rounds. -/
def negationUpTo (p : Policy) (rounds : Nat) (mode : Mode) (operand : Expr) : Option Expr :=
  match p.negationMode mode with
  | .evaluated => do some (p.complement (← p.evalWithin rounds operand))
  | .raw => some (.not .raw operand)

/-- A join, if it is evaluated in at most so many rounds. -/
def joinUpTo (p : Policy) (rounds : Nat) (mode : Mode) (op : Connective) (operands : List Expr) :
    Option Expr :=
  match p.joinMode mode with
  | .evaluated => p.joinWithin rounds (p.connective op) operands
  | .raw => some (.join .raw (p.connective op) operands)

/-- The collapsed run of negations. -/
def cancelUpTo (p : Policy) (rounds : Nat) (e : Expr) : Option Expr :=
  if e.negations ≤ 1 then some e
  else if e.negations % 2 = 0 then some e.core
  else p.negationUpTo rounds .raw e.core

/-- De Morgan's law. -/
def deMorganUpTo (p : Policy) (rounds : Nat) : Expr → Option Expr
  | .not _ (.join _ op operands) => do
    p.joinUpTo rounds .evaluated op.dual (← operands.mapM (p.negationUpTo rounds .evaluated))
  | e => some e

mutual

/-- The flattened expression. -/
def flattenUpTo (p : Policy) (rounds : Nat) : Expr → Option Expr
  | .truth value => some (.truth value)
  | .symbol s => some (.symbol s)
  | .not _ operand => do p.negationUpTo rounds .raw (← flattenUpTo p rounds operand)
  | .join _ op operands => do p.joinUpTo rounds .raw op (← flattenAllUpTo p rounds op operands)

/-- The flattened operands of a join. -/
def flattenAllUpTo (p : Policy) (rounds : Nat) (op : Connective) : List Expr → Option (List Expr)
  | [] => some []
  | e :: rest => do
    some ((← flattenUpTo p rounds e).splice op ++ (← flattenAllUpTo p rounds op rest))

end

/-- The distributed expression, if at most so many calls are nested. -/
def distributeUpTo (p : Policy) (rounds : Nat) : Nat → Expr → Option Expr
  | 0, _ => none
  | depth + 1, .join mode op operands =>
    if operands.any fun e => e.connective? == some op.dual then do
      p.joinUpTo rounds .evaluated op.dual
        (← (choices (operands.map (Expr.alternatives op.dual))).mapM fun choice => do
          p.distributeUpTo rounds depth (← p.joinUpTo rounds .evaluated op choice))
    else some (.join mode op operands)
  | _ + 1, e => some e

/-- The expression with its negations pushed down, or nothing within it if they are there already,
if at most so many calls are nested. -/
def literalizeUpTo (p : Policy) (rounds : Nat) : Nat → Expr → Option (Option Expr)
  | 0, _ => none
  | _ + 1, .truth _ => some none
  | _ + 1, .symbol _ => some none
  | depth + 1, .not mode operand => do
    match ← p.cancelUpTo rounds (.not mode operand) with
    | .not mode' (.join mode'' op operands) =>
      let moved ← p.deMorganUpTo rounds (.not mode' (.join mode'' op operands))
      some (some ((← p.literalizeUpTo rounds depth moved).getD moved))
    | .not mode' inner => some (if operand.negations = 0 then none else some (.not mode' inner))
    | core => some (some ((← p.literalizeUpTo rounds depth core).getD core))
  | depth + 1, .join mode op operands => do
    let changes ← operands.mapM (p.literalizeUpTo rounds depth)
    if changes.all Option.isNone then some none
    else some (some (← p.joinUpTo rounds mode op
      (changes.zipWith (fun change e => change.getD e) operands)))

/-- A transformation of an expression, with one bound for rounds and for nested calls. -/
def transformUpTo (p : Policy) (bound : Nat) : Transformation → Expr → Option Expr
  | .cancel, e => p.cancelUpTo bound e
  | .deMorgan, e => p.deMorganUpTo bound e
  | .flatten, e => p.flattenUpTo bound e
  | .distribute, e => p.distributeUpTo bound bound e
  | .literalize, e => do some ((← p.literalizeUpTo bound bound e).getD e)

/-- An expression and what becomes of it by one transformation after the other, if all of these keep
to the bound. -/
def sequenceUpTo (p : Policy) (bound : Nat) : List Transformation → Expr → Option (List Expr)
  | [], e => some [e]
  | step :: rest, e => do
    some (e :: (← sequenceUpTo p bound rest (← p.transformUpTo bound step e)))

open SwitchingAlgebra.Expr

variable {p : Policy} {op : Connective} {mode : Mode} {rounds depth more : Nat} {C : Expr → Prop}
  {e : Expr} {es : List Expr}

/-! ### Nodes -/

/-- A policy that builds the constants and connectives it is asked for, raw negations where it is
asked for these, and evaluated joins only if evaluated negations as well. -/
structure Regular (p : Policy) : Prop extends Faithful p where
  raw : p.negationMode .raw = .raw
  evaluated : p.joinMode .evaluated = .evaluated → p.negationMode .evaluated = .evaluated

namespace Regular

theorem negationUpTo_eq (hp : p.Regular) (hrounds : 2 ≤ rounds) (mode : Mode) (e : Expr) :
    p.negationUpTo rounds mode e = some (p.negation mode e) := by
  obtain ⟨rounds, rfl⟩ := Nat.exists_eq_add_of_le' hrounds
  rw [negationUpTo, negation, evalWithin_eq_eval hp.evaluated]
  cases p.negationMode mode <;> rfl

theorem joinUpTo_eq (hp : p.Regular) (hrounds : 2 ≤ rounds) (mode : Mode) (op : Connective)
    (es : List Expr) : p.joinUpTo rounds mode op es = some (p.join mode op es) := by
  obtain ⟨rounds, rfl⟩ := Nat.exists_eq_add_of_le' hrounds
  have heval : ∀ e ∈ es, p.evalWith (p.joinWithin (rounds + 1)) e = some (p.eval e) :=
    fun e _ ↦ evalWithin_eq_eval hp.evaluated rounds e
  rw [joinUpTo, join, joinWithin, evalAllWith_eq heval, Option.bind_eq_bind, Option.bind_some,
    combineWith_eq (minimizeWith_joinWithin hp.evaluated rounds _)]
  cases p.joinMode mode <;> rfl

theorem cancelUpTo_eq (hp : p.Regular) (hrounds : 2 ≤ rounds) (e : Expr) :
    p.cancelUpTo rounds e = some (p.cancel e) := by
  rw [cancelUpTo, cancel, hp.negationUpTo_eq hrounds]
  split_ifs <;> rfl

theorem deMorganUpTo_eq (hp : p.Regular) (hrounds : 2 ≤ rounds) (e : Expr) :
    p.deMorganUpTo rounds e = some (p.deMorgan e) := by
  match e with
  | .not _ (.join _ op operands) =>
    rw [deMorganUpTo, deMorgan, mapM_eq_some_map fun e _ ↦ hp.negationUpTo_eq hrounds _ e,
      Option.bind_eq_bind, Option.bind_some, hp.joinUpTo_eq hrounds]
  | .not _ (.truth _) | .not _ (.symbol _) | .not _ (.not _ _) => rfl
  | .truth _ | .symbol _ | .join _ _ _ => rfl

theorem flattenUpTo_eq (hp : p.Regular) (hrounds : 2 ≤ rounds) (e : Expr) :
    p.flattenUpTo rounds e = some (p.flatten e) := by
  induction e using Expr.induct with
  | truth value => rw [flattenUpTo, flatten]
  | symbol name => rw [flattenUpTo, flatten]
  | not mode operand ih =>
    rw [flattenUpTo, flatten, ih, Option.bind_eq_bind, Option.bind_some,
      hp.negationUpTo_eq hrounds]
  | join mode op operands ih =>
    have hall : p.flattenAllUpTo rounds op operands = some (p.flattenAll op operands) := by
      induction operands with
      | nil => rw [flattenAllUpTo, flattenAll]
      | cons e rest ihrest =>
        rw [flattenAllUpTo, flattenAll, ih e List.mem_cons_self,
          ihrest fun d hd ↦ ih d (List.mem_cons_of_mem _ hd)]
        rfl
    rw [flattenUpTo, flatten, hall, Option.bind_eq_bind, Option.bind_some, hp.joinUpTo_eq hrounds]

/-! ### Nested calls -/

/-- Where the calls of distribution are nested no deeper than some depth, it ends with what it comes
to when it is cut off at that depth. -/
theorem distributeUpTo_eq (hp : p.Regular) (hrounds : 2 ≤ rounds)
    (hends : EndsWithin p.DistributesInto depth e) (hmore : depth ≤ more) :
    p.distributeUpTo rounds more e = some (p.distributeWithin depth e) := by
  induction depth generalizing more e with
  | zero => exact hends.elim
  | succ depth ih =>
    obtain ⟨more, rfl⟩ := Nat.exists_eq_add_of_le' (Nat.le_of_add_left_le hmore)
    have hle : depth ≤ more := Nat.le_of_succ_le_succ hmore
    match e with
    | .truth _ | .symbol _ | .not _ _ => rfl
    | .join mode op operands =>
      rw [distributeUpTo, distributeWithin]
      split_ifs with hany
      · have hdual : ∃ e ∈ operands, e.connective? = some op.dual := by simpa using hany
        rw [mapM_eq_some_map fun choice hchoice ↦ ?_, Option.bind_eq_bind, Option.bind_some,
          hp.joinUpTo_eq hrounds]
        rw [hp.joinUpTo_eq hrounds, Option.bind_eq_bind, Option.bind_some]
        exact ih (hends _ (.choice hdual hchoice)) hle
      · rfl

/-- Where the calls for what a negation stands in front of end, the call for the negation does. -/
theorem literalizeUpTo_not (hp : p.Regular) (hrounds : 2 ≤ rounds) {operand : Expr}
    (hcalls : ∀ d, p.PushesInto (.not mode operand) d →
      p.literalizeUpTo rounds more d = some (p.literalizeWithin depth d)) :
    p.literalizeUpTo rounds (more + 1) (.not mode operand) =
      some (p.literalizeWithin (depth + 1) (.not mode operand)) := by
  have hnot := negations_core operand
  rw [literalizeUpTo, literalizeWithin_not, hp.cancelUpTo_eq hrounds, Option.bind_eq_bind,
    Option.bind_some]
  rcases Nat.mod_two_eq_zero_or_one (operand.negations + 1) with heven | hodd
  · have hcall := hcalls _ (.core heven)
    rw [cancel_even heven]
    generalize operand.core = core at hcall hnot
    cases core with
    | not => cases hnot
    | truth | symbol | join =>
      simp only [hcall, Option.bind_eq_bind, Option.bind_some]
  · obtain ⟨mode', hcancel⟩ := exists_cancel_odd mode hp.raw hodd
    rw [hcancel]
    cases hcore : operand.core with
    | not => cases hcore ▸ hnot
    | truth | symbol => rfl
    | join mode'' op es =>
      have hcall := hcalls _ (.moved hodd hcore)
      simp only [hp.deMorganUpTo_eq hrounds, Option.bind_eq_bind, Option.bind_some]
      rw [deMorgan, hcall]
      rfl

/-- So does the call for a join where those for its operands do. -/
theorem literalizeUpTo_join (hp : p.Regular) (hrounds : 2 ≤ rounds)
    (hcalls : ∀ d, p.PushesInto (.join mode op es) d →
      p.literalizeUpTo rounds more d = some (p.literalizeWithin depth d)) :
    p.literalizeUpTo rounds (more + 1) (.join mode op es) =
      some (p.literalizeWithin (depth + 1) (.join mode op es)) := by
  rw [literalizeUpTo, literalizeWithin_join, mapM_eq_some_map fun e he ↦ hcalls e (.operand he),
    Option.bind_eq_bind, Option.bind_some]
  split_ifs
  · rfl
  · rw [hp.joinUpTo_eq hrounds, List.zipWith_map_left, List.zipWith_self]
    rfl

/-- The pushing of negations ends with what it comes to when it is cut off at such a depth. -/
theorem literalizeUpTo_eq (hp : p.Regular) (hrounds : 2 ≤ rounds)
    (hends : EndsWithin p.PushesInto depth e) (hmore : depth ≤ more) :
    p.literalizeUpTo rounds more e = some (p.literalizeWithin depth e) := by
  induction depth generalizing more e with
  | zero => exact hends.elim
  | succ depth ih =>
    obtain ⟨more, rfl⟩ := Nat.exists_eq_add_of_le' (Nat.le_of_add_left_le hmore)
    have hcalls : ∀ d, p.PushesInto e d →
        p.literalizeUpTo rounds more d = some (p.literalizeWithin depth d) := fun d hcall ↦
      ih (hends d hcall) (Nat.le_of_succ_le_succ hmore)
    cases e with
    | truth | symbol => rfl
    | not mode operand => exact hp.literalizeUpTo_not hrounds hcalls
    | join mode op es => exact hp.literalizeUpTo_join hrounds hcalls

end Regular

/-! ### Steps -/

theorem Keeps.transform (hC : p.Keeps C) (step : Transformation) (he : C e) :
    C (p.transform step e) := by
  cases step with
  | cancel => exact hC.cancel he
  | deMorgan => exact hC.deMorgan he
  | flatten => exact hC.flatten e he
  | distribute => exact hC.distributeWithin _ he
  | literalize => exact hC.literalizeWithin _ he

theorem holds_transform (hp : p.Faithful) (step : Transformation) (e : Expr)
    (assignment : Symbol → Bool) : (p.transform step e).holds assignment = e.holds assignment := by
  cases step with
  | cancel => exact holds_cancel hp e
  | deMorgan => exact holds_deMorgan hp e
  | flatten => exact holds_flatten hp e
  | distribute => exact holds_distributeWithin hp _ e
  | literalize => exact holds_literalizeWithin hp _ e

/-- One transformation ends within a bound that grows with the size. -/
theorem Descends.transformUpTo_eq (hC : p.Descends C) (hp : p.Regular) (he : C e)
    (step : Transformation) {bound : Nat} (hbound : 2 * e.size + 8 ≤ bound) :
    p.transformUpTo bound step e = some (p.transform step e) := by
  have hrounds : 2 ≤ bound := by omega
  cases step with
  | cancel => exact hp.cancelUpTo_eq hrounds e
  | deMorgan => exact hp.deMorganUpTo_eq hrounds e
  | flatten => exact hp.flattenUpTo_eq hrounds e
  | distribute =>
    refine hp.distributeUpTo_eq hrounds (hC.distribution he) ?_
    rw [distributionDepth]
    omega
  | literalize =>
    rw [transformUpTo, hp.literalizeUpTo_eq hrounds (hC.pushing he) hbound]
    rfl

/-! ### Sequences -/

theorem Keeps.sequence (hC : p.Keeps C) (steps : List Transformation) (he : C e) :
    ∀ d ∈ p.sequence steps e, C d := by
  induction steps generalizing e with
  | nil => exact List.forall_mem_singleton.mpr he
  | cons step rest ih => exact List.forall_mem_cons.mpr ⟨he, ih (hC.transform step he)⟩

theorem holds_sequence (hp : p.Faithful) (steps : List Transformation) (e : Expr)
    (assignment : Symbol → Bool) :
    ∀ d ∈ p.sequence steps e, d.holds assignment = e.holds assignment := by
  induction steps generalizing e with
  | nil => exact List.forall_mem_singleton.mpr rfl
  | cons step rest ih =>
    refine List.forall_mem_cons.mpr ⟨rfl, fun d hd ↦ ?_⟩
    rw [ih (p.transform step e) d hd, holds_transform hp]

/-- From some bound on all transformations of a sequence end. -/
theorem Descends.sequence_ends (hC : p.Descends C) (hp : p.Regular) (steps : List Transformation)
    (he : C e) :
    ∃ bound, ∀ more ≥ bound, p.sequenceUpTo more steps e = some (p.sequence steps e) := by
  induction steps generalizing e with
  | nil => exact ⟨0, fun _ _ ↦ rfl⟩
  | cons step rest ih =>
    obtain ⟨bound, hrest⟩ := ih (hC.transform step he)
    refine ⟨max (2 * e.size + 8) bound, fun more hmore ↦ ?_⟩
    rw [sequenceUpTo, hC.transformUpTo_eq hp he step (le_of_max_le_left hmore),
      Option.bind_eq_bind, Option.bind_some, hrest more (le_of_max_le_right hmore)]
    rfl

theorem regular_of_mem (hp : p ∈ [standard, prefixed, lazy, eager]) : p.Regular := by
  simp only [List.mem_cons, List.not_mem_nil, or_false] at hp
  rcases hp with rfl | rfl | rfl | rfl
  · exact ⟨evaluating_standard.toFaithful, rfl, fun _ ↦ rfl⟩
  · exact ⟨evaluating_prefixed.toFaithful, rfl, fun _ ↦ rfl⟩
  · exact ⟨⟨fun _ ↦ rfl, fun _ ↦ rfl⟩, rfl, nofun⟩
  · exact ⟨evaluating_eager.toFaithful, rfl, fun _ ↦ rfl⟩

theorem exists_descends_of_mem (hp : p ∈ [standard, prefixed, lazy, eager]) :
    ∃ C, p.Descends C ∧ ∀ e : Expr, e.Built → C e := by
  simp only [List.mem_cons, List.not_mem_nil, or_false] at hp
  rcases hp with rfl | rfl | rfl | rfl
  · exact ⟨_, evaluating_standard.descends, fun _ ↦ Built.settled⟩
  · exact ⟨_, evaluating_prefixed.descends, fun _ ↦ Built.settled⟩
  · exact ⟨_, descends_lazy, fun _ _ ↦ trivial⟩
  · exact ⟨_, evaluating_eager.descends, fun _ ↦ Built.settled⟩

/-- Through the standard, the prefixed, the lazy and the eager policy every sequence of
transformations of an expression that is built by the standard policy ends. All expressions of the
sequence have the value of the first one under every assignment, and they mention no symbol that it
does not mention. -/
theorem sequence_ends_and_keeps_value (hp : p ∈ [standard, prefixed, lazy, eager]) (he : e.Built)
    (steps : List Transformation) :
    (∃ bound, ∀ more ≥ bound, p.sequenceUpTo more steps e = some (p.sequence steps e)) ∧
      ∀ d ∈ p.sequence steps e,
        (∀ assignment : Symbol → Bool, d.holds assignment = e.holds assignment) ∧
          d.symbolLeaves ⊆ e.symbolLeaves := by
  have hregular := regular_of_mem hp
  obtain ⟨C, hC, hbuilt⟩ := exists_descends_of_mem hp
  refine ⟨hC.sequence_ends hregular steps (hbuilt e he), fun d hd ↦
    ⟨fun assignment ↦ holds_sequence hregular.toFaithful steps e assignment d hd, ?_⟩⟩
  have hmentions : e.MentionsOnly (· ∈ e.symbolLeaves) := fun _ hs ↦ hs
  exact (p.keeps_mentionsOnly _).sequence steps hmentions d hd

/-- A negated product of a sum and a symbol. -/
def negatedProduct : Expr :=
  .not .raw (.join .raw .and
    [.join .raw .or [.symbol (.name "a"), .symbol (.name "b")], .symbol (.name "c")])

/-- The product with its negation pushed down by the lazy policy. -/
def pushedProduct : Expr :=
  .join .raw .or [
    .join .raw .and [.not .raw (.symbol (.name "a")), .not .raw (.symbol (.name "b"))],
    .not .raw (.symbol (.name "c"))]

/-- The pushed product with its connectives turned around. -/
def distributedProduct : Expr :=
  .join .raw .and [
    .join .raw .or [.not .raw (.symbol (.name "a")), .not .raw (.symbol (.name "c"))],
    .join .raw .or [.not .raw (.symbol (.name "b")), .not .raw (.symbol (.name "c"))]]

theorem built_negatedProduct : negatedProduct.Built := by
  have hsum : (Expr.join .raw .or [.symbol (.name "a"), .symbol (.name "b")]).Built :=
    .join .raw .or (by simp [Built.symbol])
  exact .negation .raw (.join .raw .and (by simp [hsum, Built.symbol]))

/-- Through the lazy policy the negation of the product is pushed down, and the result is
distributed. All three expressions have one value and the same symbols. -/
theorem sequence_negatedProduct : lazy ∈ [standard, prefixed, lazy, eager] ∧
    negatedProduct.Built ∧
      (∃ bound, ∀ more ≥ bound, lazy.sequenceUpTo more [.literalize, .distribute] negatedProduct =
        some [negatedProduct, pushedProduct, distributedProduct]) ∧
        ∀ d ∈ [negatedProduct, pushedProduct, distributedProduct],
          (∀ assignment : Symbol → Bool,
            d.holds assignment = negatedProduct.holds assignment) ∧
              d.symbolLeaves ⊆ negatedProduct.symbolLeaves := by
  have hmem : lazy ∈ [standard, prefixed, lazy, eager] := by simp
  have hsequence : lazy.sequence [.literalize, .distribute] negatedProduct =
      [negatedProduct, pushedProduct, distributedProduct] := by cbv
  have hspec := sequence_ends_and_keeps_value hmem built_negatedProduct [.literalize, .distribute]
  rw [hsequence] at hspec
  exact ⟨hmem, built_negatedProduct, hspec⟩

end Policy

end SwitchingAlgebra
