import Mathlib
import SwitchingAlgebra.Proofs.Derivation
import SwitchingAlgebra.Reading.Descent

/-!
# Reading by rules and reading by one scan

Reading by the rules of the grammar and reading with a stack of open parentheses take the same
tokens in the same order. Where a rule begins, the calls that have not returned are the open
parentheses of the stack, and what they have read so far is what stands before the operand. So the
tokens that a rule takes may be passed over in the scan, as if what the rule gives were the operand,
and an error of the rule is the error of the scan.

Main statement: both ways of reading give the same expression or the same error
(`Builder.descend_eq_read`).
-/

set_option autoImplicit false
set_option relaxedAutoImplicit false

namespace SwitchingAlgebra.Reading

open Grammar

variable {α : Type} {b : Builder} {length : Nat} {place : Cursor} {stack : List Frame}
  {pending : Pending} {token : Token}

/-! ### Places -/

namespace Cursor

/-- The tokens after a place. -/
def tokens (place : Cursor) : List Token :=
  place.rest.map PlacedToken.token

/-- The token right before a place. -/
def latest? (place : Cursor) : Option Token :=
  place.past.head?.map PlacedToken.token

theorem depth_cons (p : PlacedToken) (past rest rest' : List PlacedToken) :
    depth ⟨p :: past, rest⟩ = weight p.token + depth ⟨past, rest'⟩ :=
  rfl

theorem pop?_eq_none (hpop : place.pop? = none) : place.rest = [] := by
  obtain ⟨past, _ | ⟨p, rest⟩⟩ := place
  · rfl
  · cases hpop

theorem pop?_eq_some {step : Step place PlacedToken} (hpop : place.pop? = some step) :
    place.rest = step.value :: step.next.rest ∧ step.next.latest? = some step.value.token ∧
      step.next.depth = weight step.value.token + place.depth := by
  obtain ⟨past, _ | ⟨p, rest⟩⟩ := place
  · cases hpop
  · obtain rfl := Option.some.inj hpop
    exact ⟨rfl, rfl, depth_cons p past rest (p :: rest)⟩

theorem take?_eq_none (htake : place.take? token = none) : place.tokens.head? ≠ some token := by
  obtain ⟨past, _ | ⟨p, rest⟩⟩ := place
  · exact fun h ↦ nomatch h
  · intro hhead
    have hp : p.token = token := Option.some.inj hhead
    simp [take?, pop?, hp] at htake

theorem take?_eq_some {step : Step place PlacedToken} (htake : place.take? token = some step) :
    place.rest = ⟨step.value.position, token⟩ :: step.next.rest ∧
      step.next.latest? = some token ∧ step.next.depth = weight token + place.depth := by
  obtain ⟨hpop, htoken⟩ := Option.filter_eq_some_iff.mp htake
  obtain rfl : step.value.token = token := by simpa using htoken
  exact pop?_eq_some hpop

end Cursor

/-! ### A rule in the course of a scan -/

/-- The tokens before a place leave the parentheses of the stack open. An opening parenthesis stands
right before the place exactly when the innermost of them has nothing after it. -/
structure Leads (place : Cursor) (stack : List Frame) (pending : Pending) : Prop where
  depth : place.depth = stack.length
  opened : place.latest? = some .leftParen ↔ stack.isEmpty = false ∧ pending.isNone = true

/-- A rule reads what the scan reads. Either both find the same error, or the scan goes on after
what the rule has read, with `finish` made of it. The rule leaves the parentheses as they were and
ends before a token that does not continue it. -/
inductive FollowsScan (b : Builder) (length : Nat) (stops : List Token) (pending : Pending)
    (finish : α → Pending × Expr) : Except Error (Step place α) → Prop
  | error {error : Error}
      (hscan : ∀ stack, Leads place stack pending →
        b.expectOperand length stack pending place.rest = .error error) :
      FollowsScan b length stops pending finish (.error error)
  | ok {step : Step place α}
      (hscan : ∀ stack, Leads place stack pending →
        b.expectOperand length stack pending place.rest =
          b.afterOperand length stack (finish step.value).1 (finish step.value).2 step.next.rest)
      (hdepth : step.next.depth = place.depth) (hends : StartsWithout stops step.next.tokens) :
      FollowsScan b length stops pending finish (.ok step)

/-- All rules that begin at a place read what the scan reads. -/
structure RulesFollow (b : Builder) (length : Nat) (place : Cursor) : Prop where
  factor : ∀ pending, FollowsScan b length Factor.continuations pending (fun e ↦ (pending, e))
    (Descent.factor b length place)
  factors : ∀ terms before, FollowsScan b length Product.continuations ⟨terms, before, 0⟩
    (fun es ↦ (⟨terms, [], 0⟩, b.chain .and (before.reverse ++ es)))
    (Descent.factors b length place)
  products : ∀ before, FollowsScan b length Sum.continuations ⟨before, [], 0⟩
    (fun es ↦ (.none, b.chain .or (before.reverse ++ es))) (Descent.products b length place)

theorem startsWithout_any (tokens : List Token) : StartsWithout [] tokens :=
  fun _ hstop ↦ absurd hstop List.not_mem_nil

/-- Negation signs after an operand are taken by the scan and by the rule alike. -/
theorem complements_spec (operand : Expr) (past rest : List PlacedToken) :
    b.afterOperand length stack pending operand rest =
        b.afterOperand length stack pending (Descent.complements b operand past rest).1
          (Descent.complements b operand past rest).2.rest ∧
      (Descent.complements b operand past rest).2.depth = Cursor.depth ⟨past, rest⟩ ∧
        StartsWithout Factor.continuations (Descent.complements b operand past rest).2.tokens := by
  induction rest generalizing operand past with
  | nil => exact ⟨rfl, rfl, startsWithout_nil _⟩
  | cons p rest ih =>
    rw [Descent.complements]
    split_ifs with hsign
    · obtain ⟨position, token⟩ := p
      obtain rfl : token = .notAfter := hsign
      obtain ⟨hscan, hdepth, hends⟩ := ih (b.negate operand) (⟨position, .notAfter⟩ :: past)
      rw [Builder.afterOperand, hdepth, Cursor.depth_cons _ past rest (_ :: rest)]
      exact ⟨hscan, Int.zero_add _, hends⟩
    · refine ⟨rfl, rfl, fun token htoken hhead ↦ hsign ?_⟩
      rw [Factor.continuations, List.mem_singleton] at htoken
      exact (Option.some.inj hhead).trans htoken

/-! ### One rule after another -/

/-- Right after a sign no parenthesis has just been opened, and something stands before the
operand. -/
theorem leads_of_sign {next : Cursor} (hdepth : next.depth = place.depth)
    (hplace : place.depth = stack.length) (hlatest : next.latest? = some token)
    (htoken : token ≠ .leftParen) (hpending : pending.isNone = false) :
    Leads next stack pending where
  depth := hdepth.trans hplace
  opened := by simp [hlatest, htoken, hpending]

/-- Rules that begin at every later place follow the scan. -/
def LaterRulesFollow (b : Builder) (length : Nat) (place : Cursor) : Prop :=
  ∀ later : Cursor, later.rest.length < place.rest.length → RulesFollow b length later

theorem factor_follows (hlater : LaterRulesFollow b length place)
    (hprimary : place.tokens.head? ≠ some .notBefore → ∀ pending,
      FollowsScan b length [] pending (fun e ↦ (pending, e)) (Descent.primary b length place))
    (pending : Pending) :
    FollowsScan b length Factor.continuations pending (fun e ↦ (pending, e))
      (Descent.factor b length place) := by
  rw [Descent.factor]
  cases htake : place.take? .notBefore with
  | some sign =>
    dsimp only
    obtain ⟨hrest, hlatest, hdepth⟩ := Cursor.take?_eq_some htake
    have hsame : sign.next.depth = place.depth := hdepth.trans (Int.zero_add _)
    have hoperand := (hlater sign.next sign.progress).factor
      { pending with negations := pending.negations + 1 }
    have hleads : ∀ stack, Leads place stack pending →
        Leads sign.next stack { pending with negations := pending.negations + 1 } :=
      fun stack hplace ↦ leads_of_sign hsame hplace.depth hlatest (by decide)
        (by simp [Pending.isNone])
    generalize Descent.factor b length sign.next = operand at hoperand
    cases hoperand with
    | error hscan =>
      refine .error fun stack hplace ↦ ?_
      rw [hrest, Builder.expectOperand]
      exact hscan stack (hleads stack hplace)
    | @ok operand hscan hdepth hends =>
      refine .ok (fun stack hplace ↦ ?_) (Eq.trans hdepth hsame) hends
      rw [hrest, Builder.expectOperand, hscan stack (hleads stack hplace)]
      exact Builder.afterOperand_congr_factor hends rfl rfl
        (Builder.negateTimes_negate pending.negations operand.value).symm
  | none =>
    dsimp only
    have hoperand := hprimary (Cursor.take?_eq_none htake) pending
    generalize Descent.primary b length place = operand at hoperand
    cases hoperand with
    | error hscan => exact .error hscan
    | @ok operand hscan hdepth _ =>
      obtain ⟨value, ⟨past, rest⟩, progress⟩ := operand
      have hsigns := fun stack : List Frame ↦
        @complements_spec b length stack pending value past rest
      exact .ok (fun stack hplace ↦ (hscan stack hplace).trans (hsigns stack).1)
        ((hsigns []).2.1.trans hdepth) (hsigns []).2.2

/-! ### Chains -/

/-- What stands before an operand of a chain of the connective, given the operands before it, and
what becomes of it after the operand: a sign of the connective adds to the operands, and where the
chain is not continued its join may stand as the operand. -/
structure IsLevel (b : Builder) (length : Nat) (op : Connective) (stops : List Token)
    (pendingOf : List Expr → Pending) : Prop where
  extend : ∀ before e, b.extend (pendingOf before) e op = pendingOf (e :: before)
  isNone : ∀ before e, (pendingOf (e :: before)).isNone = false
  close : ∀ {rest : List PlacedToken},
    StartsWithout (.connective op :: stops) (rest.map PlacedToken.token) → ∀ stack before e,
      b.afterOperand length stack (pendingOf before) e rest =
        b.afterOperand length stack (pendingOf []) (b.chain op (before.reverse ++ [e])) rest

theorem isLevel_and (terms : List Expr) :
    IsLevel b length .and Factor.continuations fun before ↦ ⟨terms, before, 0⟩ where
  extend _ _ := rfl
  isNone _ _ := by simp [Pending.isNone]
  close hrest _ before e := by
    refine Builder.afterOperand_congr_term hrest rfl ?_
    show b.chain .and (e :: before).reverse = b.chain .and (before.reverse ++ [e])
    rw [List.reverse_cons]

theorem isLevel_or : IsLevel b length .or Product.continuations fun before ↦ ⟨before, [], 0⟩ where
  extend _ _ := rfl
  isNone _ _ := by simp [Pending.isNone]
  close hrest _ before e := by
    refine Builder.afterOperand_congr_close hrest ?_
    show b.chain .or (e :: before).reverse = b.chain .or (before.reverse ++ [e])
    rw [List.reverse_cons]

/-- A chain follows the scan if its operands do. -/
theorem chained_follows {op : Connective} {stops : List Token} {pendingOf : List Expr → Pending}
    (hlevel : IsLevel b length op stops pendingOf) (f : α → Expr)
    {first : Except Error (Step place α)}
    {others : (later : Cursor) → later.rest.length < place.rest.length →
      Except Error (Step later (List Expr))} (before : List Expr)
    (hfirst : FollowsScan b length stops (pendingOf before) (fun v ↦ (pendingOf before, f v)) first)
    (hothers : ∀ later hlater before, FollowsScan b length (.connective op :: stops)
      (pendingOf before) (fun es ↦ (pendingOf [], b.chain op (before.reverse ++ es)))
      (others later hlater)) :
    FollowsScan b length (.connective op :: stops) (pendingOf before)
      (fun es ↦ (pendingOf [], b.chain op (before.reverse ++ es)))
      (first >>= fun first ↦ Descent.chained op (first.map f) others) := by
  cases hfirst with
  | error hscan => exact .error hscan
  | @ok first hscan hdepth hends =>
    show FollowsScan b length _ _ _ (Descent.chained op (first.map f) others)
    rw [Descent.chained]
    cases htake : (first.map f).next.take? (.connective op) with
    | none =>
      have hstops : StartsWithout (.connective op :: stops) first.next.tokens :=
        List.forall_mem_cons.mpr ⟨Cursor.take?_eq_none htake, hends⟩
      refine .ok (fun stack hplace ↦ ?_) hdepth hstops
      exact (hscan stack hplace).trans (hlevel.close hstops stack before (f first.value))
    | some sign =>
      dsimp only
      obtain ⟨hrest, hlatest, hsign⟩ := Cursor.take?_eq_some htake
      have hrest' : first.next.rest = ⟨sign.value.position, .connective op⟩ :: sign.next.rest :=
        hrest
      have hsame : sign.next.depth = place.depth := (hsign.trans (Int.zero_add _)).trans hdepth
      have hread := hothers sign.next (sign.progress.trans first.progress)
        (f first.value :: before)
      have hstep : ∀ stack, Leads place stack (pendingOf before) →
          b.expectOperand length stack (pendingOf before) place.rest =
            b.expectOperand length stack (pendingOf (f first.value :: before)) sign.next.rest := by
        intro stack hplace
        rw [hscan stack hplace, hrest', Builder.afterOperand, hlevel.extend]
      have hleads : ∀ stack, Leads place stack (pendingOf before) →
          Leads sign.next stack (pendingOf (f first.value :: before)) := fun stack hplace ↦
        leads_of_sign hsame hplace.depth hlatest (by simp) (hlevel.isNone before _)
      generalize others sign.next _ = rest at hread
      cases hread with
      | error hscan =>
        exact .error fun stack hplace ↦
          (hstep stack hplace).trans (hscan stack (hleads stack hplace))
      | @ok others hscan hdepth hends =>
        refine .ok (fun stack hplace ↦ ?_) (Eq.trans hdepth hsame) hends
        rw [hstep stack hplace, hscan stack (hleads stack hplace), List.reverse_cons,
          List.append_assoc]
        rfl

theorem factors_follow (hlater : LaterRulesFollow b length place)
    (hfactor : ∀ pending, FollowsScan b length Factor.continuations pending (fun e ↦ (pending, e))
      (Descent.factor b length place)) (terms before : List Expr) :
    FollowsScan b length Product.continuations ⟨terms, before, 0⟩
      (fun es ↦ (⟨terms, [], 0⟩, b.chain .and (before.reverse ++ es)))
      (Descent.factors b length place) := by
  rw [Descent.factors]
  exact chained_follows (isLevel_and terms) id before (hfactor _)
    fun later hlt ↦ (hlater later hlt).factors terms

theorem products_follow (hlater : LaterRulesFollow b length place)
    (hfactors : ∀ terms before, FollowsScan b length Product.continuations ⟨terms, before, 0⟩
      (fun es ↦ (⟨terms, [], 0⟩, b.chain .and (before.reverse ++ es)))
      (Descent.factors b length place)) (before : List Expr) :
    FollowsScan b length Sum.continuations ⟨before, [], 0⟩
      (fun es ↦ (.none, b.chain .or (before.reverse ++ es))) (Descent.products b length place) := by
  rw [Descent.products]
  exact chained_follows isLevel_or (b.chain .and) before (hfactors before [])
    fun later hlt ↦ (hlater later hlt).products

/-- Within parentheses, the scan goes on after a sum as the rule for the closing one does. -/
theorem afterOperand_inner {frame : Frame} (e : Expr)
    (hends : StartsWithout Sum.continuations place.tokens) :
    b.afterOperand length (frame :: stack) .none e place.rest =
      Descent.closing frame.position place >>= fun last ↦
        b.afterOperand length stack frame.outer e last.next.rest := by
  obtain ⟨past, _ | ⟨⟨position, token⟩, rest⟩⟩ := place
  · rw [Builder.afterOperand]
    rfl
  · cases token with
    | notAfter => exact absurd rfl (hends .notAfter (by decide))
    | connective op => exact absurd rfl (hends (.connective op) (by cases op <;> decide))
    | _ =>
      rw [Builder.afterOperand]
      rfl

/-- Outside of parentheses nothing may be left. -/
theorem afterOperand_outer (e : Expr) (hends : StartsWithout Sum.continuations place.tokens) :
    b.afterOperand length [] .none e place.rest =
      Descent.finished place >>= fun _ ↦ .ok e := by
  obtain ⟨past, _ | ⟨⟨position, token⟩, rest⟩⟩ := place
  · rw [Builder.afterOperand]
    rfl
  · cases token with
    | notAfter => exact absurd rfl (hends .notAfter (by decide))
    | connective op => exact absurd rfl (hends (.connective op) (by cases op <;> decide))
    | _ =>
      rw [Builder.afterOperand]
      rfl

/-- A closed parenthesis is one less. -/
theorem closing_eq_ok {position : Nat} {last : Step place PlacedToken}
    (hclosing : Descent.closing position place = .ok last) :
    last.next.depth = -1 + place.depth := by
  rw [Descent.closing] at hclosing
  cases hpop : place.pop? with
  | none =>
    rw [hpop] at hclosing
    cases hclosing
  | some step =>
    rw [hpop] at hclosing
    dsimp only at hclosing
    split_ifs at hclosing with hparen
    obtain rfl := Except.ok.inj hclosing
    rw [(Cursor.pop?_eq_some hpop).2.2, hparen]
    rfl

/-- A sum in parentheses follows the scan. While it is read, what stands before the opening one is
kept with it. -/
theorem group_follows (hlater : LaterRulesFollow b length place) {first : Step place PlacedToken}
    (hpop : place.pop? = some first) (hparen : first.value.token = .leftParen)
    (pending : Pending) :
    FollowsScan b length [] pending (fun e ↦ (pending, e))
      (Descent.products b length first.next >>= fun inner ↦
        Descent.closing first.value.position inner.next >>= fun last ↦
          .ok (first.before (inner.before (last.map fun _ ↦ b.chain .or inner.value)))) := by
  obtain ⟨hrest, hlatest, hdepth⟩ := Cursor.pop?_eq_some hpop
  obtain ⟨⟨position, token⟩, next, progress⟩ := first
  obtain rfl : token = .leftParen := hparen
  dsimp only at hrest hlatest hdepth ⊢
  have hinner := (hlater next progress).products []
  have hleads : ∀ stack, Leads place stack pending →
      Leads next (⟨position, pending⟩ :: stack) .none := fun stack hplace ↦
    ⟨by rw [hdepth, hplace.depth, Cursor.weight, List.length_cons]; push_cast; ring,
      by simp [hlatest, Pending.isNone, Pending.none]⟩
  generalize Descent.products b length next = inner at hinner
  cases hinner with
  | error hscan =>
    refine .error fun stack hplace ↦ ?_
    rw [hrest, Builder.expectOperand]
    exact hscan _ (hleads stack hplace)
  | @ok inner hscan hsame hends =>
    have hstep : ∀ stack, Leads place stack pending →
        b.expectOperand length stack pending place.rest =
          Descent.closing position inner.next >>= fun last ↦
            b.afterOperand length stack pending (b.chain .or inner.value) last.next.rest := by
      intro stack hplace
      rw [hrest, Builder.expectOperand]
      exact (hscan _ (hleads stack hplace)).trans (afterOperand_inner _ hends)
    show FollowsScan b length [] pending (fun e ↦ (pending, e))
      (Descent.closing position inner.next >>= fun last ↦ _)
    cases hclosing : Descent.closing position inner.next with
    | error error =>
      refine .error fun stack hplace ↦ ?_
      rw [hstep stack hplace, hclosing]
      rfl
    | ok last =>
      refine .ok (fun stack hplace ↦ ?_) ?_ (startsWithout_any _)
      · rw [hstep stack hplace, hclosing]
        rfl
      · show last.next.depth = place.depth
        rw [closing_eq_ok hclosing, hsame, hdepth]
        exact Int.neg_add_cancel_left 1 place.depth

/-- A primary follows the scan where no negation sign comes first. The rule for factors takes such
signs before. -/
theorem primary_follows (hlater : LaterRulesFollow b length place)
    (hfirst : place.tokens.head? ≠ some .notBefore) (pending : Pending) :
    FollowsScan b length [] pending (fun e ↦ (pending, e)) (Descent.primary b length place) := by
  rw [Descent.primary]
  cases hpop : place.pop? with
  | none =>
    have hrest := Cursor.pop?_eq_none hpop
    dsimp only
    split_ifs with hlatest
    · refine .error fun stack hplace ↦ ?_
      obtain ⟨hstack, hpending⟩ := hplace.opened.mp hlatest
      rw [hrest, Builder.expectOperand, hstack, hpending]
      rfl
    · refine .error fun stack hplace ↦ ?_
      have hnot := mt hplace.opened.mpr hlatest
      rw [hrest, Builder.expectOperand, if_neg (by simpa using hnot)]
  | some first =>
    obtain ⟨hrest, hlatest, hdepth⟩ := Cursor.pop?_eq_some hpop
    obtain ⟨⟨position, token⟩, next, progress⟩ := first
    dsimp only at hrest hlatest hdepth ⊢
    cases token with
    | number _ | name _ =>
      refine .ok (fun stack _ ↦ ?_) (hdepth.trans (Int.zero_add _)) (startsWithout_any _)
      rw [hrest, Builder.expectOperand]
      rfl
    | leftParen => exact group_follows hlater hpop rfl pending
    | rightParen =>
      split_ifs with hopen
      · refine .error fun stack hplace ↦ ?_
        rw [hplace.depth] at hopen
        rw [hrest, Builder.expectOperand, if_neg (by simpa [List.length_pos_iff] using hopen)]
      · refine .error fun stack hplace ↦ ?_
        rw [hplace.depth] at hopen
        rw [hrest, Builder.expectOperand, if_pos (by simpa using hopen)]
    | notBefore => exact absurd (congrArg (List.head? ∘ List.map PlacedToken.token) hrest) hfirst
    | notAfter | connective =>
      refine .error fun stack _ ↦ ?_
      rw [hrest, Builder.expectOperand]

/-- So all rules follow the scan, from every place. Each of them calls others only from later places
or, from the same place, in the order of the grammar. -/
theorem rulesFollow (place : Cursor) : RulesFollow b length place := by
  induction hlength : place.rest.length using Nat.strong_induction_on generalizing place with
  | _ count ih =>
    have hlater : LaterRulesFollow b length place :=
      fun later hlt ↦ ih later.rest.length (hlength ▸ hlt) later rfl
    have hfactor := factor_follows hlater (primary_follows hlater)
    have hfactors := factors_follow hlater hfactor
    exact ⟨hfactor, hfactors, products_follow hlater hfactors⟩

/-! ### Whole texts -/

theorem wholeSum_eq (tokens : List PlacedToken) :
    Descent.wholeSum b length tokens = b.expectOperand length [] .none tokens := by
  have hproducts := (@rulesFollow b length ⟨[], tokens⟩).products []
  have hleads : Leads ⟨[], tokens⟩ [] .none := ⟨rfl, by simp [Cursor.latest?]⟩
  rw [Descent.wholeSum]
  generalize Descent.products b length ⟨[], tokens⟩ = sum at hproducts
  cases hproducts with
  | error hscan => exact (hscan [] hleads).symm
  | ok hscan _ hends => exact ((hscan [] hleads).trans (afterOperand_outer _ hends)).symm

/-- A text is read by the rules of the grammar as it is read by one scan, and with the same error if
it is not an expression. -/
theorem Builder.descend_eq_read (b : Builder) (text : String) : b.descend text = b.read text := by
  rw [descend, read]
  congr 1
  ext1 tokens
  rw [ofTokens, wholeSum_eq]

end SwitchingAlgebra.Reading
