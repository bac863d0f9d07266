import Mathlib
import SwitchingAlgebra.TruthTable
import SwitchingAlgebra.Proofs.Replacement

/-!
# Truth tables

A table counts through the assignments in binary. The symbols stand in increasing order, the least
one for the bit of the greatest weight, and the number of a row gives the bits. Under the assignment
of a row no symbol of the expression is left, so what is evaluated has one value whatever the
further symbols are, and evaluation leaves such an expression as a constant.

Main statements: the assignments are the binary numbers in order (`assignments_eq`), the value under
one of them is a constant (`valueUnder_rowAssignment`), and the table of an expression that is no
constant has a row for every number that its symbols can write, if a list has room for so many rows
(`truthTable_rows`).
-/

set_option autoImplicit false
set_option relaxedAutoImplicit false

namespace SwitchingAlgebra

open Policy

variable {e d : Expr} {symbols : List Symbol} {s : Symbol} {row : Nat}

/-! ### Rows as binary numbers -/

/-- The bit of a symbol in the number of a row. The first symbol has the greatest weight. -/
def rowBit (symbols : List Symbol) (row : Nat) : Symbol → Bool := fun s ↦
  row.testBit (symbols.length - 1 - symbols.idxOf s)

/-- The symbols with the bits of a row. -/
def rowAssignment (symbols : List Symbol) (row : Nat) : Substitution :=
  symbols.mapIdx fun i s ↦ (.symbol s, .truth (row.testBit (symbols.length - 1 - i)))

theorem rowAssignment_cons (s : Symbol) (rest : List Symbol) (row : Nat) :
    rowAssignment (s :: rest) row =
      (.symbol s, .truth (row.testBit rest.length)) :: rowAssignment rest row := by
  rw [rowAssignment, List.mapIdx_cons, rowAssignment]
  simp only [List.length_cons, Nat.add_sub_cancel, Nat.sub_zero, Nat.sub_add_eq,
    Nat.sub_right_comm]

/-- Only the bits below the number of symbols matter. -/
theorem rowAssignment_congr {row' : Nat}
    (hbits : ∀ i < symbols.length, row.testBit i = row'.testBit i) :
    rowAssignment symbols row = rowAssignment symbols row' := by
  induction symbols with
  | nil => rfl
  | cons s rest ih =>
    rw [rowAssignment_cons, rowAssignment_cons, hbits rest.length (Nat.lt_succ_self _),
      ih fun i hi ↦ hbits i (Nat.lt_succ_of_lt hi)]

/-- The assignments to a list of symbols are those of all rows, in order. -/
theorem assignments_eq (symbols : List Symbol) :
    assignments symbols = (List.range (2 ^ symbols.length)).map (rowAssignment symbols) := by
  induction symbols with
  | nil => rfl
  | cons s rest ih =>
    rw [assignments, ih, List.length_cons, pow_succ, Nat.mul_two, List.range_add, List.map_append,
      List.map_map, List.map_map, List.map_map]
    refine congrArg₂ (· ++ ·) (List.map_congr_left fun row hrow ↦ ?_)
      (List.map_congr_left fun row hrow ↦ ?_)
    · rw [Function.comp_apply, rowAssignment_cons,
        Nat.testBit_lt_two_pow (List.mem_range.mp hrow)]
    · have hlow : rowAssignment rest (2 ^ rest.length + row) = rowAssignment rest row :=
        rowAssignment_congr fun i hi ↦ Nat.testBit_two_pow_add_gt hi row
      rw [Function.comp_apply, Function.comp_apply, rowAssignment_cons, hlow,
        Nat.testBit_two_pow_add_eq, Nat.testBit_lt_two_pow (List.mem_range.mp hrow)]
      rfl

/-! ### Symbols -/

namespace Expr

/-- The symbols of an expression are the symbols among its nodes. -/
theorem mem_symbolLeaves_iff (e : Expr) : s ∈ e.symbolLeaves ↔ (symbol s).IsNode e := by
  induction e using Expr.induct with
  | truth value =>
    rw [isNode_iff]
    simp [symbolLeaves, operands]
  | symbol name =>
    rw [isNode_iff]
    simp [symbolLeaves, operands]
  | not mode operand ih =>
    rw [isNode_iff]
    simp [symbolLeaves, operands, ih]
  | join mode op operands ih =>
    rw [isNode_iff, symbolLeaves, symbolLeavesAll_eq_flatMap, List.mem_flatMap]
    simp only [reduceCtorEq, false_or]
    exact exists_congr fun e ↦ and_congr_right fun he ↦ ih e he

/-- The value of an expression depends on its symbols alone. -/
theorem holds_congr {first second : Symbol → Bool} (e : Expr) :
    (∀ s ∈ e.symbolLeaves, first s = second s) → e.holds first = e.holds second := by
  induction e using Expr.induct with
  | truth value => exact fun _ ↦ (holds_truth _ _).trans (holds_truth _ _).symm
  | symbol name =>
    intro hagree
    rw [holds_symbol, holds_symbol, hagree name (by simp [symbolLeaves])]
  | not mode operand ih =>
    intro hagree
    rw [symbolLeaves] at hagree
    rw [holds_not, holds_not, ih hagree]
  | join mode op operands ih =>
    intro hagree
    rw [symbolLeaves, symbolLeavesAll_eq_flatMap] at hagree
    have hoperand : ∀ e ∈ operands, e.holds first = e.holds second := fun e he ↦
      ih e he fun s hs ↦ hagree s (List.mem_flatMap.mpr ⟨e, he, hs⟩)
    exact holds_join_congr (fun e he ↦ ⟨e, he, hoperand e he⟩) fun e he ↦ ⟨e, he, hoperand e he⟩

/-! ### Values under a row -/

theorem lookup_symbol {values : Symbol → Expr} (hs : s ∈ symbols) :
    (symbols.map fun t ↦ (symbol t, values t)).lookup (symbol s) = some (values s) := by
  induction symbols with
  | nil => exact absurd hs List.not_mem_nil
  | cons t rest ih =>
    rw [List.map_cons, List.lookup_cons]
    cases hequal : symbol s == symbol t with
    | true =>
      have hsame : symbol t = symbol s := eq_symbol_of_shape_eq (beq_iff_shape_eq.mp hequal)
      rw [symbol.inj hsame]
    | false =>
      have hne : s ≠ t := by
        rintro rfl
        rw [beq_iff_shape_eq.mpr rfl] at hequal
        cases hequal
      exact ih ((List.mem_cons.mp hs).resolve_left hne)

end Expr

/-- Where the symbols are distinct, each has its bit in the assignment of a row. -/
theorem rowAssignment_eq_map (hsymbols : symbols.Nodup) (row : Nat) :
    rowAssignment symbols row = symbols.map fun s ↦ (.symbol s, .truth (rowBit symbols row s)) := by
  refine List.ext_getElem (by simp [rowAssignment]) fun i hi hi' ↦ ?_
  have hlength : i < symbols.length := by simpa using hi'
  simp [rowAssignment, rowBit, hsymbols.idxOf_getElem i hlength]

theorem rebound_rowAssignment (hsymbols : symbols.Nodup) (hs : s ∈ symbols) (row : Nat)
    (assignment : Symbol → Bool) :
    (rowAssignment symbols row).rebound assignment s = rowBit symbols row s := by
  rw [Substitution.rebound, rowAssignment_eq_map hsymbols, ← List.map_reverse,
    Expr.lookup_symbol (List.mem_reverse.mpr hs), Option.map_some, Option.getD_some,
    Expr.holds_truth]

theorem replacesSymbols_rowAssignment (hsymbols : symbols.Nodup) (row : Nat) :
    (rowAssignment symbols row).ReplacesSymbols := by
  rw [rowAssignment_eq_map hsymbols]
  exact List.forall_mem_map.mpr fun s _ ↦ ⟨s, rfl⟩

namespace Expr

theorem nodup_symbols (e : Expr) : e.symbols.Nodup := by
  have hincreasing : e.symbols.Pairwise fun s t ↦ compare s t = .lt := pairwise_sortDistinct _
  exact nodup_of_pairwise_lt hincreasing

/-- The value under the assignment of a row is the constant of the value under its bits. -/
theorem Settled.valueUnder_rowAssignment (he : e.Settled) (row : Nat) :
    e.valueUnder (rowAssignment e.symbols row) = .truth (e.holds (rowBit e.symbols row)) := by
  have hnodup := e.nodup_symbols
  have hconstants : ∀ entry ∈ rowAssignment e.symbols row, entry.2.Settled := by
    rw [rowAssignment_eq_map hnodup]
    exact List.forall_mem_map.mpr fun s _ ↦ .evaluated (.truth _)
  have hsettled : (e.substitute (rowAssignment e.symbols row)).Settled :=
    Settled.substitute hconstants e he
  refine hsettled.evaluated_eval.eq_truth fun assignment ↦ ?_
  have hkeys := replacesSymbols_rowAssignment hnodup row
  calc (e.substitute (rowAssignment e.symbols row)).eval.holds assignment
      = (e.substitute (rowAssignment e.symbols row)).holds assignment :=
        holds_eval faithful_standard _
    _ = e.holds ((rowAssignment e.symbols row).rebound assignment) := by
        rw [he.holds_substitute hconstants, holds_replaced hkeys]
    _ = e.holds (rowBit e.symbols row) := holds_congr e fun s hs ↦
        rebound_rowAssignment hnodup (mem_sortDistinct.mpr hs) row assignment

/-! ### Tables -/

/-- The rows of a table take up more memory than a list may from 58 symbols on. -/
theorem maxListBytes_lt_iff (count : Nat) :
    maxListBytes < (1 <<< count) * rowBytes ↔ 58 ≤ count := by
  have hpow : (1 <<< count) * rowBytes = 2 ^ (count + 5) := by
    rw [Nat.one_shiftLeft, pow_add]
    rfl
  have hbytes : maxListBytes < 2 ^ (count + 5) ↔ 2 ^ 63 ≤ 2 ^ (count + 5) := by
    rw [maxListBytes]
    omega
  rw [hpow, hbytes, Nat.pow_le_pow_iff_right one_lt_two]
  omega

theorem truthTable_of_ne_truth (he : ∀ value, e ≠ .truth value) : e.truthTable =
    if 64 ≤ e.symbols.length then .error (.rejected (.tooManySymbols e.symbols.length))
    else if 58 ≤ e.symbols.length then .error .capacityOverflow
    else .ok ((assignments e.symbols).map fun assignment ↦
      ⟨assignment, e.valueUnder assignment⟩) := by
  unfold truthTable
  split
  · next value => exact absurd rfl (he value)
  · simp only [maxListBytes_lt_iff, countBits]

/-- The table of an expression that is built by the standard policy. A constant has one row, in
which it stands for itself. Any other expression has `n` symbols in strictly increasing order, which
are the symbols among its nodes. If there are 64 or more, the table has too many rows, and if there
are 58 or more, no list has room for them. Otherwise it has `2 ^ n` rows. Row `r` gives the symbol
at position `i` the bit of weight `2 ^ (n - 1 - i)` of `r`, and its value is the constant of the
value of the expression under these bits. -/
theorem truthTable_rows (he : e.Built) :
    (∀ value, e = .truth value → e.truthTable = .ok [⟨[(e, e)], e⟩]) ∧
      ((∀ value, e ≠ .truth value) →
        (e.symbols.Pairwise fun s t ↦ compare s t = .lt) ∧
        (∀ s, s ∈ e.symbols ↔ (symbol s).IsNode e) ∧
        (64 ≤ e.symbols.length →
          e.truthTable = .error (.rejected (.tooManySymbols e.symbols.length))) ∧
        (58 ≤ e.symbols.length → e.symbols.length < 64 →
          e.truthTable = .error .capacityOverflow) ∧
        (e.symbols.length < 58 →
          e.truthTable = .ok ((List.range (2 ^ e.symbols.length)).map fun row ↦
            ⟨e.symbols.mapIdx fun i s ↦
                (.symbol s, .truth (row.testBit (e.symbols.length - 1 - i))),
              .truth (e.holds fun s ↦
                row.testBit (e.symbols.length - 1 - e.symbols.idxOf s))⟩))) := by
  refine ⟨?_, fun hne ↦ ⟨pairwise_sortDistinct _, fun s ↦ ?_, fun hmany ↦ ?_,
    fun hlarge hcounted ↦ ?_, fun hfew ↦ ?_⟩⟩
  · rintro value rfl
    rfl
  · rw [← mem_symbolLeaves_iff]
    exact mem_sortDistinct
  · rw [truthTable_of_ne_truth hne, if_pos hmany]
  · rw [truthTable_of_ne_truth hne, if_neg (by omega), if_pos hlarge]
  · rw [truthTable_of_ne_truth hne, if_neg (by omega), if_neg (by omega), assignments_eq,
      List.map_map]
    refine congrArg Except.ok (List.map_congr_left fun row _ ↦ ?_)
    rw [Function.comp_apply, he.settled.valueUnder_rowAssignment]
    rfl

/-- The table of a written product of an evaluated sum and a negation. It is true in one row. -/
theorem truthTable_mixedProduct : mixedProduct.Built ∧ (∀ value, mixedProduct ≠ .truth value) ∧
    mixedProduct.symbols = [.name "a", .name "b"] ∧
      mixedProduct.truthTable = .ok [
        ⟨[(.symbol (.name "a"), .truth false), (.symbol (.name "b"), .truth false)], .truth false⟩,
        ⟨[(.symbol (.name "a"), .truth false), (.symbol (.name "b"), .truth true)], .truth false⟩,
        ⟨[(.symbol (.name "a"), .truth true), (.symbol (.name "b"), .truth false)], .truth true⟩,
        ⟨[(.symbol (.name "a"), .truth true), (.symbol (.name "b"), .truth true)],
          .truth false⟩] := by
  have hne : ∀ value, mixedProduct ≠ .truth value := fun value hconstant ↦ by cases hconstant
  have hsymbols : mixedProduct.symbols = [.name "a", .name "b"] := by cbv
  obtain ⟨-, -, -, -, hrows⟩ := (truthTable_rows built_mixedProduct).2 hne
  refine ⟨built_mixedProduct, hne, hsymbols, ?_⟩
  rw [hrows (by rw [hsymbols]; decide), hsymbols]
  cbv

/-- A written product of 58 numbered symbols. -/
def wideProduct : Expr :=
  standard.join .raw .and ((List.range 58).map fun i ↦ .symbol (.int (.ofNat i)))

/-- Its rows can be counted in a word, but there is no table. -/
theorem no_room_wideProduct : wideProduct.Built ∧ (∀ value, wideProduct ≠ .truth value) ∧
    wideProduct.symbols.length = 58 ∧ wideProduct.truthTable = .error .capacityOverflow := by
  have hne : ∀ value, wideProduct ≠ .truth value := fun value hconstant ↦ by cases hconstant
  have hsymbols : wideProduct.symbols.length = 58 := by cbv
  refine ⟨.join .raw .and (List.forall_mem_map.mpr fun _ _ ↦ .symbol _), hne, hsymbols, ?_⟩
  rw [truthTable_of_ne_truth hne, hsymbols]
  rfl

end Expr

end SwitchingAlgebra
