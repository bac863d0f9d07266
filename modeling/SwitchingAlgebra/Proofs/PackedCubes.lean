import Mathlib
import SwitchingAlgebra.Cover.Packed
import SwitchingAlgebra.Proofs.CubePoints

/-!
# Cubes as machine words

Subtracting one from a part of some columns clears its lowest bit and sets all bits below. Of these
the columns are kept, so the result is the largest smaller part. Counting down in this way from all
columns meets every part of them, once each, and ends with the empty one.

A cube is packed into a mask and a value over the columns with literals. The parts of the columns
that the mask leaves free, joined with the value, are the rows that have what the cube asks for.

Main statements: what is counted down to (`Word.mem_partsFrom`, `Word.pairwise_partsFrom`), which
rows a packed cube contains (`PackedCube.contains_ofCube`), and that these are the rows that are
found (`PackedCube.mem_rows_iff`).
-/

set_option autoImplicit false
set_option relaxedAutoImplicit false

namespace SwitchingAlgebra

namespace Word

/-! ### Counting down -/

/-- A part of some numbers of columns is so in the lowest bit and in those above. -/
theorem and_half {m n : Nat} (hm : m &&& n = m) :
    m / 2 &&& n / 2 = m / 2 ∧ m % 2 &&& n % 2 = m % 2 := by
  have hlow := @Nat.and_mod_two_pow m n 1
  rw [pow_one, hm] at hlow
  rw [← Nat.and_div_two, hm]
  exact ⟨rfl, hlow.symm⟩

/-- Of the parts of some columns that are smaller than a given one, subtracting one and keeping only
these columns gives the largest. -/
theorem le_pred_and (free : Nat) : ∀ {part smaller : Nat}, part &&& free = part →
    smaller &&& free = smaller → smaller < part → smaller ≤ (part - 1) &&& free := by
  induction free using Nat.strong_induction_on with
  | _ free ih =>
    intro part smaller hpart hsmaller hlt
    by_cases hfree : free = 0
    · rw [hfree, Nat.and_zero] at hpart
      omega
    -- The lowest bit decides whether subtracting one borrows from the bits above.
    obtain ⟨hparthigh, hpartlow⟩ := and_half hpart
    obtain ⟨hsmallerhigh, hsmallerlow⟩ := and_half hsmaller
    have hhigh : ((part - 1) &&& free) / 2 = (part - 1) / 2 &&& free / 2 := Nat.and_div_two
    have hlow : ((part - 1) &&& free) % 2 = (part - 1) % 2 &&& free % 2 := by
      have hlow := @Nat.and_mod_two_pow (part - 1) free 1
      rwa [pow_one] at hlow
    rcases Nat.mod_two_eq_zero_or_one part with heven | hodd
    · have hdiv : (part - 1) / 2 = part / 2 - 1 := by omega
      have hmod : (part - 1) % 2 = 1 := by omega
      have hle : smaller / 2 ≤ (part / 2 - 1) &&& free / 2 :=
        ih (free / 2) (by omega) hparthigh hsmallerhigh (by omega)
      have hbit : smaller % 2 ≤ 1 &&& free % 2 := by
        rcases Nat.mod_two_eq_zero_or_one free with h | h <;>
          rcases Nat.mod_two_eq_zero_or_one smaller with h' | h' <;> simp_all
      rw [hdiv] at hhigh
      rw [hmod] at hlow
      omega
    · have hdiv : (part - 1) / 2 = part / 2 := by omega
      rw [hdiv, hparthigh] at hhigh
      omega

variable {free part word : Word}

theorem le_pred_and_iff (hpart : part &&& free = part) (hword : word &&& free = word)
    (hne : part ≠ 0) : word ≤ (part - 1) &&& free ↔ word < part := by
  have hone : 1 ≤ part := by bv_omega
  have hpred : ((part - 1) &&& free).toNat = (part.toNat - 1) &&& free.toNat := by
    rw [BitVec.toNat_and, BitVec.toNat_sub_of_le hone]
    rfl
  rw [BitVec.le_def, BitVec.lt_def, hpred]
  constructor
  · intro hle
    have hbelow : (part.toNat - 1) &&& free.toNat ≤ part.toNat - 1 := Nat.and_le_left
    have hpositive : 1 ≤ part.toNat := BitVec.le_def.mp hone
    omega
  · exact le_pred_and free.toNat (by rw [← BitVec.toNat_and, hpart])
      (by rw [← BitVec.toNat_and, hword])

/-- What is counted down to from a part of some columns are the parts that are not larger. -/
theorem mem_partsFrom (hpart : part &&& free = part) :
    word ∈ partsFrom free part ↔ word &&& free = word ∧ word ≤ part := by
  fun_induction partsFrom free part with
  | case1 =>
    rw [List.mem_singleton]
    constructor
    · rintro rfl
      exact ⟨BitVec.zero_and, BitVec.le_refl _⟩
    · rintro ⟨-, hle⟩
      bv_omega
  | case2 part hne ih =>
    rw [List.mem_cons, ih (by rw [BitVec.and_assoc, BitVec.and_self])]
    constructor
    · rintro (rfl | ⟨hword, hle⟩)
      · exact ⟨hpart, BitVec.le_refl _⟩
      · exact ⟨hword, BitVec.le_of_lt ((le_pred_and_iff hpart hword hne).mp hle)⟩
    · rintro ⟨hword, hle⟩
      by_cases hequal : word = part
      · exact .inl hequal
      · exact .inr ⟨hword, (le_pred_and_iff hpart hword hne).mpr (by bv_omega)⟩

theorem mem_partsFrom_self : word ∈ partsFrom free free ↔ word &&& free = word := by
  rw [mem_partsFrom BitVec.and_self]
  refine and_iff_left_of_imp fun hword ↦ ?_
  rw [← hword, BitVec.le_def, BitVec.toNat_and]
  exact Nat.and_le_right

/-- Every part is counted once. -/
theorem pairwise_partsFrom (hpart : part &&& free = part) :
    (partsFrom free part).Pairwise (· > ·) := by
  fun_induction partsFrom free part with
  | case1 => exact List.pairwise_singleton _ _
  | case2 part hne ih =>
    have hmasked : (part - 1) &&& free &&& free = (part - 1) &&& free := by
      rw [BitVec.and_assoc, BitVec.and_self]
    refine List.pairwise_cons.mpr ⟨fun smaller hsmaller ↦ ?_, ih hmasked⟩
    obtain ⟨hword, hle⟩ := (mem_partsFrom hmasked).mp hsmaller
    exact (le_pred_and_iff hpart hword hne).mp hle

/-! ### Bits -/

theorem eq_iff_getLsbD {word other : Word} :
    word = other ↔ ∀ i, word.getLsbD i = other.getLsbD i :=
  ⟨fun hequal i ↦ congrArg (BitVec.getLsbD · i) hequal, fun hall ↦
    BitVec.eq_of_getLsbD_eq fun i _ ↦ hall i⟩

theorem and_eq_left_iff :
    part &&& free = part ↔ ∀ i, part.getLsbD i = true → free.getLsbD i = true := by
  rw [eq_iff_getLsbD]
  refine forall_congr' fun i ↦ ?_
  rw [BitVec.getLsbD_and]
  cases part.getLsbD i <;> simp

theorem getLsbD_firstColumns {count : Nat} (hcount : count < 32) (i : Nat) :
    (firstColumns count).getLsbD i = decide (i < count) := by
  have hpower : ((1 : Word) <<< count).toNat = 2 ^ count := by
    rw [BitVec.toNat_shiftLeft]
    show 1 <<< count % 2 ^ 32 = 2 ^ count
    rw [Nat.one_shiftLeft]
    exact Nat.mod_eq_of_lt (Nat.pow_lt_pow_right (by omega) hcount)
  have hone : 1 ≤ (1 : Word) <<< count := by
    rw [BitVec.le_def, hpower]
    exact Nat.one_le_two_pow
  rw [firstColumns, ← BitVec.testBit_toNat, BitVec.toNat_sub_of_le hone, hpower]
  exact Nat.testBit_two_pow_sub_one count i

end Word

namespace PackedCube

variable {packed : PackedCube} {c : Cube} {columns : List Nat} {row : Word}

/-! ### Packing -/

theorem getLsbD_ite_shiftLeft (value : Bool) {bit : Nat} (hbit : bit < 32) (i : Nat) :
    ((if value then 1 else 0 : Word) <<< bit).getLsbD i = (value && decide (i = bit)) := by
  cases value with
  | false => simp
  | true =>
    show (1#32 <<< bit).getLsbD i = _
    rw [Bool.eq_iff_iff]
    simp only [BitVec.getLsbD_shiftLeft, BitVec.getLsbD_one, Bool.and_eq_true, decide_eq_true_eq,
      Bool.not_eq_true', decide_eq_false_iff_not, Bool.true_and]
    omega

/-- One more column sets its bit in the mask if something is asked for there, and in the value if
that is true. -/
theorem getLsbD_fix {bit : Nat} (hbit : bit < 32) (column : Column) (i : Nat) :
    (packed.fix bit column).mask.getLsbD i =
        (packed.mask.getLsbD i || (column.isSome && decide (i = bit))) ∧
      (packed.fix bit column).value.getLsbD i =
        (packed.value.getLsbD i || (column.getD false && decide (i = bit))) := by
  rcases column with _ | value
  · simp [PackedCube.fix]
  · have hone := getLsbD_ite_shiftLeft true hbit i
    rw [if_pos rfl] at hone
    simp only [PackedCube.fix, BitVec.getLsbD_or, hone, getLsbD_ite_shiftLeft value hbit,
      Option.isSome_some, Option.getD_some, and_self]

theorem getLsbD_fixAll : ∀ {packed : PackedCube} {bit : Nat}, bit + columns.length ≤ 32 → ∀ i,
    (fixAll c packed bit columns).mask.getLsbD i = (packed.mask.getLsbD i ||
        (decide (bit ≤ i) && (columns[i - bit]?).any fun column ↦ (c.column column).isSome)) ∧
      (fixAll c packed bit columns).value.getLsbD i = (packed.value.getLsbD i ||
        (decide (bit ≤ i) && (columns[i - bit]?).any fun column ↦
          (c.column column).getD false)) := by
  induction columns with
  | nil => simp [fixAll]
  | cons column rest ih =>
    intro packed bit hbits i
    rw [List.length_cons] at hbits
    obtain ⟨hmask, hvalue⟩ := @ih (packed.fix bit (c.column column)) (bit + 1) (by omega) i
    obtain ⟨hfixmask, hfixvalue⟩ :=
      @getLsbD_fix packed bit (by omega) (c.column column) i
    rw [fixAll, hmask, hvalue, hfixmask, hfixvalue]
    rcases Nat.lt_trichotomy i bit with hlt | rfl | hgt
    · simp [hlt.ne, show ¬ bit ≤ i by omega, show ¬ bit + 1 ≤ i by omega]
    · simp
    · obtain ⟨k, rfl⟩ : ∃ k, i = bit + 1 + k := ⟨i - (bit + 1), by omega⟩
      have hindex : bit + 1 + k - bit = k + 1 := by omega
      simp [hindex, show bit + 1 + k ≠ bit by omega, show bit ≤ bit + 1 + k by omega]

/-- A packed cube asks in the column of each bit for what the cube asks for there. -/
theorem getLsbD_ofCube (hbits : columns.length ≤ 32) (i : Nat) :
    (ofCube columns c).mask.getLsbD i =
        (columns[i]?).any (fun column ↦ (c.column column).isSome) ∧
      (ofCube columns c).value.getLsbD i =
        (columns[i]?).any (fun column ↦ (c.column column).getD false) := by
  simpa [ofCube] using @getLsbD_fixAll c columns ⟨0, 0⟩ 0 (by omega) i

/-- A packed cube contains a row when each value is what the cube asks for in the column. -/
theorem contains_ofCube (hbits : columns.length ≤ 32) : (ofCube columns c).contains row = true ↔
    ∀ i column, columns[i]? = some column → (c.column column).accepts (row.getLsbD i) = true := by
  rw [contains, beq_iff_eq, Word.eq_iff_getLsbD]
  refine forall_congr' fun i ↦ ?_
  obtain ⟨hmask, hvalue⟩ := @getLsbD_ofCube c columns hbits i
  rw [BitVec.getLsbD_and, hmask, hvalue]
  rcases columns[i]? with _ | column
  · simp
  · rcases hcolumn : c.column column with _ | value
    · simp [hcolumn, Column.accepts]
    · simp [hcolumn, Column.accepts, @eq_comm Bool value]

/-! ### Rows -/

/-- The rows of a packed cube over some columns are those of these columns that it contains. -/
theorem mem_rows_iff {columns : Word} (hmask : packed.mask &&& columns = packed.mask)
    (hvalue : packed.value &&& packed.mask = packed.value) :
    row ∈ packed.rows columns ↔ packed.contains row = true ∧ row &&& columns = row := by
  have hmaskbit := Word.and_eq_left_iff.mp hmask
  have hvaluebit := Word.and_eq_left_iff.mp hvalue
  rw [rows, List.mem_map]
  simp only [Word.mem_partsFrom_self, contains, beq_iff_eq]
  constructor
  · rintro ⟨part, hpart, rfl⟩
    have hpartbit := Word.and_eq_left_iff.mp hpart
    simp only [BitVec.getLsbD_and, BitVec.getLsbD_not, Bool.and_eq_true, Bool.not_eq_true']
      at hpartbit
    constructor
    · refine BitVec.eq_of_getLsbD_eq fun i _ ↦ ?_
      rw [BitVec.getLsbD_and, BitVec.getLsbD_or]
      have hvaluebit := hvaluebit i
      have hpartbit := hpartbit i
      grind
    · refine Word.and_eq_left_iff.mpr fun i hi ↦ ?_
      rw [BitVec.getLsbD_or, Bool.or_eq_true] at hi
      exact hi.elim (fun hi ↦ hmaskbit i (hvaluebit i hi)) fun hi ↦ (hpartbit i hi).1
  · rintro ⟨hcontains, hcolumns⟩
    refine ⟨row &&& (columns &&& ~~~packed.mask), ?_, ?_⟩
    · rw [BitVec.and_assoc, BitVec.and_self]
    · have hcolumnsbit := Word.and_eq_left_iff.mp hcolumns
      rw [← hcontains]
      refine BitVec.eq_of_getLsbD_eq fun i hi ↦ ?_
      simp only [BitVec.getLsbD_or, BitVec.getLsbD_and, BitVec.getLsbD_not, hi, decide_true,
        Bool.true_and]
      have hcolumnsbit := hcolumnsbit i
      grind

/-- A packed cube asks only for columns that it is packed from. -/
theorem mask_ofCube_and (hbits : columns.length < 32) :
    (ofCube columns c).mask &&& Word.firstColumns columns.length = (ofCube columns c).mask := by
  refine Word.and_eq_left_iff.mpr fun i hi ↦ ?_
  rw [(getLsbD_ofCube hbits.le i).1] at hi
  rw [Word.getLsbD_firstColumns hbits, decide_eq_true_iff]
  by_contra hge
  rw [List.getElem?_eq_none (Nat.le_of_not_lt hge)] at hi
  cases hi

/-- It asks for true only where it asks for a value. -/
theorem value_ofCube_and (hbits : columns.length ≤ 32) :
    (ofCube columns c).value &&& (ofCube columns c).mask = (ofCube columns c).value := by
  refine Word.and_eq_left_iff.mpr fun i hi ↦ ?_
  rw [(getLsbD_ofCube hbits i).2] at hi
  rw [(getLsbD_ofCube hbits i).1]
  revert hi
  rcases columns[i]? with _ | column
  · exact id
  · rcases hcolumn : c.column column with _ | value <;> simp [hcolumn]

end PackedCube

end SwitchingAlgebra
