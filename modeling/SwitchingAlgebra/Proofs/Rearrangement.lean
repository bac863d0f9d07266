import Mathlib
import SwitchingAlgebra.Proofs.Shapes

/-!
# Expressions that compare equal

Two expressions compare equal exactly when the operands of the joins of one can be rearranged, at
any depth, so that it differs from the other in the marks of its nodes alone. The sequence of values
that an expression is hashed by can be read from front to back in one way only, so it tells apart
whatever the order tells apart, and nothing else.

The order looks through the leading negations of both expressions, compares joins by their sorted
operands, which are compared by the same order, and counts the negations last.

Main statements: `compare_eq_then` and `compare_join` for the recursion of the order,
`hashWords_eq_iff` for the values that are hashed, and `compare_total`.
-/

set_option autoImplicit false
set_option relaxedAutoImplicit false

namespace SwitchingAlgebra

namespace Shape

/-! ### Hashed values -/

/-- Where the sequences of single shapes show where they end, those of lists of one length do. -/
theorem hashWordsAll_append_injective {xs : List Shape}
    (hxs : ∀ x ∈ xs, ∀ (y : Shape) (tail tail' : List HashWord),
      x.hashWords ++ tail = y.hashWords ++ tail' → x = y ∧ tail = tail') :
    ∀ (ys : List Shape) (tail tail' : List HashWord), xs.length = ys.length →
      hashWordsAll xs ++ tail = hashWordsAll ys ++ tail' → xs = ys ∧ tail = tail' := by
  induction xs with
  | nil =>
    intro ys tail tail' hlength hwords
    obtain rfl := List.eq_nil_of_length_eq_zero hlength.symm
    exact ⟨rfl, hwords⟩
  | cons x xs ih =>
    intro ys tail tail' hlength hwords
    cases ys with
    | nil => cases hlength
    | cons y ys =>
      rw [hashWordsAll, hashWordsAll, List.append_assoc, List.append_assoc] at hwords
      obtain ⟨rfl, hrest⟩ := hxs x List.mem_cons_self y _ _ hwords
      obtain ⟨rfl, htail⟩ := ih (fun z hz ↦ hxs z (List.mem_cons_of_mem _ hz)) ys tail tail'
        (Nat.succ_injective hlength) hrest
      exact ⟨rfl, htail⟩

/-- The sequence of a shape shows where it ends, whatever is hashed after it. -/
theorem hashWords_append_injective (x : Shape) : ∀ (y : Shape) (tail tail' : List HashWord),
    x.hashWords ++ tail = y.hashWords ++ tail' → x = y ∧ tail = tail' := by
  induction x using Shape.induct with
  | truth value n =>
    intro y tail tail' hwords
    cases y <;> simp_all [hashWords]
  | symbol name n =>
    intro y tail tail' hwords
    cases y <;> simp_all [hashWords]
  | join op xs n ih =>
    intro y tail tail' hwords
    cases y with
    | truth => simp [hashWords] at hwords
    | symbol => simp [hashWords] at hwords
    | join other ys m =>
      simp only [hashWords, List.cons_append, List.cons.injEq, HashWord.count.injEq,
        HashWord.connective.injEq] at hwords
      obtain ⟨rfl, rfl, hlength, hoperands⟩ := hwords
      obtain ⟨rfl, htail⟩ := hashWordsAll_append_injective ih ys tail tail' hlength hoperands
      exact ⟨rfl, htail⟩

theorem hashWords_injective {x y : Shape} (hwords : x.hashWords = y.hashWords) : x = y :=
  (hashWords_append_injective x y [] [] (by rw [hwords])).1

/-! ### Leading negations -/

/-- The shape without its negations. -/
def core : Shape → Shape
  | truth value _ => truth value 0
  | symbol name _ => symbol name 0
  | join op operands _ => join op operands 0

theorem core_negate (x : Shape) : x.negate.core = x.core := by
  cases x <;> rfl

/-- The number of negations decides between shapes that are otherwise equal. -/
theorem compare_eq_then (x y : Shape) :
    compare x y = (compare x.core y.core).then (compare x.negations y.negations) := by
  cases x <;> cases y <;> simp [compare_def, order, core, negations, Ordering.then_assoc]

/-! ### Sorted shapes -/

/-- Shapes are sorted to the same list however they are arranged. -/
theorem mergeSort_eq_of_perm {xs ys : List Shape} (hperm : xs.Perm ys) :
    (xs.mergeSort fun x y ↦ (compare x y).isLE) = ys.mergeSort fun x y ↦ (compare x y).isLE := by
  refine List.Perm.eq_of_pairwise (fun x y _ _ hxy hyx ↦ ?_) (pairwise_mergeSort_isLE xs)
    (pairwise_mergeSort_isLE ys) ?_
  · refine eq_of_compare x y (Ordering.eq_eq_of_isLE_of_isLE_swap hxy ?_)
    rwa [← Std.OrientedCmp.eq_swap]
  · exact (List.mergeSort_perm xs _).trans (hperm.trans (List.mergeSort_perm ys _).symm)

end Shape

namespace Expr

variable {d e : Expr} {es fs : List Expr}

/-! ### The recursion of the order -/

/-- The operands in the order in which joins are compared. -/
def sorted (es : List Expr) : List Expr :=
  es.mergeSort fun d e ↦ (compare d e).isLE

theorem map_shape_sorted (es : List Expr) : (sorted es).map shape =
    (es.map shape).mergeSort fun x y ↦ (compare x y).isLE :=
  List.map_mergeSort fun _ _ _ _ ↦ rfl

theorem orderAll_map_shape (es : List Expr) :
    ∀ fs : List Expr, Shape.orderAll (es.map shape) (fs.map shape) = compare es fs := by
  rw [List.compare_eq_compareLex]
  induction es with
  | nil => intro fs; cases fs <;> rfl
  | cons d es ih =>
    intro fs
    cases fs with
    | nil => rfl
    | cons e fs =>
      rw [List.map_cons, List.map_cons, Shape.orderAll, ih, List.compareLex_cons_cons]
      rfl

/-- Joins compare by their connectives, by the numbers of their operands, and by their sorted
operands, one after the other. -/
theorem compare_join (mode mode' : Mode) (op other : Connective) (es fs : List Expr) :
    compare (join mode op es) (join mode' other fs) = (compare op other).then
      ((compare es.length fs.length).then (compare (sorted es) (sorted fs))) := by
  show Shape.order (join mode op es).shape (join mode' other fs).shape = _
  rw [shape_join, shape_join, ← map_shape_sorted, ← map_shape_sorted, Shape.order,
    orderAll_map_shape]
  simp [sorted]

theorem core_shape (e : Expr) : e.shape.core = e.core.shape := by
  induction e using Expr.induct with
  | not mode operand ih => rw [shape, Shape.core_negate, core, ih]
  | _ => rfl

theorem negations_shape (e : Expr) : e.shape.negations = e.negations := by
  induction e using Expr.induct with
  | not mode operand ih => rw [shape, Shape.negations_negate, negations, ih]
  | _ => rfl

/-- Expressions compare by what their leading negations are applied to, and then by the number of
these negations. -/
theorem compare_eq_then (d e : Expr) :
    compare d e = (compare d.core e.core).then (compare d.negations e.negations) := by
  show compare d.shape e.shape = (compare d.core.shape e.core.shape).then _
  rw [Shape.compare_eq_then, core_shape, core_shape, negations_shape, negations_shape]

/-! ### Hashed values -/

theorem compare_eq_iff_shape_eq : compare d e = .eq ↔ d.shape = e.shape := by
  refine ⟨shape_eq_of_compare, fun hshape ↦ ?_⟩
  show compare d.shape e.shape = .eq
  rw [hshape]
  exact Std.ReflCmp.compare_self

/-- Expressions are hashed by the same sequence of values exactly when they compare equal. -/
theorem hashWords_eq_iff : d.hashWords = e.hashWords ↔ compare d e = .eq := by
  rw [compare_eq_iff_shape_eq]
  exact ⟨Shape.hashWords_injective, fun hshape ↦ congrArg Shape.hashWords hshape⟩

/-! ### Rearranged operands -/

/-- The operands of the joins of the first expression can be rearranged, at any depth, so that it
differs from the second in marks alone. -/
inductive Rearranges : Expr → Expr → Prop
  | truth (value : Bool) : Rearranges (.truth value) (.truth value)
  | symbol (name : Symbol) : Rearranges (.symbol name) (.symbol name)
  | not (mode mode' : Mode) {d e : Expr} (hoperand : Rearranges d e) :
    Rearranges (.not mode d) (.not mode' e)
  | join (mode mode' : Mode) (op : Connective) {es arranged fs : List Expr}
    (hperm : es.Perm arranged) (hlength : arranged.length = fs.length)
    (hoperands : ∀ pair ∈ arranged.zip fs, Rearranges pair.1 pair.2) :
    Rearranges (.join mode op es) (.join mode' op fs)

theorem map_shape_eq_iff : es.map shape = fs.map shape ↔
    es.length = fs.length ∧ ∀ pair ∈ es.zip fs, pair.1.shape = pair.2.shape := by
  rw [← List.forall₂_eq_eq_eq, List.forall₂_map_left_iff, List.forall₂_map_right_iff,
    List.forall₂_iff_zip]
  exact and_congr_right fun _ ↦ ⟨fun hall _ hpair ↦ hall hpair, fun hall _ _ hpair ↦ hall _ hpair⟩

/-- Rearranging operands keeps the shape. -/
theorem Rearranges.shape_eq (hrearranges : d.Rearranges e) : d.shape = e.shape := by
  induction hrearranges with
  | truth value => rfl
  | symbol name => rfl
  | not mode mode' _ ih => rw [shape, shape, ih]
  | @join mode mode' op es arranged fs hperm hlength _ ih =>
    rw [shape_join, shape_join, Shape.mergeSort_eq_of_perm (hperm.map shape),
      map_shape_eq_iff.mpr ⟨hlength, ih⟩]

/-- Operands of which the shapes can be arranged alike can be arranged so themselves. -/
theorem exists_perm_of_perm_map_shape (hperm : (es.map shape).Perm (fs.map shape)) :
    ∃ arranged, es.Perm arranged ∧ arranged.map shape = fs.map shape := by
  have hshapes : List.Forall₂ (fun e x ↦ e.shape = x) es (es.map shape) := by
    rw [List.forall₂_map_right_iff]
    exact List.forall₂_same.mpr fun _ _ ↦ rfl
  have hcomp : Relation.Comp (List.Forall₂ fun e x ↦ e.shape = x) List.Perm es (fs.map shape) :=
    ⟨es.map shape, hshapes, hperm⟩
  rw [List.forall₂_comp_perm_eq_perm_comp_forall₂] at hcomp
  obtain ⟨arranged, harranged, hall⟩ := hcomp
  refine ⟨arranged, harranged, ?_⟩
  rwa [← List.forall₂_eq_eq_eq, List.forall₂_map_left_iff]

/-- Expressions of one shape are rearrangements of each other. -/
theorem rearranges_of_shape_eq (d : Expr) : ∀ e : Expr, d.shape = e.shape → d.Rearranges e := by
  induction d using Expr.induct with
  | truth value =>
    intro e hshape
    cases e with
    | truth other =>
      cases hshape
      exact .truth value
    | not => exact absurd hshape (shape_not_ne rfl)
    | _ => cases hshape
  | symbol name =>
    intro e hshape
    cases e with
    | symbol other =>
      cases hshape
      exact .symbol name
    | not => exact absurd hshape (shape_not_ne rfl)
    | _ => cases hshape
  | not mode operand ih =>
    intro e hshape
    cases e with
    | not mode' operand' => exact .not mode mode' (ih operand' (Shape.negate_injective hshape))
    | _ => exact absurd hshape.symm (shape_not_ne rfl)
  | join mode op operands ih =>
    intro e hshape
    cases e with
    | not => exact absurd hshape (shape_not_ne rfl)
    | join mode' op' operands' =>
      rw [shape_join, shape_join, Shape.join.injEq] at hshape
      obtain ⟨rfl, hsorted, -⟩ := hshape
      obtain ⟨arranged, hperm, hmap⟩ :=
        exists_perm_of_perm_map_shape (Shape.perm_of_mergeSort_eq hsorted)
      obtain ⟨hlength, hpairs⟩ := map_shape_eq_iff.mp hmap
      refine .join mode mode' op hperm hlength fun pair hpair ↦ ?_
      have hmem : pair.1 ∈ operands := hperm.mem_iff.mpr (List.of_mem_zip hpair).1
      exact ih pair.1 hmem pair.2 (hpairs pair hpair)
    | _ => cases hshape

/-- Expressions compare equal exactly when they are rearrangements of each other. -/
theorem compare_eq_iff_rearranges : compare d e = .eq ↔ d.Rearranges e := by
  rw [compare_eq_iff_shape_eq]
  exact ⟨rearranges_of_shape_eq d e, Rearranges.shape_eq⟩

/-- The canonical order is total: it is reversed with its arguments, it is transitive, and exactly
those expressions compare equal that differ in the arrangement of operands and in marks alone. These
are the expressions that are hashed by the same sequence of values. -/
theorem compare_total (a b c : Expr) : compare a b = (compare b a).swap ∧
    ((compare a b).isLE = true → (compare b c).isLE = true → (compare a c).isLE = true) ∧
      (compare a b = .eq ↔ a.Rearranges b) ∧
        (compare a b = .eq ↔ a.hashWords = b.hashWords) :=
  ⟨Std.OrientedCmp.eq_swap, Std.TransCmp.isLE_trans, compare_eq_iff_rearranges,
    hashWords_eq_iff.symm⟩

/-- A sum with a product below it that repeats an operand, as written. -/
def repeatedProduct : Expr :=
  .join .raw .or [.join .raw .and [.symbol (.name "b"), .symbol (.name "a"), .symbol (.name "b")],
    .not .raw (.symbol (.name "c"))]

/-- The same sum with its operands and those of the product in another order, and other marks. -/
def rearrangedProduct : Expr :=
  .join .raw .or [.not .evaluated (.symbol (.name "c")),
    .join .raw .and [.symbol (.name "a"), .symbol (.name "b"), .symbol (.name "b")]]

/-- The same sum with a further negation. -/
def negatedProduct : Expr :=
  .join .raw .or [.join .raw .and [.symbol (.name "b"), .symbol (.name "a"), .symbol (.name "b")],
    .not .raw (.not .raw (.symbol (.name "c")))]

/-- The two arrangements compare equal and are hashed alike, and the sum with a further negation
comes after both. -/
theorem compare_repeatedProduct : compare repeatedProduct rearrangedProduct = .eq ∧
    repeatedProduct.Rearranges rearrangedProduct ∧
      repeatedProduct.hashWords = rearrangedProduct.hashWords ∧
        compare rearrangedProduct negatedProduct = .lt ∧
          (compare repeatedProduct negatedProduct).isLE = true ∧
            compare negatedProduct repeatedProduct = .gt := by
  have hequal : compare repeatedProduct rearrangedProduct = .eq := by cbv
  have hless : compare rearrangedProduct negatedProduct = .lt := by cbv
  have hgreater : compare negatedProduct repeatedProduct = .gt := by cbv
  obtain ⟨-, htrans, hrearranges, hhash⟩ :=
    compare_total repeatedProduct rearrangedProduct negatedProduct
  refine ⟨hequal, hrearranges.mp hequal, hhash.mp hequal, hless, ?_, hgreater⟩
  exact htrans (by rw [hequal]; rfl) (by rw [hless]; rfl)

end Expr

end SwitchingAlgebra
