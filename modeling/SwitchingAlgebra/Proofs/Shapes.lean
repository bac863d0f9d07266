import Mathlib
import SwitchingAlgebra.Expr.Shape
import SwitchingAlgebra.Proofs.SortedLists

/-!
# The canonical order and the value of an expression

Shapes are compared part by part, and a comparison of two parts that is settled by the first is not
changed by the second. Only equal shapes compare equal, and expressions of one shape have the same
value under every assignment: the operands of a join may stand in any order.

Main statements: the order of the expressions is transitive (the instance `Std.TransOrd Expr`),
expressions that compare equal have the same value (`holds_eq_of_compare`), and so sorting a list of
operands without repetitions keeps the value of their join (`holds_join_distinct`).
-/

set_option autoImplicit false
set_option relaxedAutoImplicit false

namespace SwitchingAlgebra

namespace Shape

/-- Induction over a shape: a statement that passes from the operands of a join to the join holds of
all shapes. -/
theorem induct {motive : Shape → Prop} (truth : ∀ value n, motive (.truth value n))
    (symbol : ∀ name n, motive (.symbol name n))
    (join : ∀ op operands n, (∀ x ∈ operands, motive x) → motive (.join op operands n))
    (x : Shape) : motive x :=
  Shape.rec (motive_2 := fun xs ↦ ∀ x ∈ xs, motive x) truth symbol
    (fun op operands n hoperands ↦ join op operands n hoperands)
    (fun _ h ↦ absurd h List.not_mem_nil)
    (fun _ _ hhead htail x hx ↦ (List.mem_cons.mp hx).elim (fun h ↦ h ▸ hhead) (htail x)) x

theorem compare_def (x y : Shape) : compare x y = order x y := rfl

/-! ### Reversal -/

theorem orderAll_swap {xs : List Shape} (hswap : ∀ x ∈ xs, ∀ y, order x y = (order y x).swap) :
    ∀ ys, orderAll xs ys = (orderAll ys xs).swap := by
  induction xs with
  | nil => intro ys; cases ys <;> rfl
  | cons x xs ih =>
    intro ys
    cases ys with
    | nil => rfl
    | cons y ys =>
      rw [orderAll, orderAll, Ordering.swap_then, hswap x List.mem_cons_self,
        ih fun z hz ↦ hswap z (List.mem_cons_of_mem _ hz)]

theorem order_swap (x : Shape) : ∀ y, order x y = (order y x).swap := by
  induction x using Shape.induct with
  | truth value n =>
    intro y
    cases y with
    | truth other m =>
      rw [order, order, Ordering.swap_then]
      exact congrArg₂ _ Std.OrientedCmp.eq_swap Std.OrientedCmp.eq_swap
    | symbol => simp [order]
    | join => simp [order]
  | symbol name n =>
    intro y
    cases y with
    | truth => simp [order]
    | symbol other m =>
      rw [order, order, Ordering.swap_then]
      exact congrArg₂ _ Std.OrientedCmp.eq_swap Std.OrientedCmp.eq_swap
    | join => simp [order]
  | join op xs n ih =>
    intro y
    cases y with
    | truth => simp [order]
    | symbol => simp [order]
    | join other ys m =>
      have hop : compare op other = (compare other op).swap := by cases op <;> cases other <;> rfl
      rw [order, order, Ordering.swap_then, Ordering.swap_then, Ordering.swap_then, ← hop,
        ← orderAll_swap ih]
      exact congrArg₂ _ rfl (congrArg₂ _ Std.OrientedCmp.eq_swap
        (congrArg₂ _ rfl Std.OrientedCmp.eq_swap))

/-! ### Transitivity -/

/-- What comparing the ends of a chain of three gives, when the two steps are known. -/
structure Chain (first second ends : Ordering) : Prop where
  eq_first : first = .eq → ends = second
  eq_second : second = .eq → ends = first
  lt : first = .lt → second = .lt → ends = .lt

/-- Chains are compared part by part. -/
theorem Chain.then {first second ends first' second' ends' : Ordering}
    (hchain : Chain first second ends) (hchain' : Chain first' second' ends') :
    Chain (first.then first') (second.then second') (ends.then ends') := by
  obtain ⟨hfirst, hsecond, hlt⟩ := hchain
  obtain ⟨hfirst', hsecond', hlt'⟩ := hchain'
  constructor
  · intro h
    obtain ⟨h, h'⟩ := Ordering.then_eq_eq.mp h
    rw [hfirst h, hfirst' h']
  · intro h
    obtain ⟨h, h'⟩ := Ordering.then_eq_eq.mp h
    rw [hsecond h, hsecond' h']
  · intro h₁ h₂
    rcases Ordering.then_eq_lt.mp h₁ with h₁ | ⟨h₁, h₁'⟩
    · rcases Ordering.then_eq_lt.mp h₂ with h₂ | ⟨h₂, -⟩
      · exact Ordering.then_eq_lt.mpr (.inl (hlt h₁ h₂))
      · exact Ordering.then_eq_lt.mpr (.inl ((hsecond h₂).trans h₁))
    · rcases Ordering.then_eq_lt.mp h₂ with h₂ | ⟨h₂, h₂'⟩
      · exact Ordering.then_eq_lt.mpr (.inl ((hfirst h₁).trans h₂))
      · exact Ordering.then_eq_lt.mpr (.inr ⟨(hfirst h₁).trans h₂, hlt' h₁' h₂'⟩)

theorem Chain.of_transCmp {α : Type} {cmp : α → α → Ordering} [Std.TransCmp cmp] (x y z : α) :
    Chain (cmp x y) (cmp y z) (cmp x z) :=
  ⟨fun h ↦ Std.TransCmp.congr_left h, fun h ↦ (Std.TransCmp.congr_right h).symm,
    Std.TransCmp.lt_trans⟩

theorem chain_orderAll {xs : List Shape}
    (hchain : ∀ x ∈ xs, ∀ y z, Chain (order x y) (order y z) (order x z)) :
    ∀ ys zs, Chain (orderAll xs ys) (orderAll ys zs) (orderAll xs zs) := by
  induction xs with
  | nil => intro ys zs; cases ys <;> cases zs <;> constructor <;> simp [orderAll]
  | cons x xs ih =>
    intro ys zs
    cases ys with
    | nil => cases zs <;> constructor <;> simp [orderAll]
    | cons y ys =>
      cases zs with
      | nil => constructor <;> simp [orderAll]
      | cons z zs =>
        exact (hchain x List.mem_cons_self y z).then
          (ih (fun w hw ↦ hchain w (List.mem_cons_of_mem _ hw)) ys zs)

/-- Both comparisons and their order are settled where the kinds of the shapes differ. -/
theorem chain_order (x : Shape) : ∀ y z, Chain (order x y) (order y z) (order x z) := by
  induction x using Shape.induct with
  | truth value n =>
    intro y z
    cases y with
    | truth other m =>
      cases z with
      | truth third k => exact (Chain.of_transCmp value other third).then (.of_transCmp n m k)
      | symbol => constructor <;> simp [order]
      | join => constructor <;> simp [order]
    | symbol => cases z <;> constructor <;> simp [order]
    | join => cases z <;> constructor <;> simp [order]
  | symbol name n =>
    intro y z
    cases y with
    | truth => cases z <;> constructor <;> simp [order]
    | symbol other m =>
      cases z with
      | truth => constructor <;> simp [order]
      | symbol third k => exact (Chain.of_transCmp name other third).then (.of_transCmp n m k)
      | join => constructor <;> simp [order]
    | join => cases z <;> constructor <;> simp [order]
  | join op xs n ih =>
    intro y z
    cases y with
    | truth => cases z <;> constructor <;> simp [order]
    | symbol => cases z <;> constructor <;> simp [order]
    | join other ys m =>
      cases z with
      | truth => constructor <;> simp [order]
      | symbol => constructor <;> simp [order]
      | join third zs k =>
        have hop : Chain (compare op other) (compare other third) (compare op third) := by
          cases op <;> cases other <;> cases third <;> constructor <;> decide
        exact hop.then ((Chain.of_transCmp xs.length ys.length zs.length).then
          ((chain_orderAll ih ys zs).then (.of_transCmp n m k)))

instance : Std.TransOrd Shape where
  eq_swap {x y} := order_swap x y
  isLE_trans {x y z} hxy hyz := by
    obtain ⟨hfirst, hsecond, hlt⟩ := chain_order x y z
    rw [Ordering.isLE_iff_eq_lt_or_eq_eq] at hxy hyz ⊢
    rcases hxy with hxy | hxy
    · rcases hyz with hyz | hyz
      · exact .inl (hlt hxy hyz)
      · exact .inl ((hsecond hyz).trans hxy)
    · rwa [compare_def, hfirst hxy]

/-! ### Equality -/

theorem eq_of_orderAll {xs : List Shape} (heq : ∀ x ∈ xs, ∀ y, order x y = .eq → x = y) :
    ∀ ys, orderAll xs ys = .eq → xs = ys := by
  induction xs with
  | nil => intro ys; cases ys <;> simp [orderAll]
  | cons x xs ih =>
    intro ys h
    cases ys with
    | nil => simp [orderAll] at h
    | cons y ys =>
      obtain ⟨hhead, htail⟩ := Ordering.then_eq_eq.mp h
      rw [heq x List.mem_cons_self y hhead,
        ih (fun z hz ↦ heq z (List.mem_cons_of_mem _ hz)) ys htail]

/-- Only equal shapes compare equal. -/
theorem eq_of_compare (x : Shape) : ∀ y, compare x y = .eq → x = y := by
  induction x using Shape.induct with
  | truth value n =>
    intro y h
    cases y with
    | truth other m =>
      obtain ⟨hvalue, hcount⟩ := Ordering.then_eq_eq.mp h
      rw [Std.LawfulEqCmp.eq_of_compare hvalue, Std.LawfulEqCmp.eq_of_compare hcount]
    | symbol => cases h
    | join => cases h
  | symbol name n =>
    intro y h
    cases y with
    | truth => cases h
    | symbol other m =>
      obtain ⟨hname, hcount⟩ := Ordering.then_eq_eq.mp h
      rw [Std.LawfulEqCmp.eq_of_compare hname, Std.LawfulEqCmp.eq_of_compare hcount]
    | join => cases h
  | join op xs n ih =>
    intro y h
    cases y with
    | truth => cases h
    | symbol => cases h
    | join other ys m =>
      obtain ⟨hop, h⟩ := Ordering.then_eq_eq.mp h
      obtain ⟨-, h⟩ := Ordering.then_eq_eq.mp h
      obtain ⟨hoperands, hcount⟩ := Ordering.then_eq_eq.mp h
      have hop : op = other := by
        revert hop
        cases op <;> cases other <;> decide
      rw [hop, eq_of_orderAll ih ys hoperands, Std.LawfulEqCmp.eq_of_compare hcount]

/-! ### Leading negations -/

/-- The number of negations of a shape. -/
def negations : Shape → Nat
  | truth _ n => n
  | symbol _ n => n
  | join _ _ n => n

theorem negations_negate (x : Shape) : x.negate.negations = x.negations + 1 := by
  cases x <;> rfl

theorem negate_injective {x y : Shape} (h : x.negate = y.negate) : x = y := by
  cases x <;> cases y <;> simp_all [negate]

/-- Shapes that are sorted to the same list are arrangements of each other. -/
theorem perm_of_mergeSort_eq {xs ys : List Shape}
    (hsorted : (xs.mergeSort fun x y ↦ (compare x y).isLE) =
      ys.mergeSort fun x y ↦ (compare x y).isLE) : xs.Perm ys :=
  (List.mergeSort_perm xs _).symm.trans (hsorted ▸ List.mergeSort_perm ys _)

end Shape

namespace Expr

instance : Std.TransOrd Expr :=
  inferInstanceAs (Std.TransCmp (compareOn Expr.shape))

theorem shape_eq_of_compare {x y : Expr} (h : compare x y = .eq) : x.shape = y.shape :=
  Shape.eq_of_compare _ _ h

theorem shapes_eq_map (es : List Expr) : shapes es = es.map shape := by
  induction es with
  | nil => rfl
  | cons e rest ih => rw [shapes, ih, List.map_cons]

/-! ### Expressions of one shape -/

variable {assignment : Symbol → Bool}

theorem shape_join (mode : Mode) (op : Connective) (es : List Expr) : (join mode op es).shape =
    .join op ((es.map shape).mergeSort fun x y ↦ (compare x y).isLE) 0 := by
  rw [shape, shapes_eq_map]

theorem shape_not_ne {x y : Expr} (hx : x.shape.negations = 0) {mode : Mode} :
    x.shape ≠ (not mode y).shape := by
  intro h
  rw [h, shape, Shape.negations_negate] at hx
  cases hx

/-- Every operand of a join has the shape of some operand of a join of the same shape. -/
theorem exists_mem_shape_eq {es fs : List Expr}
    (h : ((es.map shape).mergeSort fun x y ↦ (compare x y).isLE) =
      (fs.map shape).mergeSort fun x y ↦ (compare x y).isLE) {e : Expr} (he : e ∈ es) :
    ∃ f ∈ fs, e.shape = f.shape := by
  have hperm : (es.map shape).Perm (fs.map shape) := Shape.perm_of_mergeSort_eq h
  obtain ⟨f, hf, hshape⟩ := List.mem_map.mp (hperm.mem_iff.mp (List.mem_map_of_mem he))
  exact ⟨f, hf, hshape.symm⟩

/-- Joins have the same value, each under an assignment of its own, when every operand of either has
the value of some operand of the other. -/
theorem holds_join_congr {first second : Symbol → Bool} {op : Connective} {mode mode' : Mode}
    {es fs : List Expr} (hes : ∀ e ∈ es, ∃ f ∈ fs, e.holds first = f.holds second)
    (hfs : ∀ f ∈ fs, ∃ e ∈ es, e.holds first = f.holds second) :
    (join mode op es).holds first = (join mode' op fs).holds second := by
  have hany : ∀ value, (∃ e ∈ es, e.holds first = value) ↔
      ∃ f ∈ fs, f.holds second = value := by
    intro value
    constructor
    · rintro ⟨e, he, rfl⟩
      obtain ⟨f, hf, heq⟩ := hes e he
      exact ⟨f, hf, heq.symm⟩
    · rintro ⟨f, hf, rfl⟩
      exact hfs f hf
  cases op with
  | and =>
    have hall : ∀ (assignment : Symbol → Bool) (gs : List Expr),
        gs.all (holds assignment) = true ↔ ¬ ∃ e ∈ gs, e.holds assignment = false := by simp
    rw [holds_join_and, holds_join_and, Bool.eq_iff_iff, hall, hall, hany false]
  | or =>
    rw [holds_join_or, holds_join_or, Bool.eq_iff_iff, List.any_eq_true, List.any_eq_true]
    exact hany true

/-- Operands may be replaced by others of the same value. -/
theorem holds_join_map {first second : Symbol → Bool} {op : Connective} {mode mode' : Mode}
    {es : List Expr} {change : Expr → Expr}
    (hchange : ∀ e ∈ es, (change e).holds first = e.holds second) :
    (join mode op (es.map change)).holds first = (join mode' op es).holds second := by
  refine holds_join_congr (fun e he ↦ ?_) fun e he ↦ ?_
  · obtain ⟨operand, hoperand, rfl⟩ := List.mem_map.mp he
    exact ⟨operand, hoperand, hchange operand hoperand⟩
  · exact ⟨change e, List.mem_map_of_mem he, hchange e he⟩

/-- Expressions of one shape have the same value. -/
theorem holds_eq_of_shape_eq (x : Expr) :
    ∀ y : Expr, x.shape = y.shape → x.holds assignment = y.holds assignment := by
  induction x using Expr.induct with
  | truth value =>
    intro y h
    cases y with
    | truth other =>
      cases h
      rfl
    | symbol => cases h
    | not => exact absurd h (shape_not_ne rfl)
    | join => cases h
  | symbol name =>
    intro y h
    cases y with
    | truth => cases h
    | symbol other =>
      cases h
      rfl
    | not => exact absurd h (shape_not_ne rfl)
    | join => cases h
  | not mode operand ih =>
    intro y h
    cases y with
    | not other e => rw [holds_not, holds_not, ih e (Shape.negate_injective h)]
    | truth => exact absurd h.symm (shape_not_ne rfl)
    | symbol => exact absurd h.symm (shape_not_ne rfl)
    | join => exact absurd h.symm (shape_not_ne rfl)
  | join mode op operands ih =>
    intro y h
    cases y with
    | truth => cases h
    | symbol => cases h
    | not => exact absurd h (shape_not_ne rfl)
    | join other child fs =>
      rw [shape_join, shape_join, Shape.join.injEq] at h
      obtain ⟨rfl, hsorted, -⟩ := h
      refine holds_join_congr (fun e he ↦ ?_) fun f hf ↦ ?_
      · obtain ⟨f, hf, hshape⟩ := exists_mem_shape_eq hsorted he
        exact ⟨f, hf, ih e he f hshape⟩
      · obtain ⟨e, he, hshape⟩ := exists_mem_shape_eq hsorted.symm hf
        exact ⟨e, he, ih e he f hshape.symm⟩

/-- Expressions that compare equal have the same value. -/
theorem holds_eq_of_compare {x y : Expr} (h : compare x y = .eq) :
    x.holds assignment = y.holds assignment :=
  holds_eq_of_shape_eq x y (shape_eq_of_compare h)

/-- Sorting operands without repetitions keeps the value of their join. -/
theorem holds_join_distinct (mode mode' : Mode) (op : Connective) (es : List Expr) :
    (join mode op (distinct es)).holds assignment = (join mode' op es).holds assignment := by
  refine holds_join_congr (fun e he ↦ ⟨e, mem_of_mem_sortDistinct he, rfl⟩) fun e he ↦ ?_
  obtain ⟨kept, hkept, hequal⟩ : ∃ kept ∈ distinct es, compare kept e = .eq :=
    exists_mem_sortDistinct he
  exact ⟨kept, hkept, holds_eq_of_compare hequal⟩

end Expr

end SwitchingAlgebra
