import Mathlib
import SwitchingAlgebra.Proofs.Rearrangement
import SwitchingAlgebra.Proofs.Sizes
import SwitchingAlgebra.Proofs.Symmetries
import SwitchingAlgebra.Proofs.TransformationSteps

/-!
# Evaluation and renamed symbols

A renaming that increases on the symbols of some expressions keeps the canonical order on them, at
every depth. The columns of a renamed two-level form are the renamed columns, in the same places, so
its cover is the same and every cube stands for the renamed term. Whatever order, cover and final
arrangement evaluation chooses, it chooses by the places of the symbols and not by the symbols
themselves.

Main statements: renaming keeps the canonical order (`compare_rename`), the minimum cover of renamed
operands has the renamed terms (`terms_minimum_rename`), and evaluation commutes with an increasing
renaming (`symmetry_rename`, `Settled.eval_rename`).
-/

set_option autoImplicit false
set_option relaxedAutoImplicit false

namespace SwitchingAlgebra

open Policy

variable {P : Symbol → Prop} {r : Symbol → Symbol} {op : Connective} {d e : Expr}
  {es fs : List Expr} {assignment : Symbol → Bool}

/-! ### Increasing renamings -/

/-- The renaming keeps the order of the symbols with the property. -/
def IncreasingOn (P : Symbol → Prop) (r : Symbol → Symbol) : Prop :=
  ∀ s t, P s → P t → compare s t = .lt → compare (r s) (r t) = .lt

theorem IncreasingOn.compare_eq (hr : IncreasingOn P r) {s t : Symbol} (hs : P s) (ht : P t) :
    compare (r s) (r t) = compare s t := by
  cases horder : compare s t with
  | lt => exact hr s t hs ht horder
  | eq =>
    rw [Std.LawfulEqOrd.eq_of_compare horder]
    exact Std.ReflCmp.compare_self
  | gt =>
    rw [Std.OrientedCmp.gt_iff_lt] at horder ⊢
    exact hr t s ht hs horder

theorem IncreasingOn.injective (hr : IncreasingOn P r) {s t : Symbol} (hs : P s) (ht : P t)
    (heq : r s = r t) : s = t := by
  have hequal : compare (r s) (r t) = .eq := by
    rw [heq]
    exact Std.ReflCmp.compare_self
  rw [hr.compare_eq hs ht] at hequal
  exact Std.LawfulEqOrd.eq_of_compare hequal

/-! ### Renamed terms -/

namespace Term

/-- The term with its symbols renamed. -/
def rename (r : Symbol → Symbol) (t : Term) : Term :=
  t.map fun l ↦ ⟨r l.symbol, l.positive⟩

@[simp]
theorem rename_eq_nil_iff {t : Term} : t.rename r = [] ↔ t = [] :=
  List.map_eq_nil_iff

theorem holds_rename (r : Symbol → Symbol) (t : Term) :
    (t.rename r).holds assignment .and = t.holds (assignment ∘ r) .and := by
  rw [holds, holds, rename, List.all_map]
  rfl

theorem Increasing.rename {t : Term} (hr : IncreasingOn P r) (ht : t.Increasing)
    (hsymbols : t.MentionsOnly P) : (t.rename r).Increasing := by
  refine List.pairwise_map.mpr (List.Pairwise.imp_of_mem (fun hl hm hlt ↦ ?_) ht)
  exact hr _ _ (hsymbols _ hl) (hsymbols _ hm) hlt

/-- A renamed symbol has the polarity in the renamed term that the symbol has in the term. -/
theorem polarity?_rename (hr : IncreasingOn P r) {t : Term} (hsymbols : t.MentionsOnly P)
    {s : Symbol} (hs : P s) : (t.rename r).polarity? (r s) = t.polarity? s := by
  have hfind : t.find? (fun l ↦ r l.symbol == r s) = t.find? (fun l ↦ l.symbol == s) := by
    refine List.find?_congr fun l hl ↦ ?_
    rw [Bool.eq_iff_iff, beq_iff_eq, beq_iff_eq]
    exact ⟨hr.injective (hsymbols l hl) hs, congrArg r⟩
  rw [polarity?, polarity?, rename, List.find?_map, Option.map_map, ← hfind]
  rfl

end Term

/-! ### Renamed two-level forms -/

namespace TwoLevel

variable {form : TwoLevel}

/-- The form with the symbols of its columns and of its terms renamed. -/
def rename (r : Symbol → Symbol) (form : TwoLevel) : TwoLevel :=
  ⟨form.symbols.map r, form.terms.map (Term.rename r)⟩

theorem WellFormed.mentionsOnly (hform : form.WellFormed) (hsymbols : ∀ s ∈ form.symbols, P s)
    {t : Term} (ht : t ∈ form.terms) : t.MentionsOnly P := fun l hl ↦
  hsymbols l.symbol (hform.mem_symbols t ht l hl)

theorem WellFormed.rename (hr : IncreasingOn P r) (hform : form.WellFormed)
    (hsymbols : ∀ s ∈ form.symbols, P s) : (form.rename r).WellFormed where
  increasing := List.pairwise_map.mpr (List.Pairwise.imp_of_mem
    (fun hs ht hlt ↦ hr _ _ (hsymbols _ hs) (hsymbols _ ht) hlt) hform.increasing)
  increasing_terms := List.forall_mem_map.mpr fun t ht ↦
    (hform.increasing_terms t ht).rename hr (hform.mentionsOnly hsymbols ht)
  mem_symbols := List.forall_mem_map.mpr fun t ht ↦ List.forall_mem_map.mpr fun l hl ↦
    List.mem_map_of_mem (hform.mem_symbols t ht l hl)

/-- The cover of a renamed form is the cover of the form. -/
theorem cover_rename (hr : IncreasingOn P r) (hform : form.WellFormed)
    (hsymbols : ∀ s ∈ form.symbols, P s) : (form.rename r).cover = form.cover := by
  have hcube : ∀ t ∈ form.terms, (form.rename r).cube (t.rename r) = form.cube t := by
    intro t ht
    rw [cube, cube, rename, List.map_map]
    refine congrArg Cube.mk (List.map_congr_left fun s hs ↦ ?_)
    exact Term.polarity?_rename hr (hform.mentionsOnly hsymbols ht) (hsymbols s hs)
  have hcubes : (form.rename r).terms.map (form.rename r).cube = form.terms.map form.cube := by
    show (form.terms.map (Term.rename r)).map (form.rename r).cube = _
    rw [List.map_map]
    exact List.map_congr_left hcube
  have hwidth : (form.rename r).symbols.length = form.symbols.length := List.length_map _
  rw [cover, cover, hcubes, hwidth]

/-- A cube stands for the renamed term over the renamed columns. -/
theorem term_rename (r : Symbol → Symbol) (form : TwoLevel) (c : Cube) :
    (form.rename r).term c = (form.term c).rename r := by
  rw [term, term, Term.rename, rename, List.zip_map_left, List.filterMap_map, List.map_filterMap]
  refine List.filterMap_congr fun column _ ↦ ?_
  simp [Function.comp_def]

theorem sum_rename (r : Symbol → Symbol) (form : TwoLevel) :
    (form.rename r).sum assignment = form.sum (assignment ∘ r) := by
  have hholds : Term.holds assignment .and ∘ Term.rename r = Term.holds (assignment ∘ r) .and :=
    funext (Term.holds_rename r)
  rw [sum, sum, Term.allHold, Term.allHold, rename, List.any_map, hholds]

end TwoLevel

namespace Expr

/-! ### Renamed expressions -/

mutual

/-- The expression with its symbols renamed. -/
def rename (r : Symbol → Symbol) : Expr → Expr
  | truth value => truth value
  | symbol name => symbol (r name)
  | not mode operand => not mode (operand.rename r)
  | join mode op operands => join mode op (renameAll r operands)

/-- The expressions with their symbols renamed. -/
def renameAll (r : Symbol → Symbol) : List Expr → List Expr
  | [] => []
  | e :: rest => e.rename r :: renameAll r rest

end

theorem renameAll_eq_map (r : Symbol → Symbol) (es : List Expr) :
    renameAll r es = es.map (rename r) := by
  induction es with
  | nil => rw [renameAll, List.map_nil]
  | cons e rest ih => rw [renameAll, ih, List.map_cons]

theorem rename_join (r : Symbol → Symbol) (mode : Mode) (op : Connective) (es : List Expr) :
    (join mode op es).rename r = join mode op (es.map (rename r)) := by
  rw [rename, renameAll_eq_map]

theorem nodeMap_rename (r : Symbol → Symbol) : NodeMap id id (rename r) where
  truth value := by rw [rename, id]
  symbol s := ⟨r s, by rw [rename]⟩
  not mode e := by rw [rename]
  join := rename_join r
  turn_injective := Function.injective_id
  flip_not _ := rfl
  identity _ := rfl

/-- A renamed expression has the value of the expression when each symbol has the value of the one
that it is renamed to. -/
theorem holds_rename (r : Symbol → Symbol) (e : Expr) :
    (e.rename r).holds assignment = e.holds (assignment ∘ r) := by
  induction e using Expr.induct with
  | truth value => rw [rename, holds_truth, holds_truth]
  | symbol name => rw [rename, holds_symbol, holds_symbol, Function.comp_apply]
  | not mode operand ih => rw [rename, holds_not, holds_not, ih]
  | join mode op operands ih =>
    rw [rename_join]
    exact holds_join_map ih

/-! ### The canonical order -/

theorem core_rename (r : Symbol → Symbol) (e : Expr) : (e.rename r).core = e.core.rename r := by
  induction e using Expr.induct with
  | truth value => simp [rename, core]
  | symbol name => simp [rename, core]
  | not mode operand ih => rw [rename, core, core, ih]
  | join mode op operands => exact (rename_join r mode op operands).symm ▸ rfl

theorem negations_rename (r : Symbol → Symbol) (e : Expr) :
    (e.rename r).negations = e.negations := by
  induction e using Expr.induct with
  | truth value => rw [rename]
  | symbol name => simp [rename, negations]
  | not mode operand ih => rw [rename, negations, negations, ih]
  | join mode op operands => simp [rename, negations]

theorem core_ne_not (e : Expr) (mode : Mode) (operand : Expr) : e.core ≠ .not mode operand := by
  induction e using Expr.induct with
  | not _ _ ih => rwa [core]
  | _ => simp [core]

/-- Lists compare alike when their elements do. -/
theorem compare_map {f : Expr → Expr}
    (hcompare : ∀ d ∈ es, ∀ e ∈ fs, compare (f d) (f e) = compare d e) :
    compare (es.map f) (fs.map f) = compare es fs := by
  rw [List.compare_eq_compareLex]
  induction es generalizing fs with
  | nil => cases fs <;> rfl
  | cons d es ih =>
    cases fs with
    | nil => rfl
    | cons e fs =>
      have hrest : ∀ x ∈ es, ∀ y ∈ fs, compare (f x) (f y) = compare x y := fun x hx y hy ↦
        hcompare x (List.mem_cons_of_mem _ hx) y (List.mem_cons_of_mem _ hy)
      rw [List.map_cons, List.map_cons, List.compareLex_cons_cons, List.compareLex_cons_cons,
        ih hrest, hcompare d List.mem_cons_self e List.mem_cons_self]

/-- A renaming that keeps the order of the operands of two joins keeps the order of the joins. -/
theorem compare_join_rename {mode mode' : Mode} {op other : Connective}
    (hoperands : ∀ x ∈ es ++ fs, ∀ y ∈ es ++ fs,
      compare (x.rename r) (y.rename r) = compare x y) :
    compare ((join mode op es).rename r) ((join mode' other fs).rename r) =
      compare (join mode op es) (join mode' other fs) := by
  have hsorted : ∀ gs ⊆ es ++ fs,
      sorted (gs.map (rename r)) = (sorted gs).map (rename r) := fun gs hgs ↦
    (List.map_mergeSort fun x hx y hy ↦ by rw [hoperands x (hgs hx) y (hgs hy)]).symm
  have hes := List.subset_append_left es fs
  have hfs := List.subset_append_right es fs
  have hlists : compare ((sorted es).map (rename r)) ((sorted fs).map (rename r)) =
      compare (sorted es) (sorted fs) := compare_map fun x hx y hy ↦
    hoperands x (hes (List.mem_mergeSort.mp hx)) y (hfs (List.mem_mergeSort.mp hy))
  rw [rename_join, rename_join, compare_join, compare_join, List.length_map, List.length_map,
    hsorted es hes, hsorted fs hfs, hlists]

/-- An increasing renaming keeps the canonical order. The operands of both expressions are sorted
before they are compared, so the induction is on a bound of the sizes of both. -/
theorem compare_rename_of_size_le (hr : IncreasingOn P r) (bound : Nat) : ∀ d e : Expr,
    d.size ≤ bound → e.size ≤ bound → d.MentionsOnly P → e.MentionsOnly P →
      compare (d.rename r) (e.rename r) = compare d e := by
  induction bound with
  | zero => exact fun d _ hd ↦ absurd hd (Nat.not_le_of_lt d.size_pos)
  | succ bound ih =>
    intro d e hd he hdOnly heOnly
    rw [compare_eq_then, compare_eq_then d, core_rename, core_rename, negations_rename,
      negations_rename]
    refine congrArg (Ordering.then · _) ?_
    have hdcore := d.size_core_le.trans hd
    have hecore := e.size_core_le.trans he
    have hdOnly := inherits_core MentionsOnly.of_mem_operands d hdOnly
    have heOnly := inherits_core MentionsOnly.of_mem_operands e heOnly
    have hdnot := d.core_ne_not
    have henot := e.core_ne_not
    generalize d.core = c at hdcore hdOnly hdnot
    generalize e.core = c' at hecore heOnly henot
    match c, c' with
    | .not mode operand, _ => exact absurd rfl (hdnot mode operand)
    | _, .not mode operand => exact absurd rfl (henot mode operand)
    -- Different kinds are told apart whatever the symbols are.
    | .truth _, .truth _ => simp only [rename]
    | .truth _, .symbol _ | .truth _, .join _ _ _ | .symbol _, .truth _ | .symbol _, .join _ _ _
    | .join _ _ _, .truth _ | .join _ _ _, .symbol _ => simp only [rename]; rfl
    | .symbol s, .symbol t =>
      have horder : compare (r s) (r t) = compare s t :=
        hr.compare_eq (mentionsOnly_symbol_iff.mp hdOnly) (mentionsOnly_symbol_iff.mp heOnly)
      simp only [rename]
      exact congrArg (Ordering.then · (compare 0 0)) horder
    | .join mode op es, .join mode' other fs =>
      have hpart : ∀ x ∈ es ++ fs, x.size ≤ bound ∧ x.MentionsOnly P := by
        intro x hx
        rcases List.mem_append.mp hx with hx | hx
        · exact ⟨Nat.le_of_lt_succ ((size_lt_of_mem_operands hx).trans_le hdcore),
            hdOnly.of_mem_operands hx⟩
        · exact ⟨Nat.le_of_lt_succ ((size_lt_of_mem_operands hx).trans_le hecore),
            heOnly.of_mem_operands hx⟩
      exact compare_join_rename fun x hx y hy ↦
        ih x y (hpart x hx).1 (hpart y hy).1 (hpart x hx).2 (hpart y hy).2

theorem compare_rename (hr : IncreasingOn P r) (hd : d.MentionsOnly P) (he : e.MentionsOnly P) :
    compare (d.rename r) (e.rename r) = compare d e :=
  compare_rename_of_size_le hr (max d.size e.size) d e (le_max_left _ _) (le_max_right _ _) hd he

/-! ### Evaluation -/

/-- The minimum cover of renamed operands has the renamed terms of that of the operands. -/
theorem terms_minimum_rename (hr : IncreasingOn P r) (hes : ∀ e ∈ es, e.MentionsOnly P) :
    (TwoLevel.ofOperands op (es.map (rename r))).termsOf
        (TwoLevel.ofOperands op (es.map (rename r))).cover.minimum =
      ((TwoLevel.ofOperands op es).termsOf (TwoLevel.ofOperands op es).cover.minimum).map
        (Term.rename r) := by
  have hform := TwoLevel.wellFormed_ofOperands op es
  have hsymbols := @forall_mem_symbols_ofOperands P op es hes
  have hsum : (TwoLevel.ofOperands op (es.map (rename r))).sum =
      ((TwoLevel.ofOperands op es).rename r).sum := by
    ext assignment
    rw [TwoLevel.sum_rename, ← @Connective.orient_orient op assignment]
    have horient : op.orient (op.orient assignment) ∘ r = op.orient (op.orient assignment ∘ r) :=
      rfl
    rw [horient, TwoLevel.sum_ofOperands .raw, TwoLevel.sum_ofOperands .raw, ← holds_rename,
      rename_join]
  rw [TwoLevel.terms_minimum_eq (TwoLevel.wellFormed_ofOperands op _) (hform.rename hr hsymbols)
    hsum, TwoLevel.cover_rename hr hform hsymbols, TwoLevel.termsOf, TwoLevel.termsOf,
    List.map_map]
  exact List.map_congr_left fun c _ ↦ TwoLevel.term_rename r _ c

theorem map_rename_literalsOf (r : Symbol → Symbol) (t : Term) :
    (standard.literalsOf t).map (rename r) = standard.literalsOf (t.rename r) := by
  rw [literalsOf, literalsOf, Term.rename, List.map_map, List.map_map]
  refine List.map_congr_left fun l _ ↦ ?_
  obtain ⟨s, positive⟩ := l
  cases positive <;> simp [literal, rename]

/-- A clause is renamed by renaming its term. -/
theorem rename_term (r : Symbol → Symbol) (op : Connective) (t : Term) :
    (standard.term op (standard.literalsOf t)).rename r =
      standard.term op (standard.literalsOf (t.rename r)) := by
  rw [← map_rename_literalsOf]
  generalize standard.literalsOf t = ls
  match ls with
  | [] => simp [term, rename]
  | [l] => rfl
  | l :: m :: rest => exact rename_join r .evaluated op.dual (l :: m :: rest)

/-- A renaming that increases on some symbols is a symmetry of the expressions in them. -/
theorem symmetry_rename (hr : IncreasingOn P r) : Symmetry P id id (rename r) where
  toNodeMap := nodeMap_rename r
  injective {d e} hd he hdOnly heOnly heq := by
    refine hd.eq_of_compare he ?_
    rw [← compare_rename hr hdOnly heOnly, heq]
    exact Std.ReflCmp.compare_self
  minimize {op es} hes := by
    have hsymbols := @forall_mem_symbols_ofOperands P op es hes
    refine (nodeMap_rename r).minimize_eq (Term.rename r) (terms_minimum_rename hr hes)
      (fun _ ↦ Term.rename_eq_nil_iff) (fun t ↦ (rename_term r op t).symm) fun t ht u hu ↦ ?_
    exact compare_rename hr (mentionsOnly_clause (mentionsOnly_of_mem_termsOf hsymbols ht))
      (mentionsOnly_clause (mentionsOnly_of_mem_termsOf hsymbols hu))

/-- Evaluation commutes with a renaming that increases on the symbols of the expression. -/
theorem Settled.eval_rename (he : e.Settled) (hr : IncreasingOn (· ∈ e.symbols) r) :
    (e.rename r).eval = e.eval.rename r :=
  (symmetry_rename hr).eval he fun _ hs ↦ mem_sortDistinct.mpr hs

end Expr

end SwitchingAlgebra
