import Mathlib
import SwitchingAlgebra.Sorting

/-!
# What sorting and dropping repetitions keeps

Lists that strictly increase are equal when they have the same elements, and a sorted list without
repetitions takes no more room than the list it is made from. Every element of that list compares
equal to one that is kept. A map that keeps the comparisons of the elements may be applied before
or after the list is sorted.
-/

set_option autoImplicit false
set_option relaxedAutoImplicit false

namespace SwitchingAlgebra

variable {α : Type}

/-- Lists that increase in an asymmetric relation are equal when they have the same elements. -/
theorem eq_of_pairwise_of_mem_iff {increases : α → α → Prop}
    (hasymm : ∀ x y, increases x y → ¬ increases y x) {xs ys : List α}
    (hxs : xs.Pairwise increases) (hys : ys.Pairwise increases) (hmem : ∀ x, x ∈ xs ↔ x ∈ ys) :
    xs = ys := by
  have hne : ∀ {x y : α}, increases x y → x ≠ y := by
    rintro x _ hxy rfl
    exact hasymm x x hxy hxy
  have hperm : xs.Perm ys :=
    (List.perm_ext_iff_of_nodup (hxs.imp hne) (hys.imp hne)).mpr hmem
  exact hperm.eq_of_pairwise (fun x y _ _ hxy hyx ↦ absurd hyx (hasymm x y hxy)) hxs hys

theorem asymm_of_orientedCmp {cmp : α → α → Ordering} [Std.OrientedCmp cmp] (x y : α)
    (hxy : cmp x y = .lt) : ¬ cmp y x = .lt :=
  Std.OrientedCmp.not_lt_of_lt hxy

theorem nodup_of_pairwise_lt {cmp : α → α → Ordering} [Std.OrientedCmp cmp] {xs : List α}
    (hxs : xs.Pairwise fun x y ↦ cmp x y = .lt) : xs.Nodup :=
  hxs.imp fun {x y} hlt heq ↦ by
    subst heq
    exact asymm_of_orientedCmp x x hlt hlt

/-! ### Dropping repetitions -/

variable {cmp : α → α → Ordering}

theorem dropRepeatsAfter_sublist :
    ∀ (previous : α) (xs : List α), (dropRepeatsAfter cmp previous xs).Sublist xs := by
  intro previous xs
  induction xs generalizing previous with
  | nil => exact List.Sublist.slnil
  | cons x rest ih =>
    unfold dropRepeatsAfter
    split_ifs
    · exact (ih previous).cons x
    · exact (ih x).cons_cons x

/-- Some arrangement of the sorted list without repetitions is part of the list. -/
theorem sortDistinct_subperm (xs : List α) : (sortDistinct cmp xs).Subperm xs := by
  have hsublist : (sortDistinct cmp xs).Sublist (xs.mergeSort fun x y ↦ (cmp x y).isLE) := by
    unfold sortDistinct
    cases xs.mergeSort fun x y ↦ (cmp x y).isLE with
    | nil => exact List.Sublist.slnil
    | cons x rest => exact (dropRepeatsAfter_sublist x rest).cons_cons x
  exact hsublist.subperm.trans (List.mergeSort_perm xs _).subperm

theorem length_sortDistinct_le (xs : List α) : (sortDistinct cmp xs).length ≤ xs.length :=
  (sortDistinct_subperm xs).length_le

theorem sum_map_sortDistinct_le (weight : α → Nat) (xs : List α) :
    ((sortDistinct cmp xs).map weight).sum ≤ (xs.map weight).sum := by
  obtain ⟨part, hperm, hsublist⟩ : (sortDistinct cmp xs).Subperm xs := sortDistinct_subperm xs
  rw [← (hperm.map weight).sum_eq]
  exact (hsublist.map weight).sum_le_sum fun _ _ ↦ Nat.zero_le _

/-- Every element compares equal to one that is kept. -/
theorem exists_mem_sortDistinct [Std.ReflCmp cmp] {xs : List α} {x : α} (hx : x ∈ xs) :
    ∃ y ∈ sortDistinct cmp xs, cmp y x = .eq := by
  have hafter : ∀ (rest : List α) (previous : α), x ∈ previous :: rest →
      ∃ y ∈ previous :: dropRepeatsAfter cmp previous rest, cmp y x = .eq := by
    intro rest
    induction rest with
    | nil =>
      intro previous hmem
      obtain rfl := List.mem_singleton.mp hmem
      exact ⟨x, List.mem_cons_self, Std.ReflCmp.compare_self⟩
    | cons z rest ih =>
      intro previous hmem
      unfold dropRepeatsAfter
      rcases List.mem_cons.mp hmem with rfl | hmem
      · exact ⟨x, List.mem_cons_self, Std.ReflCmp.compare_self⟩
      split_ifs with hequal
      · rcases List.mem_cons.mp hmem with rfl | hmem
        · exact ⟨previous, List.mem_cons_self, hequal⟩
        · exact ih previous (List.mem_cons_of_mem _ hmem)
      · obtain ⟨y, hy, hyx⟩ := ih z hmem
        exact ⟨y, List.mem_cons_of_mem _ hy, hyx⟩
  have hsorted : x ∈ xs.mergeSort fun x y ↦ (cmp x y).isLE := List.mem_mergeSort.mpr hx
  unfold sortDistinct
  revert hsorted
  cases xs.mergeSort fun x y ↦ (cmp x y).isLE with
  | nil => exact fun hmem ↦ absurd hmem List.not_mem_nil
  | cons y rest => exact hafter rest y

/-- A strictly increasing list is what sorting any list of its elements without repetitions
gives. -/
theorem sortDistinct_eq_of_pairwise [Std.TransCmp cmp] {xs ys : List α}
    (hys : ys.Pairwise fun x y ↦ cmp x y = .lt) (hmem : ∀ x, x ∈ xs ↔ x ∈ ys) :
    sortDistinct cmp xs = ys := by
  have hself : ∀ x ∈ ys, ∀ y ∈ ys, cmp x y = .eq → x = y := by
    refine List.Pairwise.forall_of_forall_of_flip (fun _ _ _ ↦ rfl) (hys.imp ?_) (hys.imp ?_)
    · intro x y hlt hequal
      rw [hlt] at hequal
      cases hequal
    · intro x y hlt hequal
      rw [Std.OrientedCmp.eq_comm, hlt] at hequal
      cases hequal
  refine eq_of_pairwise_of_mem_iff asymm_of_orientedCmp (pairwise_sortDistinct xs) hys fun x ↦ ?_
  constructor
  · exact fun hx ↦ (hmem x).mp (mem_of_mem_sortDistinct hx)
  · intro hx
    obtain ⟨y, hy, hequal⟩ : ∃ y ∈ sortDistinct cmp xs, cmp y x = .eq :=
      exists_mem_sortDistinct ((hmem x).mpr hx)
    rwa [← hself y ((hmem y).mp (mem_of_mem_sortDistinct hy)) x hx hequal]

/-! ### Mapped elements -/

variable {β : Type} {cmp' : β → β → Ordering} {f : α → β}

theorem dropRepeatsAfter_map {previous : α} {xs : List α}
    (hcmp : ∀ x ∈ previous :: xs, ∀ y ∈ previous :: xs, cmp' (f x) (f y) = cmp x y) :
    dropRepeatsAfter cmp' (f previous) (xs.map f) = (dropRepeatsAfter cmp previous xs).map f := by
  induction xs generalizing previous with
  | nil => rfl
  | cons x rest ih =>
    have hfirst : cmp' (f previous) (f x) = cmp previous x :=
      hcmp previous List.mem_cons_self x (List.mem_cons_of_mem _ List.mem_cons_self)
    have hskip : previous :: rest ⊆ previous :: x :: rest :=
      List.cons_subset_cons _ (List.subset_cons_self x rest)
    have htail : x :: rest ⊆ previous :: x :: rest := List.subset_cons_self _ _
    rw [List.map_cons, dropRepeatsAfter, dropRepeatsAfter, hfirst]
    split_ifs
    · exact ih fun y hy z hz ↦ hcmp y (hskip hy) z (hskip hz)
    · rw [List.map_cons, ih fun y hy z hz ↦ hcmp y (htail hy) z (htail hz)]

/-- A map that keeps the comparisons of the elements may be applied before or after they are sorted
without repetitions. -/
theorem sortDistinct_map {xs : List α} (hcmp : ∀ x ∈ xs, ∀ y ∈ xs, cmp' (f x) (f y) = cmp x y) :
    sortDistinct cmp' (xs.map f) = (sortDistinct cmp xs).map f := by
  have hsorted : (xs.map f).mergeSort (fun x y ↦ (cmp' x y).isLE) =
      (xs.mergeSort fun x y ↦ (cmp x y).isLE).map f :=
    (List.map_mergeSort fun x hx y hy ↦ by rw [hcmp x hx y hy]).symm
  have hmem : ∀ x ∈ xs.mergeSort (fun x y ↦ (cmp x y).isLE), x ∈ xs := fun _ hx ↦
    List.mem_mergeSort.mp hx
  rw [sortDistinct, sortDistinct, hsorted]
  generalize xs.mergeSort (fun x y ↦ (cmp x y).isLE) = sorted at hmem
  cases sorted with
  | nil => rfl
  | cons x rest =>
    exact congrArg (f x :: ·)
      (dropRepeatsAfter_map fun y hy z hz ↦ hcmp y (hmem y hy) z (hmem z hz))

end SwitchingAlgebra
