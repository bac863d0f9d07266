/-!
# Sorted lists without repetitions

A finite set is kept as the list of its elements in increasing order. `sortDistinct` builds that
list from any list: the elements are sorted by a stable sort, and of those that compare equal the
first stays.

Main statements: the result holds only elements of the list (`mem_of_mem_sortDistinct`), it strictly
increases (`pairwise_sortDistinct`), and where equal elements are identical it holds all of them
(`mem_sortDistinct`).
-/

set_option autoImplicit false
set_option relaxedAutoImplicit false

namespace SwitchingAlgebra

variable {α : Type}

/-- The elements of a list that differ from the one kept before them, when `previous` was kept
last. -/
def dropRepeatsAfter (cmp : α → α → Ordering) (previous : α) : List α → List α
  | [] => []
  | x :: rest =>
    if cmp previous x = .eq then dropRepeatsAfter cmp previous rest
    else x :: dropRepeatsAfter cmp x rest

/-- The first element of every run of equal elements. -/
def dropRepeats (cmp : α → α → Ordering) : List α → List α
  | [] => []
  | x :: rest => x :: dropRepeatsAfter cmp x rest

/-- The distinct elements of a list in increasing order. Of equal elements the first stays. -/
def sortDistinct (cmp : α → α → Ordering) (xs : List α) : List α :=
  dropRepeats cmp (xs.mergeSort fun x y => (cmp x y).isLE)

/-! ### Membership -/

theorem mem_of_mem_dropRepeatsAfter {cmp : α → α → Ordering} {x : α} :
    ∀ {previous : α} {xs : List α}, x ∈ dropRepeatsAfter cmp previous xs → x ∈ xs
  | _, [], h => by simp [dropRepeatsAfter] at h
  | previous, y :: rest, h => by
    unfold dropRepeatsAfter at h
    split at h
    · exact List.mem_cons_of_mem _ (mem_of_mem_dropRepeatsAfter h)
    · rcases List.mem_cons.1 h with rfl | h
      · exact List.mem_cons_self
      · exact List.mem_cons_of_mem _ (mem_of_mem_dropRepeatsAfter h)

theorem mem_of_mem_sortDistinct {cmp : α → α → Ordering} {x : α} {xs : List α}
    (h : x ∈ sortDistinct cmp xs) : x ∈ xs := by
  suffices x ∈ xs.mergeSort fun x y => (cmp x y).isLE from List.mem_mergeSort.1 this
  unfold sortDistinct at h
  revert h
  cases xs.mergeSort fun x y => (cmp x y).isLE with
  | nil => exact fun h => h
  | cons y rest =>
    intro h
    rcases List.mem_cons.1 h with rfl | h
    · exact List.mem_cons_self
    · exact List.mem_cons_of_mem _ (mem_of_mem_dropRepeatsAfter h)

theorem mem_dropRepeatsAfter [Ord α] [Std.LawfulEqOrd α] {x : α} :
    ∀ (previous : α) {xs : List α}, x ∈ xs → x = previous ∨ x ∈ dropRepeatsAfter compare previous xs
  | previous, y :: rest, h => by
    unfold dropRepeatsAfter
    split
    · next heq =>
      rcases List.mem_cons.1 h with rfl | h
      · exact .inl (Std.LawfulEqOrd.eq_of_compare heq).symm
      · exact mem_dropRepeatsAfter _ h
    · rcases List.mem_cons.1 h with rfl | h
      · exact .inr List.mem_cons_self
      · rcases mem_dropRepeatsAfter y h with rfl | h
        · exact .inr List.mem_cons_self
        · exact .inr (List.mem_cons_of_mem _ h)

/-- Where only identical elements compare equal, nothing is lost. -/
theorem mem_sortDistinct [Ord α] [Std.LawfulEqOrd α] {x : α} {xs : List α} :
    x ∈ sortDistinct compare xs ↔ x ∈ xs := by
  refine ⟨mem_of_mem_sortDistinct, fun h => ?_⟩
  have h : x ∈ xs.mergeSort fun x y => (compare x y).isLE := List.mem_mergeSort.2 h
  unfold sortDistinct
  revert h
  cases xs.mergeSort fun x y => (compare x y).isLE with
  | nil => exact fun h => h
  | cons y rest =>
    intro h
    rcases List.mem_cons.1 h with rfl | h
    · exact List.mem_cons_self
    · rcases mem_dropRepeatsAfter y h with rfl | h
      · exact List.mem_cons_self
      · exact List.mem_cons_of_mem _ h

/-! ### Order -/

/-- Dropping repetitions from a sorted list leaves a strictly increasing one. -/
theorem pairwise_cons_dropRepeatsAfter {cmp : α → α → Ordering} [Std.TransCmp cmp] :
    ∀ {previous : α} {xs : List α}, (previous :: xs).Pairwise (fun x y => (cmp x y).isLE = true) →
      (previous :: dropRepeatsAfter cmp previous xs).Pairwise (fun x y => cmp x y = .lt)
  | _, [], _ => by simp [dropRepeatsAfter]
  | previous, y :: rest, h => by
    unfold dropRepeatsAfter
    have ⟨hprevious, hrest⟩ := List.pairwise_cons.1 h
    split
    · exact pairwise_cons_dropRepeatsAfter
        (List.pairwise_cons.2 ⟨fun z hz => hprevious z (List.mem_cons_of_mem _ hz),
          (List.pairwise_cons.1 hrest).2⟩)
    · next hne =>
      have hlt : cmp previous y = .lt := by
        have hle := hprevious y List.mem_cons_self
        revert hle hne
        cases cmp previous y <;> simp
      have ih := pairwise_cons_dropRepeatsAfter hrest
      refine List.pairwise_cons.2 ⟨fun z hz => ?_, ih⟩
      rcases List.mem_cons.1 hz with rfl | hz
      · exact hlt
      · exact Std.TransCmp.lt_trans hlt ((List.pairwise_cons.1 ih).1 z hz)

theorem pairwise_mergeSort_isLE {cmp : α → α → Ordering} [Std.TransCmp cmp] (xs : List α) :
    (xs.mergeSort fun x y => (cmp x y).isLE).Pairwise (fun x y => (cmp x y).isLE = true) := by
  refine List.pairwise_mergeSort ?_ ?_ xs
  · exact fun _ _ _ => Std.TransCmp.isLE_trans
  · intro x y
    rw [@Std.OrientedCmp.eq_swap α cmp _ x y]
    cases cmp y x <;> rfl

theorem pairwise_sortDistinct {cmp : α → α → Ordering} [Std.TransCmp cmp] (xs : List α) :
    (sortDistinct cmp xs).Pairwise (fun x y => cmp x y = .lt) := by
  have h : (xs.mergeSort fun x y => (cmp x y).isLE).Pairwise
      (fun x y => (cmp x y).isLE = true) := pairwise_mergeSort_isLE xs
  unfold sortDistinct
  revert h
  cases xs.mergeSort fun x y => (cmp x y).isLE with
  | nil => exact fun _ => List.Pairwise.nil
  | cons y rest => exact pairwise_cons_dropRepeatsAfter

end SwitchingAlgebra
