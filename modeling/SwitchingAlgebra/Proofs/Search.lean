import Mathlib
import SwitchingAlgebra.Cover.Search

/-!
# Branch and bound finds a cheapest choice

A choice of positions is complete when it has a position of every row. The search carries the best
complete choice that it has met. Its course can be told without a bound on its depth: every branch
satisfies the row that is branched on, so as many further positions as there are rows left are
enough to follow it to its end (`course_search`).

A choice is left only where the lower bound shows that no completion is cheaper: rows that share no
position need a position each (`lowerBound_le`). Otherwise every completion has a position of the
row that is branched on, so it is met in the branch of that position (`Course.explores`).

Costs are added up in machine words, so what has been added up for a choice may be less than it
costs, but never more. The choices that the search passes over are compared with what they cost
exactly, and therefore what has been added up for the result is at most that. As long as the costs
of the result fit in a word, this is its price.

Main statements: `solve_hits`, and `solve_tally_le` and `solve_price_le` for the price of any other
complete choice.
-/

set_option autoImplicit false
set_option relaxedAutoImplicit false

namespace SwitchingAlgebra

/-! ### Prices -/

/-- A number of positions with their total cost. -/
structure Price where
  /-- The number of positions. -/
  count : Nat
  /-- Their total cost. -/
  total : Nat
  deriving DecidableEq, Repr

namespace Price

/-- The order of prices: the number of positions counts first, their total cost second. -/
instance : LE Price :=
  ⟨fun p q ↦ p.count < q.count ∨ p.count = q.count ∧ p.total ≤ q.total⟩

variable {p q r : Price}

theorem le_iff : p ≤ q ↔ p.count < q.count ∨ p.count = q.count ∧ p.total ≤ q.total :=
  Iff.rfl

protected theorem le_trans (hfirst : p ≤ q) (hsecond : q ≤ r) : p ≤ r := by
  rw [le_iff] at *
  omega

theorem le_of_components (hcount : p.count ≤ q.count) (htotal : p.total ≤ q.total) : p ≤ q := by
  rw [le_iff]
  omega

end Price

namespace Tally

variable {s t : Tally}

/-- The price that has been added up. -/
def price (t : Tally) : Price :=
  ⟨t.count, t.total.toNat⟩

theorem isBelow_eq_false_iff : s.isBelow t = false ↔ t.price ≤ s.price := by
  rw [Price.le_iff, isBelow, price, price, Bool.or_eq_false_iff, Bool.and_eq_false_iff]
  simp only [decide_eq_false_iff_not, beq_eq_false_iff_ne, UInt64.lt_iff_toNat_lt]
  omega

theorem price_le_of_isBelow (hbelow : s.isBelow t = true) : s.price ≤ t.price := by
  rw [isBelow] at hbelow
  simp only [Bool.or_eq_true, decide_eq_true_eq, Bool.and_eq_true, beq_iff_eq,
    UInt64.lt_iff_toNat_lt] at hbelow
  rw [Price.le_iff, price, price]
  dsimp only
  omega

end Tally

/-- What is added up in words is the exact sum without its upper bits. -/
theorem toNat_sum (words : List UInt64) :
    words.sum.toNat = (words.map UInt64.toNat).sum % 2 ^ 64 := by
  induction words with
  | nil => rfl
  | cons word rest ih =>
    rw [List.sum_cons, UInt64.toNat_add, ih, List.map_cons, List.sum_cons, Nat.add_mod_mod]

theorem toNat_add_le (word other : UInt64) : (word + other).toNat ≤ word.toNat + other.toNat := by
  rw [UInt64.toNat_add]
  exact Nat.mod_le _ _

namespace CoveringTable

/-! ### Complete choices -/

/-- The positions satisfy every row. -/
def Hits (positions : List Nat) (rows : List (List Nat)) : Prop :=
  ∀ row ∈ rows, ∃ position ∈ positions, position ∈ row

/-- The exact cost of a list of positions. -/
def totalCost (table : CoveringTable) (positions : List Nat) : Nat :=
  (positions.map fun position ↦ (table.cost position).toNat).sum

/-- The price of a list of positions. -/
def priceOf (table : CoveringTable) (positions : List Nat) : Price :=
  ⟨positions.length, table.totalCost positions⟩

/-- A choice with further positions. -/
def complete (table : CoveringTable) (chosen : Selection) (positions : List Nat) : Selection :=
  ⟨positions ++ chosen.positions, ⟨chosen.tally.count + positions.length,
    chosen.tally.total + (positions.map table.cost).sum⟩⟩

/-- The price of a choice with further positions, whose costs are added exactly. -/
def priceWith (table : CoveringTable) (chosen : Selection) (positions : List Nat) : Price :=
  ⟨chosen.tally.count + positions.length,
    chosen.tally.total.toNat + table.totalCost positions⟩

variable {table : CoveringTable} {chosen : Selection} {remaining : List (List Nat)}
  {positions : List Nat}

theorem toNat_sum_cost :
    (positions.map table.cost).sum.toNat = table.totalCost positions % 2 ^ 64 := by
  rw [toNat_sum, List.map_map, totalCost]
  rfl

theorem totalCost_perm {other : List Nat} (hperm : positions.Perm other) :
    table.totalCost positions = table.totalCost other :=
  (hperm.map _).sum_eq

theorem totalCost_cons (position : Nat) : table.totalCost (position :: positions) =
    (table.cost position).toNat + table.totalCost positions := by
  rw [totalCost, List.map_cons, List.sum_cons, totalCost]

theorem totalCost_le {most : Nat} (hmost : ∀ position, (table.cost position).toNat ≤ most)
    (positions : List Nat) : table.totalCost positions ≤ positions.length * most := by
  have hsum := List.sum_le_card_nsmul
    (positions.map fun position ↦ (table.cost position).toNat) most (by simp [hmost])
  rwa [List.length_map, smul_eq_mul] at hsum

theorem totalCost_append (positions other : List Nat) :
    table.totalCost (positions ++ other) = table.totalCost positions + table.totalCost other := by
  rw [totalCost, List.map_append, List.sum_append, totalCost, totalCost]

theorem complete_extend (position : Nat) :
    table.complete (table.extend chosen position) positions =
      table.complete chosen (positions ++ [position]) := by
  have htotal : chosen.tally.total + table.cost position + (positions.map table.cost).sum =
      chosen.tally.total + ((positions.map table.cost).sum + table.cost position) := by
    rw [UInt64.add_assoc, UInt64.add_comm (table.cost position)]
  have hcount : chosen.tally.count + 1 + positions.length =
      chosen.tally.count + (positions.length + 1) := by omega
  simp only [complete, extend, List.append_assoc, List.singleton_append, List.length_append,
    List.length_singleton, List.map_append, List.map_singleton, List.sum_append,
    List.sum_singleton, htotal, hcount]

/-- One more position is added up to no more than it costs. -/
theorem priceWith_extend_le (position : Nat) :
    table.priceWith (table.extend chosen position) positions ≤
      table.priceWith chosen (positions ++ [position]) := by
  have hadd : (chosen.tally.total + table.cost position).toNat ≤
      chosen.tally.total.toNat + (table.cost position).toNat := toNat_add_le _ _
  have hlast : table.totalCost [position] = (table.cost position).toNat := by simp [totalCost]
  refine Price.le_of_components ?_ ?_
  · simp only [priceWith, extend, List.length_append, List.length_singleton]
    omega
  · simp only [priceWith, extend, totalCost_append, hlast]
    omega

theorem priceWith_perm {other : List Nat} (hperm : positions.Perm other) :
    table.priceWith chosen positions = table.priceWith chosen other := by
  rw [priceWith, priceWith, hperm.length_eq, totalCost_perm hperm]

theorem chosen_price_le_priceWith : chosen.tally.price ≤ table.priceWith chosen positions :=
  Price.le_of_components (Nat.le_add_right _ _) (Nat.le_add_right _ _)

/-- The rows that a position leaves are satisfied without it. -/
theorem Hits.erase {position : Nat} (hhits : Hits positions remaining) :
    Hits (positions.erase position) (remaining.filter fun row ↦ !row.contains position) := by
  intro row hrow
  obtain ⟨hmem, hleft⟩ := List.mem_filter.mp hrow
  obtain ⟨other, hother, hin⟩ := hhits row hmem
  refine ⟨other, (List.mem_erase_of_ne fun heq ↦ ?_).mpr hother, hin⟩
  rw [heq] at hin
  simp [hin] at hleft

/-- A position and what satisfies the rows that it leaves satisfy all rows. -/
theorem Hits.append_singleton {position : Nat}
    (hhits : Hits positions (remaining.filter fun row ↦ !row.contains position)) :
    Hits (positions ++ [position]) remaining := by
  intro row hrow
  by_cases hin : position ∈ row
  · exact ⟨position, by simp, hin⟩
  · obtain ⟨other, hother, hmem⟩ := hhits row (List.mem_filter.mpr ⟨hrow, by simpa using hin⟩)
    exact ⟨other, List.mem_append_left _ hother, hmem⟩

/-! ### The lower bound -/

/-- The sum of a weight over the positions that have not been used. -/
def unusedWeight (used : List Nat) (weight : Nat → Nat) (positions : List Nat) : Nat :=
  (positions.map fun position ↦ if used.contains position then 0 else weight position).sum

theorem unusedWeight_nil (weight : Nat → Nat) :
    unusedWeight [] weight positions = (positions.map weight).sum := by
  simp [unusedWeight]

/-- A row without a used position takes the weight of one of its positions. -/
theorem unusedWeight_append_le {used row : List Nat} (weight : Nat → Nat) {position : Nat}
    (hposition : position ∈ positions) (hrow : position ∈ row) (hunused : position ∉ used) :
    weight position + unusedWeight (row ++ used) weight positions ≤
      unusedWeight used weight positions := by
  have hsum : ∀ used, unusedWeight used weight positions =
      (if used.contains position then 0 else weight position) +
        unusedWeight used weight (positions.erase position) := by
    intro used
    rw [unusedWeight, ((List.perm_cons_erase hposition).map _).sum_eq, List.map_cons,
      List.sum_cons, unusedWeight]
  have hothers : unusedWeight (row ++ used) weight (positions.erase position) ≤
      unusedWeight used weight (positions.erase position) := by
    refine List.sum_le_sum fun other _ ↦ ?_
    by_cases hused : other ∈ used <;> by_cases hin : other ∈ row <;> simp [hused, hin]
  rw [hsum (row ++ used), hsum used, if_pos (by simp [hrow]), if_neg (by simpa using hunused)]
  omega

theorem cheapest_le {row : List Nat} {position : Nat} (hrow : position ∈ row) :
    (table.cheapest row).toNat ≤ (table.cost position).toNat := by
  have hmem : table.cost position ∈ row.map table.cost := List.mem_map_of_mem hrow
  unfold cheapest
  rcases hmin : (row.map table.cost).min? with _ | least
  · rw [List.min?_eq_none_iff] at hmin
    simp [hmin] at hmem
  · exact UInt64.le_iff_toNat_le.mp ((List.min?_eq_some_iff.mp hmin).2 _ hmem)

/-- The bound adds no more than what the positions of a complete choice cost that are not in the
rows added for before. -/
theorem boundBy_le {rows : List (List Nat)} (hhits : Hits positions rows) :
    ∀ (used : List Nat) (tally : Tally),
      (table.boundBy used tally rows).count ≤
          tally.count + unusedWeight used (fun _ ↦ 1) positions ∧
        (table.boundBy used tally rows).total.toNat ≤
          tally.total.toNat +
            unusedWeight used (fun position ↦ (table.cost position).toNat) positions := by
  induction rows with
  | nil => exact fun used tally ↦ ⟨Nat.le_add_right _ _, Nat.le_add_right _ _⟩
  | cons row rest ih =>
    intro used tally
    have hrest : Hits positions rest := fun other hother ↦
      hhits other (List.mem_cons_of_mem _ hother)
    unfold boundBy
    by_cases hshared : row.any used.contains = true
    · rw [if_pos hshared]
      exact ih hrest used tally
    · rw [if_neg hshared]
      obtain ⟨position, hposition, hrow⟩ := hhits row List.mem_cons_self
      have hunused : position ∉ used := fun hused ↦
        hshared (List.any_eq_true.mpr ⟨position, hrow, by simpa using hused⟩)
      obtain ⟨hcount, htotal⟩ :=
        ih hrest (row ++ used) ⟨tally.count + 1, tally.total + table.cheapest row⟩
      have hone := unusedWeight_append_le (fun _ ↦ 1) hposition hrow hunused
      have hcost := unusedWeight_append_le (fun position ↦ (table.cost position).toNat) hposition
        hrow hunused
      have hcheapest : (table.cheapest row).toNat ≤ (table.cost position).toNat := cheapest_le hrow
      have hadd : (tally.total + table.cheapest row).toNat ≤
          tally.total.toNat + (table.cheapest row).toNat := toNat_add_le _ _
      dsimp only at hcount htotal hcost
      exact ⟨by omega, by omega⟩

theorem lowerBound_le (hhits : Hits positions remaining) :
    (table.lowerBound chosen remaining).price ≤ table.priceWith chosen positions := by
  have hsorted : Hits positions (remaining.mergeSort fun r s ↦ r.length ≤ s.length) :=
    fun row hrow ↦ hhits row (List.mem_mergeSort.mp hrow)
  have hbound := @boundBy_le table positions _ hsorted [] chosen.tally
  rw [unusedWeight_nil, unusedWeight_nil] at hbound
  have hcount : (table.lowerBound chosen remaining).count ≤
      chosen.tally.count + positions.length := by simpa [lowerBound] using hbound.1
  exact Price.le_of_components hcount hbound.2

/-! ### The course of the search -/

/-- What is done next in a search. -/
inductive Task where
  /-- A choice is visited, with the rows that it leaves. -/
  | visit (chosen : Selection) (remaining : List (List Nat))
  /-- The choice is tried with each of some further positions. -/
  | branch (chosen : Selection) (remaining : List (List Nat)) (positions : List Nat)

/-- The best choice before a task and the best choice after it. A complete choice is kept if it is
cheaper than the best one. A choice is left if no completion can be cheaper; otherwise it is tried
with the positions of a shortest row that it leaves. -/
inductive Course (table : CoveringTable) : Task → Option Selection → Option Selection → Prop
  | cheaper {chosen : Selection} {best : Option Selection}
      (hcheaper : (best.all fun b ↦ chosen.tally.isBelow b.tally) = true) :
      Course table (.visit chosen []) best (some chosen)
  | dearer {chosen : Selection} {best : Option Selection}
      (hdearer : (best.all fun b ↦ chosen.tally.isBelow b.tally) = false) :
      Course table (.visit chosen []) best best
  | bounded {chosen : Selection} {first : List Nat} {rest : List (List Nat)}
      {best : Option Selection}
      (hbound : (best.any fun b ↦
        !(table.lowerBound chosen (first :: rest)).isBelow b.tally) = true) :
      Course table (.visit chosen (first :: rest)) best best
  | branched {chosen : Selection} {first : List Nat} {rest : List (List Nat)}
      {best after : Option Selection}
      (hbound : (best.any fun b ↦
        !(table.lowerBound chosen (first :: rest)).isBelow b.tally) = false)
      (hbranches : Course table (.branch chosen (first :: rest)
        (table.branches (first :: rest) (shortest first rest))) best after) :
      Course table (.visit chosen (first :: rest)) best after
  | done {chosen : Selection} {remaining : List (List Nat)} {best : Option Selection} :
      Course table (.branch chosen remaining []) best best
  | tried {chosen : Selection} {remaining : List (List Nat)} {position : Nat}
      {positions : List Nat} {best found after : Option Selection}
      (hposition : Course table (.visit (table.extend chosen position)
        (remaining.filter fun row ↦ !row.contains position)) best found)
      (hothers : Course table (.branch chosen remaining positions) found after) :
      Course table (.branch chosen remaining (position :: positions)) best after

theorem shortest_mem (row : List Nat) (rest : List (List Nat)) :
    shortest row rest ∈ row :: rest := by
  induction rest generalizing row with
  | nil => exact List.mem_cons_self
  | cons other rest ih =>
    unfold shortest
    rcases List.mem_cons.mp (ih (if other.length < row.length then other else row)) with h | h
    · rw [h]
      split_ifs <;> simp
    · exact List.mem_cons_of_mem _ (List.mem_cons_of_mem _ h)

theorem mem_branches {row : List Nat} {position : Nat} :
    position ∈ table.branches remaining row ↔ position ∈ row := by
  rw [branches, List.mem_map]
  constructor
  · rintro ⟨triple, htriple, rfl⟩
    obtain ⟨other, hother, rfl⟩ := List.mem_map.mp (List.mem_mergeSort.mp htriple)
    exact hother
  · intro hposition
    exact ⟨table.urgency remaining position,
      List.mem_mergeSort.mpr (List.mem_map_of_mem hposition), rfl⟩

/-- A visit of a complete choice keeps the cheaper one. -/
theorem course_complete {best : Option Selection} : Course table (.visit chosen []) best
    (if best.all fun b ↦ chosen.tally.isBelow b.tally then some chosen else best) := by
  split_ifs with hcheaper
  · exact .cheaper hcheaper
  · exact .dearer (Bool.eq_false_iff.mpr hcheaper)

/-- The positions of a branch are tried one after the other. -/
theorem course_foldl {step : Option Selection → Nat → Option Selection}
    (hstep : ∀ position ∈ positions, ∀ best, Course table (.visit (table.extend chosen position)
      (remaining.filter fun row ↦ !row.contains position)) best (step best position)) :
    ∀ best, Course table (.branch chosen remaining positions) best (positions.foldl step best) := by
  induction positions with
  | nil => exact fun best ↦ .done
  | cons position rest ih =>
    obtain ⟨hposition, hrest⟩ := List.forall_mem_cons.mp hstep
    exact fun best ↦ .tried (hposition best) (ih hrest _)

/-- The course of a search ends with its result, if as many further positions may be added as there
are rows left. -/
theorem course_search (depth : Nat) :
    ∀ {chosen : Selection} {remaining : List (List Nat)} (best : Option Selection),
      remaining.length ≤ depth →
        Course table (.visit chosen remaining) best (table.search depth chosen remaining best) := by
  induction depth with
  | zero =>
    intro chosen remaining best hdepth
    rw [List.length_eq_zero_iff.mp (Nat.le_zero.mp hdepth), search]
    exact course_complete
  | succ depth ih =>
    intro chosen remaining best hdepth
    rcases remaining with _ | ⟨first, rest⟩
    · rw [search]
      exact course_complete
    rw [search]
    split_ifs with hbound
    · exact .bounded hbound
    · refine .branched (Bool.eq_false_iff.mpr hbound)
        (course_foldl (fun position hposition best ↦ ih best ?_) best)
      -- The row that is branched on is satisfied.
      have hfewer : ((first :: rest).filter fun row ↦ !row.contains position).length <
          (first :: rest).length := by
        refine List.length_filter_lt_length_iff_exists.mpr ⟨_, shortest_mem first rest, ?_⟩
        simpa using mem_branches.mp hposition
      omega

/-! ### What the search finds -/

/-- The choice that a task completes. -/
def Task.choice : Task → Selection
  | visit chosen _ => chosen
  | branch chosen _ _ => chosen

/-- The rows that the choice leaves. -/
def Task.rows : Task → List (List Nat)
  | visit _ remaining => remaining
  | branch _ remaining _ => remaining

/-- The positions of the completions that a task looks for. -/
def Task.Seeks : Task → List Nat → Prop
  | visit _ remaining, positions => Hits positions remaining
  | branch _ remaining tried, positions =>
    Hits positions remaining ∧ ∃ position ∈ tried, position ∈ positions

/-- What has been added up for the best choice found is at most a price. -/
def Reaches (best : Option Selection) (price : Price) : Prop :=
  ∃ b, best = some b ∧ b.tally.price ≤ price

/-- What a task does to the best choice found: it replaces it by completions only, never makes it
dearer, and none of the completions that it looks for costs less in the end than has been added up
for it. -/
structure Explores (table : CoveringTable) (task : Task) (before after : Option Selection) :
    Prop where
  origin : after = before ∨ ∃ positions, Hits positions task.rows ∧
    after = some (table.complete task.choice positions)
  grows : ∀ price, Reaches before price → Reaches after price
  covers : ∀ positions, task.Seeks positions →
    Reaches after (table.priceWith task.choice positions)

theorem Reaches.mono {best : Option Selection} {p q : Price} (hreaches : Reaches best p)
    (hle : p ≤ q) : Reaches best q := by
  obtain ⟨b, hb, hprice⟩ := hreaches
  exact ⟨b, hb, Price.le_trans hprice hle⟩

/-- A complete choice replaces the best one if it is cheaper. -/
theorem explores_cheaper {best : Option Selection}
    (hcheaper : (best.all fun b ↦ chosen.tally.isBelow b.tally) = true) :
    Explores table (.visit chosen []) best (some chosen) where
  origin := .inr ⟨[], fun _ hrow ↦ absurd hrow List.not_mem_nil, by simp [complete, Task.choice]⟩
  grows := by
    rintro price ⟨b, rfl, hprice⟩
    exact ⟨chosen, rfl, Price.le_trans (Tally.price_le_of_isBelow (by simpa using hcheaper)) hprice⟩
  covers _ _ := ⟨chosen, rfl, chosen_price_le_priceWith⟩

/-- Where no completion is below the best choice, there is nothing to look for. -/
theorem explores_of_le {best : Option Selection} {b : Selection} (hbest : best = some b)
    (hle : ∀ positions, Hits positions remaining →
      b.tally.price ≤ table.priceWith chosen positions) :
    Explores table (.visit chosen remaining) best best where
  origin := .inl rfl
  grows _ hreaches := hreaches
  covers positions hhits := ⟨b, hbest, hle positions hhits⟩

theorem explores_dearer {best : Option Selection}
    (hdearer : (best.all fun b ↦ chosen.tally.isBelow b.tally) = false) :
    Explores table (.visit chosen []) best best := by
  rcases best with _ | b
  · simp at hdearer
  · refine explores_of_le rfl fun positions _ ↦ Price.le_trans ?_ chosen_price_le_priceWith
    exact Tally.isBelow_eq_false_iff.mp (by simpa using hdearer)

theorem explores_bounded {best : Option Selection}
    (hbound : (best.any fun b ↦ !(table.lowerBound chosen remaining).isBelow b.tally) = true) :
    Explores table (.visit chosen remaining) best best := by
  rcases best with _ | b
  · simp at hbound
  · refine explores_of_le rfl fun positions hhits ↦ Price.le_trans ?_ (lowerBound_le hhits)
    exact Tally.isBelow_eq_false_iff.mp (by simpa using hbound)

theorem explores_done {best : Option Selection} :
    Explores table (.branch chosen remaining []) best best where
  origin := .inl rfl
  grows _ hreaches := hreaches
  covers _ hseeks := by
    obtain ⟨-, position, hposition, -⟩ := hseeks
    exact absurd hposition List.not_mem_nil

/-- Every completion has a position of the row that is branched on. -/
theorem Explores.branched {first : List Nat} {rest : List (List Nat)}
    {before after : Option Selection}
    (hbranches : Explores table (.branch chosen (first :: rest)
      (table.branches (first :: rest) (shortest first rest))) before after) :
    Explores table (.visit chosen (first :: rest)) before after where
  origin := hbranches.origin
  grows := hbranches.grows
  covers positions hhits := by
    obtain ⟨position, hposition, hin⟩ := hhits _ (shortest_mem first rest)
    exact hbranches.covers positions ⟨hhits, position, mem_branches.mpr hin, hposition⟩

/-- A completion with the first position is met in its branch, and any other one after it. -/
theorem Explores.tried {position : Nat} {before found after : Option Selection}
    (hposition : Explores table (.visit (table.extend chosen position)
      (remaining.filter fun row ↦ !row.contains position)) before found)
    (hothers : Explores table (.branch chosen remaining positions) found after) :
    Explores table (.branch chosen remaining (position :: positions)) before after where
  origin := by
    rcases hothers.origin with horigin | horigin
    · rw [horigin]
      rcases hposition.origin with hsame | ⟨completion, hhits, hnew⟩
      · exact .inl hsame
      · refine .inr ⟨completion ++ [position], hhits.append_singleton, hnew.trans ?_⟩
        exact congrArg some (complete_extend position)
    · exact .inr horigin
  grows price hreaches := hothers.grows price (hposition.grows price hreaches)
  covers completion hseeks := by
    obtain ⟨hhits, other, hother, hin⟩ := hseeks
    rcases List.mem_cons.mp hother with rfl | hother
    · have hreaches := hothers.grows _ (hposition.covers _ hhits.erase)
      rw [← priceWith_perm ((List.perm_append_singleton other _).trans
        (List.perm_cons_erase hin).symm)]
      exact hreaches.mono (priceWith_extend_le other)
    · exact hothers.covers completion ⟨hhits, other, hother, hin⟩

/-- The search misses no completion. -/
theorem Course.explores {task : Task} {before after : Option Selection}
    (hcourse : Course table task before after) : Explores table task before after := by
  induction hcourse with
  | cheaper hcheaper => exact explores_cheaper hcheaper
  | dearer hdearer => exact explores_dearer hdearer
  | bounded hbound => exact explores_bounded hbound
  | branched _ _ ih => exact ih.branched
  | done => exact explores_done
  | tried _ _ ihposition ihothers => exact ihposition.tried ihothers

/-! ### The result -/

/-- What has been added up for a list of positions. -/
def tallyOf (table : CoveringTable) (positions : List Nat) : Tally :=
  ⟨positions.length, (positions.map table.cost).sum⟩

theorem complete_nothing :
    table.complete nothing positions = ⟨positions, table.tallyOf positions⟩ := by
  simp [complete, nothing, tallyOf]

theorem priceWith_nothing : table.priceWith nothing positions = table.priceOf positions := by
  simp [priceWith, nothing, priceOf]

theorem tallyOf_perm {other : List Nat} (hperm : positions.Perm other) :
    table.tallyOf positions = table.tallyOf other := by
  rw [tallyOf, tallyOf, hperm.length_eq, (hperm.map table.cost).sum_eq]

/-- Costs that fit in a word are added up exactly. -/
theorem price_tallyOf (hfits : table.totalCost positions < 2 ^ 64) :
    (table.tallyOf positions).price = table.priceOf positions := by
  rw [Tally.price, tallyOf, toNat_sum_cost, Nat.mod_eq_of_lt hfits, priceOf]

/-- Where there is a complete choice, the search finds one for which no more has been added up than
that one costs. -/
theorem exists_search_eq_some (hhits : Hits positions table.rows) :
    ∃ best : List Nat, table.search table.rows.length nothing table.rows none =
        some ⟨best, table.tallyOf best⟩ ∧
      Hits best table.rows ∧ (table.tallyOf best).price ≤ table.priceOf positions := by
  have hcourse : Course table (.visit nothing table.rows) none _ :=
    course_search table.rows.length none le_rfl
  obtain ⟨b, hb, hprice⟩ := hcourse.explores.covers positions hhits
  rcases hcourse.explores.origin with hnone | ⟨best, hbest, hsome⟩
  · rw [hb] at hnone
    cases hnone
  · rw [hb] at hsome
    cases hsome
    rw [Task.choice, complete_nothing] at hb
    refine ⟨best, hb, hbest, ?_⟩
    simpa only [Task.choice, complete_nothing, priceWith_nothing] using hprice

theorem solve_eq_mergeSort {best : Selection}
    (hsearch : table.search table.rows.length nothing table.rows none = some best) :
    table.solve = best.positions.mergeSort fun m n ↦ m ≤ n := by
  rw [solve, hsearch]

theorem solve_hits (hhits : Hits positions table.rows) : Hits table.solve table.rows := by
  obtain ⟨best, hsearch, hbest, -⟩ := exists_search_eq_some hhits
  intro row hrow
  obtain ⟨position, hposition, hin⟩ := hbest row hrow
  exact ⟨position, solve_eq_mergeSort hsearch ▸ List.mem_mergeSort.mpr hposition, hin⟩

/-- No complete choice has fewer positions than the result, or as many and a lower cost than has
been added up for the result. -/
theorem solve_tally_le (hhits : Hits positions table.rows) :
    (table.tallyOf table.solve).price ≤ table.priceOf positions := by
  obtain ⟨best, hsearch, -, hprice⟩ := exists_search_eq_some hhits
  have hperm : table.solve.Perm best :=
    solve_eq_mergeSort hsearch ▸ List.mergeSort_perm best _
  rwa [tallyOf_perm hperm]

theorem length_solve_le (hhits : Hits positions table.rows) :
    table.solve.length ≤ positions.length := by
  rcases Price.le_iff.mp (solve_tally_le hhits) with hfewer | ⟨hequal, -⟩
  · exact hfewer.le
  · exact hequal.le

/-- No complete choice is cheaper than the result, if the cost of the result fits in a word. -/
theorem solve_price_le (hfits : table.totalCost table.solve < 2 ^ 64)
    (hhits : Hits positions table.rows) : table.priceOf table.solve ≤ table.priceOf positions := by
  rw [← price_tallyOf hfits]
  exact solve_tally_le hhits

end CoveringTable

end SwitchingAlgebra
