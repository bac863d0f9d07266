import Mathlib
import SwitchingAlgebra.Cover.Primes
import SwitchingAlgebra.Proofs.CoverPoints

/-!
# Iterated consensus finds the primes

The rounds of consensus end, and the cubes of the cover they end with are the primes of the cover
they began with. Each round keeps the points. Each round that changes a cover without redundant
cubes brings in a cube that lay in none before, of which there are finitely many
(`consensusLoop_consensusRounds`). A cover that a round does not change holds a cube around every
implicant, by induction over the columns that the implicant leaves free
(`exists_containing_of_isImplicant`).

Main statements: `primes_eq_iterated_consensus` says that the loop of rounds ends with `primes`,
that its cubes are the primes, and that covers with the same points have the same primes.
-/

set_option autoImplicit false
set_option relaxedAutoImplicit false

namespace SwitchingAlgebra.Cover

/-- The loop of consensus rounds that begins with one cover ends with another: the first round that
changes nothing ends it. -/
inductive ConsensusLoop : Cover → Cover → Prop
  | done {f : Cover} : f.consensusRound = f → ConsensusLoop f f
  | round {f g : Cover} : f.consensusRound ≠ f → ConsensusLoop f.consensusRound g →
      ConsensusLoop f g

/-- No cube of the cover strictly contains another. -/
def Irredundant (f : Cover) : Prop :=
  ∀ c ∈ f.cubes, ∀ d ∈ f.cubes, d.strictlyContains c = false

variable {f g : Cover}

/-! ### One round -/

theorem irredundant_maximal (f : Cover) : f.maximal.Irredundant := fun _ hc _ hd ↦
  (mem_maximal.mp hc).2 _ (mem_maximal.mp hd).1

theorem wellFormed_union_consensus (hf : f.WellFormed) : (f.union (f.consensus f)).WellFormed :=
  hf.union (hf.consensus hf rfl) rfl

theorem WellFormed.consensusRound (hf : f.WellFormed) : f.consensusRound.WellFormed :=
  (wellFormed_union_consensus hf).maximal

theorem points_consensusRound (hf : f.WellFormed) : f.consensusRound.points = f.points := by
  have hconsensus := points_consensus_subset hf hf rfl
  rw [Set.union_self] at hconsensus
  rw [consensusRound, points_maximal (wellFormed_union_consensus hf),
    points_union hf (hf.consensus hf rfl) rfl, Set.union_eq_left.mpr hconsensus]

/-- After a round, every cube and every consensus of two cubes lies within some cube. -/
theorem exists_mem_consensusRound (hf : f.WellFormed) {c : Cube}
    (hc : c ∈ f.cubes ∨ ∃ d ∈ f.cubes, ∃ e ∈ f.cubes, d.consensus? e = some c) :
    ∃ d ∈ f.consensusRound.cubes, c.points ⊆ d.points := by
  rw [← mem_consensus] at hc
  exact exists_maximal_containing (wellFormed_union_consensus hf) (mem_union.mpr hc)

/-! ### Termination -/

open Classical in
/-- The cubes of a width that lie within some cube of a cover. -/
noncomputable def shadow (width : Nat) (f : Cover) : Finset (List.Vector Column width) :=
  Finset.univ.filter fun columns ↦ ∃ d ∈ f.cubes, Cube.points ⟨columns.toList⟩ ⊆ d.points

theorem card_shadow_le (width : Nat) (f : Cover) : (shadow width f).card ≤ 3 ^ width :=
  (Finset.card_le_univ _).trans (by simp [Column])

theorem mem_shadow {width : Nat} {columns : List.Vector Column width} :
    columns ∈ shadow width f ↔ ∃ d ∈ f.cubes, Cube.points ⟨columns.toList⟩ ⊆ d.points := by
  classical
  rw [shadow, Finset.mem_filter]
  exact and_iff_right (Finset.mem_univ _)

/-- Two covers without redundant cubes are equal if every cube of each lies within one of the
other. -/
theorem eq_of_mutually_contained (hf : f.WellFormed) (hg : g.WellFormed)
    (hwidth : f.width = g.width) (hirredundantf : f.Irredundant) (hirredundantg : g.Irredundant)
    (hfg : ∀ c ∈ f.cubes, ∃ d ∈ g.cubes, c.points ⊆ d.points)
    (hgf : ∀ c ∈ g.cubes, ∃ d ∈ f.cubes, c.points ⊆ d.points) : f = g := by
  have hmem : ∀ {f g : Cover}, f.WellFormed → g.WellFormed → f.width = g.width → f.Irredundant →
      (∀ c ∈ f.cubes, ∃ d ∈ g.cubes, c.points ⊆ d.points) →
        (∀ c ∈ g.cubes, ∃ d ∈ f.cubes, c.points ⊆ d.points) → ∀ c ∈ f.cubes, c ∈ g.cubes := by
    intro f g hf hg hwidth hirredundant hfg hgf c hc
    obtain ⟨d, hd, hcd⟩ := hfg c hc
    obtain ⟨e, he, hde⟩ := hgf d hd
    have hce : ¬ c.points ⊂ e.points := by
      rw [← Cube.strictlyContains_iff ((hf c hc).trans (hf e he).symm), Bool.not_eq_true]
      exact hirredundant c hc e he
    have hpoints : c.points = d.points :=
      hcd.antisymm (hde.trans (not_not.mp fun hnot ↦ hce ⟨hcd.trans hde, hnot⟩))
    rwa [Cube.eq_of_points_eq ((hf c hc).trans (hwidth.trans (hg d hd).symm)) hpoints]
  exact ext_mem hwidth fun c ↦ ⟨hmem hf hg hwidth hirredundantf hfg hgf c,
    hmem hg hf hwidth.symm hirredundantg hgf hfg c⟩

/-- A round that changes a cover brings in a cube that lay in none before. -/
theorem card_shadow_lt_consensusRound (hf : f.WellFormed) (hirredundant : f.Irredundant)
    (hchanges : f.consensusRound ≠ f) :
    (shadow f.width f).card < (shadow f.width f.consensusRound).card := by
  refine Finset.card_lt_card ⟨fun columns hcolumns ↦ ?_, fun hback ↦ hchanges ?_⟩
  · obtain ⟨d, hd, hsubset⟩ := mem_shadow.mp hcolumns
    obtain ⟨e, he, hde⟩ := exists_mem_consensusRound hf (.inl hd)
    exact mem_shadow.mpr ⟨e, he, hsubset.trans hde⟩
  · refine eq_of_mutually_contained hf.consensusRound hf rfl (irredundant_maximal _) hirredundant
      (fun c hc ↦ ?_) fun c hc ↦ exists_mem_consensusRound hf (.inl hc)
    let columns : List.Vector Column f.width := ⟨c.columns, hf.consensusRound c hc⟩
    have hcolumns : columns ∈ shadow f.width f.consensusRound :=
      mem_shadow.mpr ⟨c, hc, subset_rfl⟩
    exact mem_shadow.mp (hback hcolumns)

/-- Enough rounds reach the end of the loop: as many as there are cubes that do not yet lie within
the cover. -/
theorem consensusLoop_consensusRounds (rounds : Nat) :
    ∀ {f : Cover}, f.WellFormed → f.Irredundant →
      3 ^ f.width ≤ rounds + (shadow f.width f).card →
        ConsensusLoop f (consensusRounds rounds f) := by
  induction rounds with
  | zero =>
    intro f hf hirredundant hrounds
    refine .done (not_not.mp fun hchanges ↦ ?_)
    have hgrows := card_shadow_lt_consensusRound hf hirredundant hchanges
    have hbound := card_shadow_le f.width f.consensusRound
    omega
  | succ rounds ih =>
    intro f hf hirredundant hrounds
    unfold consensusRounds
    by_cases hchanges : f.consensusRound = f
    · rw [if_pos hchanges]
      exact .done hchanges
    · rw [if_neg hchanges]
      have hgrows := card_shadow_lt_consensusRound hf hirredundant hchanges
      have hwidth : f.consensusRound.width = f.width := rfl
      exact .round hchanges
        (ih hf.consensusRound (irredundant_maximal _) (by rw [hwidth]; omega))

theorem consensusLoop_primes (hf : f.WellFormed) : ConsensusLoop f.maximal f.primes :=
  consensusLoop_consensusRounds _ hf.maximal (irredundant_maximal f) (Nat.le_add_right _ _)

/-- The loop ends with a cover that a round does not change, with the points of the first. -/
theorem ConsensusLoop.spec (hloop : ConsensusLoop f g) (hf : f.WellFormed)
    (hirredundant : f.Irredundant) :
    g.WellFormed ∧ g.Irredundant ∧ g.width = f.width ∧ g.points = f.points ∧
      g.consensusRound = g := by
  induction hloop with
  | done hend => exact ⟨hf, hirredundant, rfl, rfl, hend⟩
  | round _ _ ih =>
    obtain ⟨hg, hirredundantg, hwidth, hpoints, hend⟩ :=
      ih hf.consensusRound (irredundant_maximal _)
    exact ⟨hg, hirredundantg, hwidth, hpoints.trans (points_consensusRound hf), hend⟩

/-- The loop that begins with a cover has one end. -/
theorem ConsensusLoop.eq {h : Cover} (hfirst : ConsensusLoop f g) (hsecond : ConsensusLoop f h) :
    g = h := by
  induction hfirst with
  | done hend =>
    cases hsecond with
    | done => rfl
    | round hchanges => exact absurd hend hchanges
  | round hchanges _ ih =>
    cases hsecond with
    | done hend => exact absurd hend hchanges
    | round _ hrest => exact ih hrest

/-! ### Completeness -/

section Completeness

variable {c : Cube}

/-- A cube without a free column has one point, and lies within each cube that has the point. -/
theorem exists_containing_of_no_free_column (hf : f.WellFormed) (himplicant : f.IsImplicant c)
    (hfixed : ∀ i < c.width, c.column i ≠ none) : ∃ d ∈ f.cubes, c.points ⊆ d.points := by
  obtain ⟨d, hd, hpoint⟩ :=
    (mem_points_iff hf).mp (himplicant.2 (c.corner_mem fun _ ↦ false))
  have hwidth : c.width = d.width := himplicant.1.trans (hf d hd).symm
  refine ⟨d, hd, (Cube.points_subset_iff hwidth).mpr fun i ↦ ?_⟩
  have haccepts := (Cube.mem_points_iff.mp hpoint).2 i
  by_cases hi : i < c.width
  · obtain ⟨value, hvalue⟩ := Option.ne_none_iff_exists'.mp (hfixed i hi)
    rw [Cube.getD_corner _ hi, hvalue] at haccepts
    rw [hvalue]
    exact Column.allows_some_of_accepts haccepts
  · rw [Cube.column_eq_none (c := d) (by omega)]
    rfl

/-- A cube around one half of an implicant allows the value of the half, and elsewhere what the
implicant asks for. -/
theorem allows_of_points_fix_subset {d : Cube} {k : Nat} (hwidth : c.width = d.width)
    (hk : k < c.width) {value : Bool} (hsubset : (c.fix k value).points ⊆ d.points) :
    (d.column k).allows (some value) = true ∧
      ∀ i, i ≠ k → (d.column i).allows (c.column i) = true := by
  have hallows := (Cube.points_subset_iff ((Cube.width_fix c k value).trans hwidth)).mp hsubset
  refine ⟨?_, fun i hi ↦ ?_⟩
  · have hallowsk := hallows k
    rwa [Cube.column_fix_self hk] at hallowsk
  · have hallowsi := hallows i
    rwa [Cube.column_fix_of_ne hi] at hallowsi

/-- Cubes around both halves of an implicant lead to one around the whole of it, in a cover that a
round does not change: one of the two, or a cube around their consensus. -/
theorem exists_containing_of_halves (hf : f.WellFormed) (hend : f.consensusRound = f) {k : Nat}
    (hc : c.width = f.width) (hk : k < c.width) (hfree : c.column k = none)
    (hhalves : ∀ value, ∃ d ∈ f.cubes, (c.fix k value).points ⊆ d.points) :
    ∃ d ∈ f.cubes, c.points ⊆ d.points := by
  obtain ⟨d, hd, hdsubset⟩ := hhalves false
  obtain ⟨e, he, hesubset⟩ := hhalves true
  have hcd : c.width = d.width := hc.trans (hf d hd).symm
  have hce : c.width = e.width := hc.trans (hf e he).symm
  obtain ⟨hdk, hdothers⟩ := allows_of_points_fix_subset hcd hk hdsubset
  obtain ⟨hek, heothers⟩ := allows_of_points_fix_subset hce hk hesubset
  have hwhole : ∀ {s : Cube}, c.width = s.width → s.column k = none →
      (∀ i, i ≠ k → (s.column i).allows (c.column i) = true) → c.points ⊆ s.points := by
    intro s hcs hsk hothers
    refine (Cube.points_subset_iff hcs).mpr fun i ↦ ?_
    by_cases hik : i = k
    · rw [hik, hsk]
      rfl
    · exact hothers i hik
  rcases Column.allows_iff.mp hdk with hdnone | hdfalse
  · exact ⟨d, hd, hwhole hcd hdnone hdothers⟩
  · rcases Column.allows_iff.mp hek with henone | hetrue
    · exact ⟨e, he, hwhole hce henone heothers⟩
    · have hconflict : (d.column k).meet? (e.column k) = none := by
        rw [hdfalse, hetrue]
        rfl
      obtain ⟨both, hboth, hsubset⟩ := Cube.exists_consensus?_of_allows (hcd.symm.trans hce) hcd
        hfree hconflict hdothers heothers
      obtain ⟨s, hs, hboths⟩ := exists_mem_consensusRound hf (.inr ⟨d, hd, e, he, hboth⟩)
      rw [hend] at hs
      exact ⟨s, hs, hsubset.trans hboths⟩

/-- In a cover that a round does not change, an implicant that has no free column from some column
on lies within some cube. -/
theorem exists_containing_of_fixed_from (hf : f.WellFormed) (hend : f.consensusRound = f)
    (k : Nat) : ∀ {c : Cube}, f.IsImplicant c → (∀ i < c.width, k ≤ i → c.column i ≠ none) →
      ∃ d ∈ f.cubes, c.points ⊆ d.points := by
  induction k with
  | zero =>
    intro c himplicant hfixed
    exact exists_containing_of_no_free_column hf himplicant fun i hi ↦
      hfixed i hi (Nat.zero_le i)
  | succ k ih =>
    intro c himplicant hfixed
    by_cases hfree : k < c.width ∧ c.column k = none
    · refine exists_containing_of_halves hf hend himplicant.1 hfree.1 hfree.2 fun value ↦ ?_
      refine ih ⟨(Cube.width_fix c k value).trans himplicant.1,
        (Cube.points_fix_subset hfree.2 value).trans himplicant.2⟩ fun i hi hki ↦ ?_
      rw [Cube.width_fix] at hi
      by_cases hik : i = k
      · rw [hik, Cube.column_fix_self hfree.1]
        exact Option.some_ne_none _
      · rw [Cube.column_fix_of_ne hik]
        exact hfixed i hi (by omega)
    · refine ih himplicant fun i hi hki ↦ ?_
      by_cases hik : i = k
      · exact hik ▸ fun hnone ↦ hfree ⟨hik ▸ hi, hnone⟩
      · exact hfixed i hi (by omega)

/-- In a cover that a round does not change, every implicant lies within some cube. -/
theorem exists_containing_of_isImplicant (hf : f.WellFormed) (hend : f.consensusRound = f)
    (himplicant : f.IsImplicant c) : ∃ d ∈ f.cubes, c.points ⊆ d.points :=
  exists_containing_of_fixed_from hf hend c.width himplicant fun _ hi hle ↦
    absurd hi (Nat.not_lt.mpr hle)

/-- The cubes of a cover that a round does not change, none of them redundant, are its primes. -/
theorem mem_iff_isPrime (hf : f.WellFormed) (hirredundant : f.Irredundant)
    (hend : f.consensusRound = f) : c ∈ f.cubes ↔ f.IsPrime c := by
  constructor
  · intro hc
    refine ⟨isImplicant_of_mem hf hc, fun d himplicant hsmaller ↦ ?_⟩
    obtain ⟨e, he, hde⟩ := exists_containing_of_isImplicant hf hend himplicant
    have hcontains := (Cube.strictlyContains_iff ((hf c hc).trans (hf e he).symm)).mpr
      (hsmaller.trans_subset hde)
    rw [hirredundant c hc e he] at hcontains
    cases hcontains
  · intro hprime
    obtain ⟨d, hd, hsubset⟩ := exists_containing_of_isImplicant hf hend hprime.1
    rwa [hprime.eq_of_subset (isImplicant_of_mem hf hd) hsubset]

end Completeness

/-! ### The primes -/

@[simp]
theorem width_primes (f : Cover) : f.primes.width = f.width := by
  have hrounds : ∀ (rounds : Nat) (f : Cover), (consensusRounds rounds f).width = f.width := by
    intro rounds
    induction rounds with
    | zero => exact fun f ↦ rfl
    | succ rounds ih =>
      intro f
      rw [consensusRounds]
      split
      · rfl
      · exact ih _
  exact hrounds _ _

theorem wellFormed_primes (hf : f.WellFormed) : f.primes.WellFormed :=
  ((consensusLoop_primes hf).spec hf.maximal (irredundant_maximal f)).1

theorem points_primes (hf : f.WellFormed) : f.primes.points = f.points :=
  ((consensusLoop_primes hf).spec hf.maximal (irredundant_maximal f)).2.2.2.1.trans
    (points_maximal hf)

theorem mem_primes (hf : f.WellFormed) {c : Cube} : c ∈ f.primes.cubes ↔ f.IsPrime c := by
  obtain ⟨hwellFormed, hirredundant, -, -, hend⟩ :=
    (consensusLoop_primes hf).spec hf.maximal (irredundant_maximal f)
  exact (mem_iff_isPrime hwellFormed hirredundant hend).trans
    (IsPrime.congr (width_primes f) (points_primes hf))

/-- Every implicant of a cover lies within a prime. -/
theorem exists_prime_containing (hf : f.WellFormed) {c : Cube} (himplicant : f.IsImplicant c) :
    ∃ d ∈ f.primes.cubes, c.points ⊆ d.points := by
  have hprimes := (consensusLoop_primes hf).spec hf.maximal (irredundant_maximal f)
  exact exists_containing_of_isImplicant hprimes.1 hprimes.2.2.2.2
    ((IsImplicant.congr (width_primes f) (points_primes hf)).mpr himplicant)

/-- The primes depend on the points alone. -/
theorem primes_eq_of_points_eq (hf : f.WellFormed) (hg : g.WellFormed) (hwidth : f.width = g.width)
    (hpoints : f.points = g.points) : f.primes = g.primes := by
  refine ext_mem (by simpa using hwidth) fun c ↦ ?_
  rw [mem_primes hf, mem_primes hg, IsPrime.congr hwidth hpoints]

/-- The rounds of consensus that begin with the maximal cubes of a cover end, with a cover of the
same width. Its cubes are the implicants that are not a proper part of another implicant, and covers
of one width with the same points lead to the same result. -/
theorem primes_eq_iterated_consensus (hf : f.WellFormed) :
    ConsensusLoop f.maximal f.primes ∧ f.primes.width = f.width ∧
      (∀ c, c ∈ f.primes.cubes ↔ f.IsPrime c) ∧
        ∀ g : Cover, g.WellFormed → g.width = f.width → g.points = f.points →
          g.primes = f.primes :=
  ⟨consensusLoop_primes hf, width_primes f, fun _ ↦ mem_primes hf,
    fun _ hg hwidth hpoints ↦ primes_eq_of_points_eq hg hf hwidth hpoints⟩

/-- A choice between the last two columns by the first. Both cubes together imply a third. -/
def multiplexer : Cover :=
  ofList 3 [⟨[some true, some true, none]⟩, ⟨[some false, none, some true]⟩]

/-- The primes of the choice are its two cubes and the implied one, and these are their own
primes. -/
theorem primes_multiplexer : multiplexer.WellFormed ∧
    multiplexer.primes.cubes = [⟨[none, some true, some true]⟩, ⟨[some false, none, some true]⟩,
      ⟨[some true, some true, none]⟩] ∧
      multiplexer.IsPrime ⟨[none, some true, some true]⟩ ∧
        multiplexer.primes.primes = multiplexer.primes := by
  have hf : multiplexer.WellFormed := wellFormed_ofList (by decide)
  have hcubes : multiplexer.primes.cubes = [⟨[none, some true, some true]⟩,
      ⟨[some false, none, some true]⟩, ⟨[some true, some true, none]⟩] := by cbv
  obtain ⟨-, hwidth, hprime, hunique⟩ := primes_eq_iterated_consensus hf
  refine ⟨hf, hcubes, (hprime _).mp ?_, ?_⟩
  · rw [hcubes]
    exact List.mem_cons_self
  · exact hunique multiplexer.primes (wellFormed_primes hf) hwidth (points_primes hf)

end SwitchingAlgebra.Cover
