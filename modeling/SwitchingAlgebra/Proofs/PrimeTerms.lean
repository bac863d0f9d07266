import Mathlib
import SwitchingAlgebra.Proofs.Primes
import SwitchingAlgebra.Proofs.TwoLevel

/-!
# Prime terms of a function

Whether a term is an implicant of a function of the assignments, and whether it is a prime one,
makes no mention of columns. The primes of the cover of a two-level form are the prime terms of the
sum of its terms, whichever symbols the form has besides: a prime term has no literal of a symbol
that the function does not depend on.

The order of the cubes makes no mention of columns either: a cube comes before another when it comes
first in the least symbol in which their terms differ.

Main statement: `terms_primes_eq`, the primes of two forms with the same sum are the same terms in
the same order.
-/

set_option autoImplicit false
set_option relaxedAutoImplicit false

namespace SwitchingAlgebra

namespace Term

variable {t u : Term}

/-! ### Implication -/

/-- The first term holds under no assignment under which the second does not. -/
def Implies (t u : Term) : Prop :=
  ∀ assignment : Symbol → Bool, t.holds assignment .and = true → u.holds assignment .and = true

/-- A term of increasing literals under which a function is true. -/
def IsImplicant (value : (Symbol → Bool) → Bool) (t : Term) : Prop :=
  t.Increasing ∧ ∀ assignment, t.holds assignment .and = true → value assignment = true

/-- An implicant that implies no other. -/
def IsPrime (value : (Symbol → Bool) → Bool) (t : Term) : Prop :=
  IsImplicant value t ∧ ∀ u, IsImplicant value u → t.Implies u → u = t

/-- A term under which some literal of another always holds has such a literal itself. -/
theorem exists_mem_of_forall_exists (ht : t.Increasing) (hu : u.Increasing)
    (himplies : ∀ assignment, t.holds assignment .and = true →
      ∃ l ∈ u, l.holds assignment = true) : ∃ l ∈ u, l ∈ t := by
  -- The assignment that satisfies the first term and falsifies what it may of the second.
  let avoiding : Symbol → Bool := fun s ↦ (t.polarity? s).getD !(u.polarity? s).getD true
  have hholds : t.holds avoiding .and = true :=
    (holds_iff ht).mpr fun s ↦ Column.accepts_getD _ _
  obtain ⟨l, hl, hvalue⟩ := himplies avoiding hholds
  have hvalue : avoiding l.symbol = l.positive := beq_iff_eq.mp hvalue
  refine ⟨l, hl, (polarity?_eq_some_iff ht).mp ?_⟩
  rcases hpolarity : t.polarity? l.symbol with _ | value
  · simp [avoiding, hpolarity, (polarity?_eq_some_iff hu).mpr hl] at hvalue
  · simpa [avoiding, hpolarity] using hvalue

/-- What a term implies has some of its literals. -/
theorem Implies.subset (ht : t.Increasing) (himplies : t.Implies u) : u ⊆ t := by
  intro l hl
  obtain ⟨m, hm, hmem⟩ := exists_mem_of_forall_exists ht (increasing_singleton l)
    fun assignment hholds ↦ ⟨l, List.mem_singleton_self l,
      List.all_eq_true.mp (himplies assignment hholds) l hl⟩
  rwa [List.mem_singleton.mp hm] at hmem

theorem implies_of_subset (hsubset : u ⊆ t) : t.Implies u := fun _ hholds ↦
  List.all_eq_true.mpr fun l hl ↦ List.all_eq_true.mp hholds l (hsubset hl)

/-! ### Order -/

/-- The first term comes before the second in the least symbol in which they differ. -/
def Precedes (t u : Term) : Prop :=
  ∃ s, compare (t.polarity? s) (u.polarity? s) = .lt ∧
    ∀ r, compare r s = .lt → t.polarity? r = u.polarity? r

theorem Precedes.asymm (hprecedes : t.Precedes u) : ¬ u.Precedes t := by
  rintro ⟨s', hlt', hagree'⟩
  obtain ⟨s, hlt, hagree⟩ := hprecedes
  rcases horder : compare s s' with _ | _ | _
  · rw [hagree' s horder] at hlt
    exact asymm_of_orientedCmp _ _ hlt hlt
  · rw [← Std.LawfulEqOrd.eq_of_compare horder] at hlt'
    exact asymm_of_orientedCmp _ _ hlt hlt'
  · rw [hagree s' (Std.OrientedCmp.gt_iff_lt.mp horder)] at hlt'
    exact asymm_of_orientedCmp _ _ hlt' hlt'

end Term

namespace Cube

/-- Of two lists of columns of one length, the one that comes first does so in the first column in
which they differ. -/
theorem exists_first_difference {cs : List Column} :
    ∀ {ds : List Column}, cs.length = ds.length → compare cs ds = .lt →
      ∃ i < cs.length, compare (cs.getD i none) (ds.getD i none) = .lt ∧
        ∀ j < i, cs.getD j none = ds.getD j none := by
  induction cs with
  | nil =>
    intro ds hlength hlt
    obtain rfl := List.eq_nil_of_length_eq_zero hlength.symm
    cases hlt
  | cons c cs ih =>
    intro ds hlength hlt
    cases ds with
    | nil => simp at hlength
    | cons d ds =>
      rw [List.compare_cons_cons] at hlt
      rcases Ordering.then_eq_lt.mp hlt with hhead | ⟨hhead, htail⟩
      · exact ⟨0, Nat.succ_pos _, hhead, fun j hj ↦ absurd hj (Nat.not_lt_zero j)⟩
      · obtain ⟨i, hi, hcolumn, hbefore⟩ := ih (by simpa using hlength) htail
        refine ⟨i + 1, Nat.succ_lt_succ hi, hcolumn, ?_⟩
        rintro (_ | j) hj
        · exact Std.LawfulEqOrd.eq_of_compare hhead
        · exact hbefore j (Nat.lt_of_succ_lt_succ hj)

end Cube

namespace TwoLevel

variable {form : TwoLevel} {c d : Cube}

/-! ### Implicants -/

theorem points_subset_points_iff (hform : form.WellFormed) (hc : c.width = form.symbols.length)
    (hd : d.width = form.symbols.length) :
    c.points ⊆ d.points ↔ (form.term c).Implies (form.term d) := by
  rw [Set.subset_def, forall_mem_points_iff hform hc]
  exact forall_congr' fun _ ↦ imp_congr_right fun _ ↦ row_mem_points_iff hform hd

theorem isImplicant_iff (hform : form.WellFormed) (hc : c.width = form.symbols.length) :
    form.cover.IsImplicant c ↔ Term.IsImplicant form.sum (form.term c) := by
  rw [Cover.IsImplicant, Set.subset_def, forall_mem_points_iff hform hc]
  simp only [row_mem_points_iff_sum hform]
  exact ⟨fun himplicant ↦ ⟨hform.increasing_term, himplicant.2⟩,
    fun himplicant ↦ ⟨hc, himplicant.2⟩⟩

/-- A prime term has literals of the symbols of the form alone. -/
theorem mem_symbols_of_isPrime (hform : form.WellFormed) {t : Term}
    (hprime : Term.IsPrime form.sum t) : ∀ l ∈ t, l.symbol ∈ form.symbols := by
  obtain ⟨⟨ht, himplicant⟩, hmaximal⟩ := hprime
  -- Its part over the symbols of the form is an implicant, so it is all of it.
  let part : Term := t.filter fun l ↦ l.symbol ∈ form.symbols
  have hpart : Term.IsImplicant form.sum part := by
    refine ⟨ht.filter _, fun assignment hholds ↦ ?_⟩
    let changed : Symbol → Bool := fun s ↦
      if s ∈ form.symbols then assignment s else (t.polarity? s).getD true
    have hchanged : t.holds changed .and = true := by
      refine (Term.holds_iff ht).mpr fun s ↦ ?_
      by_cases hs : s ∈ form.symbols
      · rcases hpolarity : t.polarity? s with _ | value
        · rfl
        · have hl : ⟨s, value⟩ ∈ part :=
            List.mem_filter.mpr ⟨(Term.polarity?_eq_some_iff ht).mp hpolarity, by simpa using hs⟩
          have hvalue := List.all_eq_true.mp hholds _ hl
          rw [Literal.holds, Bool.beq_comm] at hvalue
          simp only [changed, if_pos hs]
          exact hvalue
      · simp only [changed, if_neg hs]
        exact Column.accepts_getD _ _
    rw [sum_congr hform fun s hs ↦ (if_pos hs).symm]
    exact himplicant changed hchanged
  have hall : part = t := hmaximal part hpart (Term.implies_of_subset List.filter_sublist.subset)
  intro l hl
  rw [← hall] at hl
  simpa using (List.mem_filter.mp hl).2

/-- The primes of the cover of a form are the prime terms of its sum. -/
theorem isPrime_iff (hform : form.WellFormed) (hc : c.width = form.symbols.length) :
    form.cover.IsPrime c ↔ Term.IsPrime form.sum (form.term c) := by
  constructor
  · intro hprime
    refine ⟨(isImplicant_iff hform hc).mp hprime.1, fun u hu himplies ↦ ?_⟩
    have hsymbols : ∀ l ∈ u, l.symbol ∈ form.symbols := by
      intro l hl
      obtain ⟨i, hi, -⟩ := mem_term.mp (himplies.subset hform.increasing_term hl)
      exact List.mem_of_getElem? hi
    have hcube : form.term (form.cube u) = u := term_cube hform hu.1 hsymbols
    rw [← hcube] at hu himplies ⊢
    rw [hprime.eq_of_subset ((isImplicant_iff hform width_cube).mpr hu)
      ((points_subset_points_iff hform hc width_cube).mpr himplies)]
  · rintro ⟨himplicant, hmaximal⟩
    refine ⟨(isImplicant_iff hform hc).mpr himplicant, fun d hd hproper ↦ hproper.ne ?_⟩
    have hterm := hmaximal _ ((isImplicant_iff hform hd.1).mp hd)
      ((points_subset_points_iff hform hc hd.1).mp hproper.subset)
    rw [← cube_term hform hc, ← hterm, cube_term hform hd.1]

theorem mem_termsOf_primes (hform : form.WellFormed) {t : Term} :
    t ∈ form.termsOf form.cover.primes ↔ Term.IsPrime form.sum t := by
  rw [termsOf, List.mem_map]
  constructor
  · rintro ⟨c, hc, rfl⟩
    have hprime := (Cover.mem_primes form.wellFormed_cover).mp hc
    exact (isPrime_iff hform hprime.1.1).mp hprime
  · intro hprime
    have hcube : form.term (form.cube t) = t :=
      term_cube hform hprime.1.1 (mem_symbols_of_isPrime hform hprime)
    refine ⟨form.cube t, (Cover.mem_primes form.wellFormed_cover).mpr ?_, hcube⟩
    exact (isPrime_iff hform width_cube).mpr (hcube.symm ▸ hprime)

/-! ### Cubes in order -/

theorem precedes_of_compare_lt (hform : form.WellFormed) (hc : c.width = form.symbols.length)
    (hd : d.width = form.symbols.length) (hlt : compare c d = .lt) :
    (form.term c).Precedes (form.term d) := by
  obtain ⟨i, hi, hcolumn, hbefore⟩ := Cube.exists_first_difference (hc.trans hd.symm) hlt
  have hi : i < form.symbols.length := hi.trans_eq hc
  have hsymbol := List.getElem?_eq_getElem hi
  refine ⟨form.symbols[i], ?_, fun r hr ↦ ?_⟩
  · rw [polarity?_term hform hsymbol, polarity?_term hform hsymbol]
    exact hcolumn
  · by_cases hmem : r ∈ form.symbols
    · obtain ⟨j, hj, rfl⟩ := List.mem_iff_getElem.mp hmem
      have hji : j < i := by
        by_contra hle
        rcases Nat.eq_or_lt_of_le (Nat.le_of_not_lt hle) with heq | hij
        · subst heq
          exact Term.ne_of_compare_lt hr rfl
        · exact asymm_of_orientedCmp _ _ hr
            (List.pairwise_iff_getElem.mp hform.increasing i j hi hj hij)
      have hsymbol' := List.getElem?_eq_getElem hj
      rw [polarity?_term hform hsymbol', polarity?_term hform hsymbol']
      exact hbefore j hji
    · rw [polarity?_term_of_notMem hmem, polarity?_term_of_notMem hmem]

/-- The terms of a cover stand in the order of the terms. -/
theorem pairwise_termsOf (hform : form.WellFormed) {f : Cover} (hf : f.WellFormed)
    (hwidth : f.width = form.symbols.length) : (form.termsOf f).Pairwise Term.Precedes := by
  refine List.pairwise_map.mpr (f.increasing.imp_of_mem fun hc hd hlt ↦ ?_)
  exact precedes_of_compare_lt hform ((hf _ hc).trans hwidth) ((hf _ hd).trans hwidth) hlt

/-- Covers of two forms that have the same terms have them in the same order. -/
theorem termsOf_eq_of_mem_iff {first second : TwoLevel} (hfirst : first.WellFormed)
    (hsecond : second.WellFormed) {f g : Cover} (hf : f.WellFormed) (hg : g.WellFormed)
    (hfwidth : f.width = first.symbols.length) (hgwidth : g.width = second.symbols.length)
    (hmem : ∀ t, t ∈ first.termsOf f ↔ t ∈ second.termsOf g) :
    first.termsOf f = second.termsOf g :=
  eq_of_pairwise_of_mem_iff (fun _ _ ↦ Term.Precedes.asymm) (pairwise_termsOf hfirst hf hfwidth)
    (pairwise_termsOf hsecond hg hgwidth) hmem

/-- The primes of two forms with the same sum are the same terms in the same order. -/
theorem terms_primes_eq {first second : TwoLevel} (hfirst : first.WellFormed)
    (hsecond : second.WellFormed) (hsum : first.sum = second.sum) :
    first.termsOf first.cover.primes = second.termsOf second.cover.primes :=
  termsOf_eq_of_mem_iff hfirst hsecond (Cover.wellFormed_primes first.wellFormed_cover)
    (Cover.wellFormed_primes second.wellFormed_cover) (Cover.width_primes _) (Cover.width_primes _)
    fun t ↦ by rw [mem_termsOf_primes hfirst, mem_termsOf_primes hsecond, hsum]

end TwoLevel

end SwitchingAlgebra
