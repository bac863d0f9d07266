import Mathlib
import SwitchingAlgebra.Proofs.EvaluatedForms
import SwitchingAlgebra.Transform.Flattening

/-!
# Evaluation ignores grouping

Evaluated operands are combined to the same expression in whatever order and however often they are
written, and a list that was combined before may be replaced by what came of it. A list that is left
with one part gives that part, whether or not it is in two-level form, and every other list gives
the minimum two-level form of its value. So when the combined list joins further operands, either
the parts are the same as before, or both joins reach a minimum two-level form of one value.

Flattening splices the operands of nested joins into the join above them. That changes the grouping
and the marks and nothing else.

Main statements: a combined list stands for its operands (`combine_append`), an evaluated expression
is combined again from its own operands (`combine_splice`), and an expression and its flattened form
are evaluated to the same expression (`evaluation_ignores_grouping`).
-/

set_option autoImplicit false
set_option relaxedAutoImplicit false

namespace SwitchingAlgebra

open Policy

variable {op : Connective} {es fs rest : List Expr} {a b c d e : Expr}

namespace Expr

/-! ### What operands contribute -/

theorem splice_join_self (mode : Mode) (op : Connective) (es : List Expr) :
    (Expr.join mode op es).splice op = es :=
  if_pos rfl

theorem splice_eq_singleton (hjoin : ∀ mode es, e ≠ .join mode op es) : e.splice op = [e] := by
  match e with
  | .truth _ | .symbol _ | .not _ _ => rfl
  | .join mode child es =>
    refine if_neg fun hchild ↦ hjoin mode es ?_
    rw [hchild]

theorem exists_eq_join_of_connective? (hop : e.connective? = some op) :
    ∃ mode es, e = .join mode op es := by
  cases e with
  | join mode child es =>
    cases hop
    exact ⟨mode, es, rfl⟩
  | _ => cases hop

theorem splice_eq_singleton_of_connective? (hne : e.connective? ≠ some op) : e.splice op = [e] := by
  refine splice_eq_singleton fun mode es hjoin ↦ hne ?_
  rw [hjoin, connective?]

/-- An expression is a join of the connective or contributes itself. -/
theorem splice_cases (op : Connective) (e : Expr) :
    (∃ mode es, e = .join mode op es) ∨ e.connective? ≠ some op ∧ e.splice op = [e] := by
  by_cases hsame : e.connective? = some op
  · exact .inl (exists_eq_join_of_connective? hsame)
  · exact .inr ⟨hsame, splice_eq_singleton_of_connective? hsame⟩

theorem IsClause.splice_eq (he : IsClause op e) : e.splice op = [e] :=
  splice_eq_singleton he.ne_join

/-- An evaluated expression is a join of the connective or contributes itself. -/
theorem Evaluated.isMinimum_or_splice_eq (he : e.Evaluated) (op : Connective) :
    (∃ es, e = .join .evaluated op es ∧ IsMinimum op es) ∨ e.splice op = [e] := by
  rcases splice_cases op e with ⟨mode, es, rfl⟩ | ⟨-, hsplice⟩
  · cases he with | join hes =>
    exact .inl ⟨es, rfl, hes⟩
  · exact .inr hsplice

/-- What an evaluated operand contributes is not spliced any further. -/
theorem Evaluated.splice_of_mem_splice (he : e.Evaluated) (hd : d ∈ e.splice op) :
    d.splice op = [d] := by
  rcases he.isMinimum_or_splice_eq op with ⟨es, rfl, hes⟩ | hsplice
  · rw [splice_join_self] at hd
    exact (hes.spec.2.2 d hd).splice_eq
  · rw [hsplice, List.mem_singleton] at hd
    rw [hd, hsplice]

/-! ### The parts of evaluated operands -/

/-- No evaluated operand is lost when repetitions are dropped. -/
theorem mem_distinct (hes : ∀ e ∈ es, e.Evaluated) : d ∈ Expr.distinct es ↔ d ∈ es := by
  refine ⟨mem_of_mem_sortDistinct, fun hd ↦ ?_⟩
  have hkept : ∃ x ∈ Expr.distinct es, compare x d = .eq := exists_mem_sortDistinct hd
  obtain ⟨x, hx, hequal⟩ := hkept
  have hsame : x = d :=
    (hes x (mem_of_mem_sortDistinct hx)).eq_of_compare (hes d hd) hequal
  exact hsame ▸ hx

/-- The parts of evaluated operands are what they contribute, without the identity. -/
theorem mem_parts_iff (hes : ∀ e ∈ es, e.Evaluated) : d ∈ standard.parts op es ↔
    (∃ e ∈ es, d ∈ e.splice op) ∧ d ≠ .truth op.identity := by
  have hspliced : ∀ x ∈ es.flatMap (splice op), x.Evaluated := by
    intro x hx
    obtain ⟨e, he, hmem⟩ := List.mem_flatMap.mp hx
    exact (hes e he).of_mem_splice hmem
  have hidentity : (!d.isTruth op.identity) = true ↔ d ≠ .truth op.identity := by
    rw [Bool.not_eq_true', ← Bool.not_eq_true, isTruth_iff]
  rw [parts, List.mem_filter, mem_distinct hspliced, List.mem_flatMap]
  exact and_congr_right fun _ ↦ hidentity

theorem pairwise_parts (op : Connective) (es : List Expr) :
    (standard.parts op es).Pairwise fun d e ↦ compare d e = .lt :=
  (pairwise_sortDistinct _).filter _

/-- Evaluated operands have the same parts when they contribute the same expressions. -/
theorem parts_congr (hes : ∀ e ∈ es, e.Evaluated) (hfs : ∀ f ∈ fs, f.Evaluated)
    (hsame : ∀ d, d ≠ .truth op.identity →
      ((∃ e ∈ es, d ∈ e.splice op) ↔ ∃ f ∈ fs, d ∈ f.splice op)) :
    standard.parts op es = standard.parts op fs := by
  refine eq_of_pairwise_of_mem_iff asymm_of_orientedCmp (pairwise_parts op es)
    (pairwise_parts op fs) fun d ↦ ?_
  rw [mem_parts_iff hes, mem_parts_iff hfs]
  exact and_congr_left (hsame d)

/-- Lists with the same parts have the same parts together with further operands. -/
theorem parts_append_congr (hes : ∀ e ∈ es, e.Evaluated) (hfs : ∀ f ∈ fs, f.Evaluated)
    (hrest : ∀ e ∈ rest, e.Evaluated) (hparts : standard.parts op es = standard.parts op fs) :
    standard.parts op (es ++ rest) = standard.parts op (fs ++ rest) := by
  refine parts_congr (List.forall_mem_append.mpr ⟨hes, hrest⟩)
    (List.forall_mem_append.mpr ⟨hfs, hrest⟩) fun d hd ↦ ?_
  have hcontribute : (∃ e ∈ es, d ∈ e.splice op) ↔ ∃ f ∈ fs, d ∈ f.splice op := by
    have hmem := @mem_parts_iff op es d hes
    rw [hparts, mem_parts_iff hfs] at hmem
    simpa [hd] using hmem.symm
  simp only [List.mem_append, or_and_right, exists_or, hcontribute]

theorem isTruth_eq_false {value : Bool} (hne : e ≠ .truth value) : e.isTruth value = false := by
  rwa [← Bool.not_eq_true, isTruth_iff]

/-- The operands of a minimum two-level form are its parts. -/
theorem IsMinimum.parts_eq (hes : IsMinimum op es) : standard.parts op es = es := by
  have hclause := hes.spec.2.2
  exact parts_eq_self hes.spec.2.1 (fun e he ↦ (hclause e he).splice_eq)
    fun e he ↦ isTruth_eq_false ((hclause e he).ne_truth _)

/-- So they are its parts as well when it is the only operand. -/
theorem IsMinimum.parts_join_eq (hes : IsMinimum op es) :
    standard.parts op [.join .evaluated op es] = es := by
  have hsplice : [Expr.join .evaluated op es].flatMap (splice op) = es.flatMap (splice op) := by
    rw [flatMap_splice_eq fun e he ↦ (hes.spec.2.2 e he).splice_eq, List.flatMap_singleton,
      splice_join_self]
  rw [parts, hsplice]
  exact hes.parts_eq

/-- No operand is a join of the connective if a single part is left, since such a join has at least
two. -/
theorem splice_eq_of_parts_eq_singleton (hes : ∀ e ∈ es, e.Evaluated)
    (hparts : standard.parts op es = [d]) (he : e ∈ es) : e.splice op = [e] := by
  rcases (hes e he).isMinimum_or_splice_eq op with ⟨fs, rfl, hfs⟩ | hsplice
  · have hsubset : fs ⊆ [d] := by
      intro f hf
      rw [← hparts, mem_parts_iff hes]
      exact ⟨⟨_, he, by rwa [splice_join_self]⟩, (hfs.spec.2.2 f hf).ne_truth _⟩
    have hlength := ((nodup_of_pairwise_lt hfs.spec.2.1).subperm hsubset).length_le
    have htwo := hfs.spec.1
    rw [List.length_singleton] at hlength
    omega
  · exact hsplice

/-- An operand that is no join of the connective is its own only part, unless it is the identity. -/
theorem parts_singleton (hsplice : e.splice op = [e]) (hne : e ≠ .truth op.identity) :
    standard.parts op [e] = [e] :=
  parts_eq_self (List.pairwise_singleton _ e) (List.forall_mem_singleton.mpr hsplice)
    (List.forall_mem_singleton.mpr (isTruth_eq_false hne))

/-- A single part is left of evaluated operands that are this part and the identity. -/
theorem parts_eq_singleton_iff (hes : ∀ e ∈ es, e.Evaluated) : standard.parts op es = [d] ↔
    d ∈ es ∧ d.splice op = [d] ∧ d ≠ .truth op.identity ∧
      ∀ e ∈ es, e = d ∨ e = .truth op.identity := by
  constructor
  · intro hparts
    have hpart : ∀ e, e ∈ es ∧ e ≠ .truth op.identity ↔ e = d := by
      intro e
      rw [← List.mem_singleton, ← hparts, mem_parts_iff hes]
      refine and_congr_left fun _ ↦ ⟨fun he ↦ ⟨e, he, ?_⟩, ?_⟩
      · rw [splice_eq_of_parts_eq_singleton hes hparts he]
        exact List.mem_singleton_self e
      · rintro ⟨f, hf, hmem⟩
        rw [splice_eq_of_parts_eq_singleton hes hparts hf, List.mem_singleton] at hmem
        exact hmem ▸ hf
    obtain ⟨hmem, hne⟩ := (hpart d).mpr rfl
    exact ⟨hmem, splice_eq_of_parts_eq_singleton hes hparts hmem, hne, fun e he ↦
      or_iff_not_imp_right.mpr fun hidentity ↦ (hpart e).mp ⟨he, hidentity⟩⟩
  · rintro ⟨hmem, hsplice, hne, hall⟩
    have hparts : standard.parts op es = standard.parts op [d] := by
      refine parts_congr hes (List.forall_mem_singleton.mpr (hes d hmem)) fun x hx ↦ ⟨?_, ?_⟩
      · rintro ⟨e, he, hcontributed⟩
        rcases hall e he with rfl | rfl
        · exact ⟨e, List.mem_singleton_self e, hcontributed⟩
        · exact absurd (List.mem_singleton.mp hcontributed) hx
      · rintro ⟨e, he, hcontributed⟩
        rw [List.mem_singleton.mp he] at hcontributed
        exact ⟨d, hmem, hcontributed⟩
    exact hparts.trans (parts_singleton hsplice hne)

theorem parts_identity (op : Connective) : standard.parts op [.truth op.identity] = [] := by
  rw [List.eq_nil_iff_forall_not_mem]
  intro d hd
  obtain ⟨⟨e, he, hmem⟩, hne⟩ := (mem_parts_iff (List.forall_mem_singleton.mpr (.truth _))).mp hd
  rw [List.mem_singleton.mp he] at hmem
  exact hne (List.mem_singleton.mp hmem)

end Expr

namespace Policy

open SwitchingAlgebra.Expr

/-! ### Combining operands -/

theorem combine_eq_of_parts_eq (hparts : standard.parts op es = standard.parts op fs) :
    standard.combine op es = standard.combine op fs := by
  rw [combine, combine, hparts]

theorem combine_of_parts_eq_nil (hparts : standard.parts op es = []) :
    standard.combine op es = .truth op.identity := by
  rw [combine, hparts]
  rfl

theorem combine_of_parts_eq_singleton (hparts : standard.parts op es = [d]) :
    standard.combine op es = d := by
  rw [combine, hparts, List.any_cons, List.any_nil, Bool.or_false]
  split_ifs with htruth
  · exact (isTruth_iff.mp htruth).symm
  · rfl

/-- Evaluated operands may be written in any order and any number of times. -/
theorem combine_eq_of_mem_iff (hes : ∀ e ∈ es, e.Evaluated) (hmem : ∀ e, e ∈ es ↔ e ∈ fs) :
    standard.combine op es = standard.combine op fs := by
  refine combine_eq_of_parts_eq (parts_congr hes (fun f hf ↦ hes f ((hmem f).mpr hf)) fun d _ ↦ ?_)
  simp only [hmem]

/-- Operands of which not exactly one part is left give their minimum two-level form. -/
theorem combine_eq_minimize_of_length_ne (hlength : (standard.parts op es).length ≠ 1) :
    standard.combine op es = standard.minimize op es := by
  rw [combine_eq_minimize faithful_standard hlength]
  exact minimize_eq_of_holds_eq fun assignment ↦ holds_join_parts faithful_standard .raw es

/-- Operands that give the minimum two-level form of anything give their own. -/
theorem combine_eq_minimize_of_eq (hminimum : standard.combine op es = standard.minimize op fs) :
    standard.combine op es = standard.minimize op es := by
  rw [hminimum]
  refine minimize_eq_of_holds_eq fun assignment ↦ ?_
  calc (Expr.join .raw op fs).holds assignment
      = (standard.minimize op fs).holds assignment :=
        (holds_minimize faithful_standard .raw fs).symm
    _ = (standard.combine op es).holds assignment := by rw [hminimum]
    _ = (Expr.join .raw op es).holds assignment := holds_combine faithful_standard .raw es

/-- The operands of a minimum two-level form are joined as they stand. -/
theorem combine_of_isMinimum (hes : IsMinimum op es) :
    standard.combine op es = .join .evaluated op es := by
  have hlength := hes.spec.1
  rw [combine_eq_minimize_of_length_ne (by rw [hes.parts_eq]; omega), hes]

/-- A single evaluated operand is left as it stands. -/
theorem combine_singleton (he : e.Evaluated) : standard.combine op [e] = e := by
  rcases he.isMinimum_or_splice_eq op with ⟨es, rfl, hes⟩ | hsplice
  · rw [combine_eq_of_parts_eq (hes.parts_join_eq.trans hes.parts_eq.symm),
      combine_of_isMinimum hes]
  · by_cases hidentity : e = .truth op.identity
    · rw [hidentity]
      exact combine_of_parts_eq_nil (parts_identity op)
    · exact combine_of_parts_eq_singleton (parts_singleton hsplice hidentity)

/-! ### Combined operands as operands -/

/-- A combined list has the value of its operands among further operands. -/
theorem holds_join_combine_cons (es rest : List Expr) (assignment : Symbol → Bool) :
    (Expr.join .raw op (standard.combine op es :: rest)).holds assignment =
      (Expr.join .raw op (es ++ rest)).holds assignment := by
  apply @Connective.decides_injective op
  rw [Connective.decides_join, Connective.decides_join, List.any_cons, List.any_append,
    holds_combine faithful_standard .raw, Connective.decides_join]

/-- Operands with at most one part are combined to an expression with the same part. -/
theorem parts_combine (hes : ∀ e ∈ es, e.Evaluated)
    (hlength : (standard.parts op es).length ≤ 1) :
    standard.parts op [standard.combine op es] = standard.parts op es := by
  match hparts : standard.parts op es with
  | [] => rw [combine_of_parts_eq_nil hparts, parts_identity]
  | [d] =>
    obtain ⟨⟨e, he, hd⟩, hne⟩ := (mem_parts_iff hes).mp (hparts ▸ List.mem_singleton_self d)
    rw [combine_of_parts_eq_singleton hparts]
    exact parts_singleton ((hes e he).splice_of_mem_splice hd) hne
  | _ :: _ :: _ =>
    rw [hparts, List.length_cons, List.length_cons] at hlength
    omega

/-- Operands of which a part is left do not come to the identity. -/
theorem combine_ne_identity (hes : ∀ e ∈ es, e.Evaluated) (hd : d ∈ standard.parts op es) :
    standard.combine op es ≠ .truth op.identity := by
  intro hidentity
  refine ((mem_parts_iff hes).mp hd).2 ((evaluated_of_mem_parts hes hd).eq_truth ?_)
  intro assignment
  have hjoin : op.decides ((Expr.join .raw op (standard.parts op es)).holds assignment) =
      false := by
    rw [holds_join_parts faithful_standard, ← holds_combine faithful_standard, hidentity,
      holds_truth, Connective.decides_identity]
  rw [Connective.decides_join, List.any_eq_false] at hjoin
  apply @Connective.decides_injective op
  rw [Connective.decides_identity, ← Bool.not_eq_true]
  exact hjoin d hd

/-- When one part is left next to a combined list, it is what came of that list. -/
theorem eq_combine_of_parts_eq_singleton (hes : ∀ e ∈ es, e.Evaluated)
    (hrest : ∀ e ∈ rest, e.Evaluated) (hd : d ∈ standard.parts op es)
    (hparts : standard.parts op (standard.combine op es :: rest) = [e]) :
    e = standard.combine op es := by
  have hall : ∀ e ∈ standard.combine op es :: rest, e.Evaluated :=
    List.forall_mem_cons.mpr ⟨evaluated_combine hes, hrest⟩
  have hmem : standard.combine op es ∈ [e] := by
    rw [← hparts, mem_parts_iff hall]
    refine ⟨⟨_, List.mem_cons_self, ?_⟩, combine_ne_identity hes hd⟩
    rw [splice_eq_of_parts_eq_singleton hall hparts List.mem_cons_self]
    exact List.mem_singleton_self _
  exact (List.mem_singleton.mp hmem).symm

/-- A combined list of evaluated operands may stand for them among further evaluated operands. -/
theorem combine_append (hes : ∀ e ∈ es, e.Evaluated) (hrest : ∀ e ∈ rest, e.Evaluated) :
    standard.combine op (es ++ rest) = standard.combine op (standard.combine op es :: rest) := by
  by_cases hfew : (standard.parts op es).length ≤ 1
  · have hcombined : ∀ e ∈ [standard.combine op es], e.Evaluated :=
      List.forall_mem_singleton.mpr (evaluated_combine hes)
    exact combine_eq_of_parts_eq
      (parts_append_congr hes hcombined hrest (parts_combine hes hfew).symm)
  -- Both lists give the minimum two-level form of the same value.
  have hleft : standard.combine op (es ++ rest) = standard.minimize op (es ++ rest) := by
    have hall : ∀ e ∈ es ++ rest, e.Evaluated := List.forall_mem_append.mpr ⟨hes, hrest⟩
    have hsubset : standard.parts op es ⊆ standard.parts op (es ++ rest) := by
      intro d hd
      obtain ⟨⟨e, he, hmem⟩, hne⟩ := (mem_parts_iff hes).mp hd
      exact (mem_parts_iff hall).mpr ⟨⟨e, List.mem_append_left rest he, hmem⟩, hne⟩
    have hlength :=
      ((nodup_of_pairwise_lt (pairwise_parts op es)).subperm hsubset).length_le
    exact combine_eq_minimize_of_length_ne (by omega)
  have hright : standard.combine op (standard.combine op es :: rest) =
      standard.minimize op (standard.combine op es :: rest) := by
    by_cases hone : (standard.parts op (standard.combine op es :: rest)).length = 1
    · obtain ⟨e, hparts⟩ := List.length_eq_one_iff.mp hone
      obtain ⟨d, hd⟩ := List.exists_mem_of_length_pos (by omega : 0 < (standard.parts op es).length)
      apply @combine_eq_minimize_of_eq op _ es
      rw [combine_of_parts_eq_singleton hparts,
        eq_combine_of_parts_eq_singleton hes hrest hd hparts,
        combine_eq_minimize_of_length_ne (by omega)]
    · exact combine_eq_minimize_of_length_ne hone
  rw [hleft, hright]
  exact minimize_eq_of_holds_eq fun assignment ↦ (holds_join_combine_cons es rest assignment).symm

/-- Three evaluated operands may be grouped either way. -/
theorem combine_assoc (ha : a.Evaluated) (hb : b.Evaluated) (hc : c.Evaluated) :
    standard.combine op [standard.combine op [a, b], c] =
      standard.combine op [a, standard.combine op [b, c]] := by
  have hab : ∀ e ∈ [a, b], e.Evaluated := by simp [ha, hb]
  have hbc : ∀ e ∈ [b, c], e.Evaluated := by simp [hb, hc]
  have habc : ∀ e ∈ [a, b] ++ [c], e.Evaluated := by simp [ha, hb, hc]
  have hfirst : ∀ e ∈ [standard.combine op [b, c], a], e.Evaluated := by
    simp [ha, evaluated_combine hbc]
  calc standard.combine op [standard.combine op [a, b], c]
      = standard.combine op ([a, b] ++ [c]) :=
        (combine_append hab (List.forall_mem_singleton.mpr hc)).symm
    _ = standard.combine op ([b, c] ++ [a]) := combine_eq_of_mem_iff habc fun e ↦ by simp; tauto
    _ = standard.combine op [standard.combine op [b, c], a] :=
        combine_append hbc (List.forall_mem_singleton.mpr ha)
    _ = standard.combine op [a, standard.combine op [b, c]] :=
        combine_eq_of_mem_iff hfirst fun e ↦ by simp [or_comm]

/-- Operands may be replaced by evaluated operands that are combined to them. -/
theorem combine_flatMap {group : Expr → List Expr} {operand : Expr → Expr}
    (hgroup : ∀ e ∈ es, ∀ d ∈ group e, d.Evaluated)
    (hcombine : ∀ e ∈ es, standard.combine op (group e) = operand e) :
    ∀ {rest : List Expr}, (∀ e ∈ rest, e.Evaluated) →
      standard.combine op (es.flatMap group ++ rest) =
        standard.combine op (es.map operand ++ rest) := by
  induction es with
  | nil => exact fun _ ↦ rfl
  | cons e es ih =>
    intro rest hrest
    have hoperand : ∀ x ∈ e :: es, (operand x).Evaluated := fun x hx ↦
      hcombine x hx ▸ evaluated_combine (hgroup x hx)
    have hhead : ∀ d ∈ group e, d.Evaluated := hgroup e List.mem_cons_self
    have htail : ∀ d ∈ es.flatMap group ++ rest, d.Evaluated := by
      refine List.forall_mem_append.mpr ⟨fun d hd ↦ ?_, hrest⟩
      obtain ⟨x, hx, hd⟩ := List.mem_flatMap.mp hd
      exact hgroup x (List.mem_cons_of_mem _ hx) d hd
    have htail' : ∀ d ∈ es.map operand ++ rest, d.Evaluated := by
      refine List.forall_mem_append.mpr ⟨List.forall_mem_map.mpr fun x hx ↦ ?_, hrest⟩
      exact hoperand x (List.mem_cons_of_mem _ hx)
    have hfirst := hoperand e List.mem_cons_self
    -- The first operand is moved behind the others, so that they can be replaced in front of it.
    calc standard.combine op ((e :: es).flatMap group ++ rest)
        = standard.combine op (group e ++ (es.flatMap group ++ rest)) := by
          rw [List.flatMap_cons, List.append_assoc]
      _ = standard.combine op (operand e :: (es.flatMap group ++ rest)) := by
          rw [combine_append hhead htail, hcombine e List.mem_cons_self]
      _ = standard.combine op (es.flatMap group ++ operand e :: rest) :=
          combine_eq_of_mem_iff (List.forall_mem_cons.mpr ⟨hfirst, htail⟩)
            fun d ↦ List.perm_middle.mem_iff.symm
      _ = standard.combine op (es.map operand ++ operand e :: rest) :=
          ih (fun x hx ↦ hgroup x (List.mem_cons_of_mem _ hx))
            (fun x hx ↦ hcombine x (List.mem_cons_of_mem _ hx))
            (List.forall_mem_cons.mpr ⟨hfirst, hrest⟩)
      _ = standard.combine op ((e :: es).map operand ++ rest) :=
          (combine_eq_of_mem_iff (List.forall_mem_cons.mpr ⟨hfirst, htail'⟩)
            fun d ↦ List.perm_middle.mem_iff.symm).symm

end Policy

namespace Expr

/-! ### Evaluating settled expressions -/

/-- A settled negation is evaluated from its operand, in whichever mode it is marked. -/
theorem Settled.eval_not {mode : Mode} (he : (Expr.not mode e).Settled) :
    (Expr.not mode e).eval = standard.complement e.eval := by
  cases mode with
  | raw => exact eval_not_raw e
  | evaluated =>
    cases he with | evaluated he =>
    rw [he.eval_eq]
    cases he with
    | notSymbol name => rw [Evaluated.eval_eq (.symbol name), Policy.complement]
    | notJoin hes => rw [Evaluated.eval_eq (.join hes), Policy.complement]

/-- So is a settled join from its operands. -/
theorem Settled.eval_join {mode : Mode} (he : (Expr.join mode op es).Settled) :
    (Expr.join mode op es).eval = standard.combine op (es.map eval) := by
  cases mode with
  | raw => exact eval_join_raw op es
  | evaluated =>
    cases he with | evaluated he =>
    have hmap : es.map eval = es := map_eval_eq fun e hmem ↦ he.of_mem_operands hmem
    cases he with | join hes =>
    rw [hmap, combine_of_isMinimum hes, Evaluated.eval_eq (.join hes)]

/-- A negation of a settled operand is evaluated from it, in whichever mode it is built. -/
theorem eval_built_negation (mode : Mode) (he : e.Settled) :
    (standard.negation mode e).eval = standard.complement e.eval := by
  cases mode with
  | evaluated => exact (evaluated_complement he.evaluated_eval).eval_eq
  | raw => exact eval_not_raw e

/-- So is a join of settled operands. -/
theorem eval_built_join (mode : Mode) (op : Connective) (hes : ∀ e ∈ es, e.Settled) :
    (standard.join mode op es).eval = standard.combine op (es.map eval) := by
  cases mode with
  | raw => exact eval_join_raw op es
  | evaluated =>
    refine Evaluated.eval_eq (evaluated_combine (List.forall_mem_map.mpr fun e he ↦ ?_))
    exact (hes e he).evaluated_eval

theorem Settled.of_mem_splice (he : e.Settled) (hd : d ∈ e.splice op) : d.Settled := by
  rcases mem_operands_of_mem_splice hd with rfl | hd
  · exact he
  · exact he.of_mem_operands hd

/-- What a settled operand contributes to a join is combined to its evaluated form. -/
theorem Settled.combine_splice (he : e.Settled) :
    standard.combine op ((e.splice op).map eval) = e.eval := by
  rcases splice_cases op e with ⟨mode, es, rfl⟩ | ⟨-, hsplice⟩
  · rw [splice_join_self, he.eval_join]
  · rw [hsplice]
    exact combine_singleton he.evaluated_eval

/-! ### Flattening -/

theorem flattenAll_eq (p : Policy) (op : Connective) (es : List Expr) :
    p.flattenAll op es = es.flatMap fun e ↦ (p.flatten e).splice op := by
  induction es with
  | nil => rw [flattenAll, List.flatMap_nil]
  | cons e rest ih => rw [flattenAll, ih, List.flatMap_cons]

theorem flatten_join (mode : Mode) (op : Connective) (es : List Expr) :
    standard.flatten (.join mode op es) =
      .join .raw op (es.flatMap fun e ↦ (standard.flatten e).splice op) := by
  rw [flatten, flattenAll_eq]
  rfl

theorem flatten_not (mode : Mode) (e : Expr) :
    standard.flatten (.not mode e) = .not .raw (standard.flatten e) := by
  rw [flatten]
  rfl

/-- A flattened expression has no evaluated nodes. -/
theorem settled_flatten (e : Expr) : (standard.flatten e).Settled := by
  induction e using Expr.induct with
  | truth value =>
    rw [flatten]
    exact .evaluated (.truth value)
  | symbol name =>
    rw [flatten]
    exact .evaluated (.symbol name)
  | not mode operand ih =>
    rw [flatten_not]
    exact .not ih
  | join mode op operands ih =>
    rw [flatten_join]
    refine .join fun d hd ↦ ?_
    obtain ⟨e, he, hd⟩ := List.mem_flatMap.mp hd
    exact (ih e he).of_mem_splice hd

/-- A settled expression and its flattened form are evaluated to the same expression. -/
theorem eval_flatten (e : Expr) : e.Settled → (standard.flatten e).eval = e.eval := by
  induction e using Expr.induct with
  | truth value =>
    intro _
    rw [flatten]
  | symbol name =>
    intro _
    rw [flatten]
  | not mode operand ih =>
    intro he
    rw [flatten_not, Settled.eval_not (.not (settled_flatten operand)), he.eval_not,
      ih (he.of_mem_operands (List.mem_singleton_self operand))]
  | join mode op operands ih =>
    intro he
    have hsettled : (standard.flatten (.join mode op operands)).Settled := settled_flatten _
    rw [flatten_join] at hsettled ⊢
    rw [hsettled.eval_join, he.eval_join, List.map_flatMap]
    -- What a flattened operand contributes is combined to its evaluated form.
    have hgroups := @combine_flatMap op operands
      (fun e ↦ ((standard.flatten e).splice op).map eval) eval
      (fun e _ ↦ List.forall_mem_map.mpr fun d hd ↦
        ((settled_flatten e).of_mem_splice hd).evaluated_eval)
      (fun e hmem ↦ (settled_flatten e).combine_splice.trans
        (ih e hmem (he.of_mem_operands hmem))) [] (by simp)
    rwa [List.append_nil, List.append_nil] at hgroups

/-! ### Cleared marks -/

mutual

/-- The expression with the marks of all its nodes cleared. -/
def cleared : Expr → Expr
  | truth value => truth value
  | symbol name => symbol name
  | not _ operand => not .raw operand.cleared
  | join _ op operands => join .raw op (clearedAll operands)

/-- The expressions with the marks of all their nodes cleared. -/
def clearedAll : List Expr → List Expr
  | [] => []
  | e :: rest => e.cleared :: clearedAll rest

end

theorem clearedAll_eq_map (es : List Expr) : clearedAll es = es.map cleared := by
  induction es with
  | nil => rw [clearedAll, List.map_nil]
  | cons e rest ih => rw [clearedAll, ih, List.map_cons]

theorem settled_cleared (e : Expr) : e.cleared.Settled := by
  induction e using Expr.induct with
  | truth value =>
    rw [cleared]
    exact .evaluated (.truth value)
  | symbol name =>
    rw [cleared]
    exact .evaluated (.symbol name)
  | not mode operand ih =>
    rw [cleared]
    exact .not ih
  | join mode op operands ih =>
    rw [cleared, clearedAll_eq_map]
    exact .join (List.forall_mem_map.mpr ih)

/-- A settled expression is evaluated to the same expression when its marks are cleared. -/
theorem eval_cleared (e : Expr) : e.Settled → e.cleared.eval = e.eval := by
  induction e using Expr.induct with
  | truth value =>
    intro _
    rw [cleared]
  | symbol name =>
    intro _
    rw [cleared]
  | not mode operand ih =>
    intro he
    rw [cleared, Settled.eval_not (.not (settled_cleared operand)), he.eval_not,
      ih (he.of_mem_operands (List.mem_singleton_self operand))]
  | join mode op operands ih =>
    intro he
    have hoperands : (operands.map cleared).map eval = operands.map eval := by
      rw [List.map_map]
      exact List.map_congr_left fun e hmem ↦ ih e hmem (he.of_mem_operands hmem)
    rw [cleared, clearedAll_eq_map, Settled.eval_join (.join (List.forall_mem_map.mpr fun e _ ↦
      settled_cleared e)), he.eval_join, hoperands]

theorem IsClause.splice_cleared (he : IsClause op e) : e.cleared.splice op = [e.cleared] := by
  refine splice_eq_singleton fun mode es hjoin ↦ ?_
  match e with
  | .truth _ | .symbol _ | .not _ _ =>
    rw [cleared] at hjoin
    cases hjoin
  | .join mode' child fs =>
    rw [cleared] at hjoin
    obtain ⟨-, rfl, -⟩ := join.inj hjoin
    exact he.ne_join _ _ rfl

/-- No evaluated expression has a join directly below a join of the same connective, so flattening
only clears its marks. -/
theorem flatten_eq_cleared (e : Expr) : e.Evaluated → standard.flatten e = e.cleared := by
  induction e using Expr.induct with
  | truth value =>
    intro _
    rw [flatten, cleared]
  | symbol name =>
    intro _
    rw [flatten, cleared]
  | not mode operand ih =>
    intro he
    rw [flatten_not, cleared, ih (he.of_mem_operands (List.mem_singleton_self operand))]
  | join mode op operands ih =>
    intro he
    have hclause : ∀ e ∈ operands, IsClause op e := by
      cases he with | join hes =>
      exact hes.spec.2.2
    have hoperands : ∀ e ∈ operands, (standard.flatten e).splice op = [e.cleared] := by
      intro e hmem
      rw [ih e hmem (he.of_mem_operands hmem), (hclause e hmem).splice_cleared]
    rw [flatten_join, cleared, clearedAll_eq_map, List.flatMap_congr hoperands,
      List.map_eq_flatMap]

theorem Settled.evaluated_of_mode (he : e.Settled) (hmode : e.mode = .evaluated) :
    e.Evaluated := by
  cases he with
  | evaluated he => exact he
  | not _ => cases hmode
  | join _ => cases hmode

/-- Built joins of three settled operands are evaluated to the same expression in either
grouping. -/
theorem eval_join_assoc (ha : a.Settled) (hb : b.Settled) (hc : c.Settled)
    (outer inner outer' inner' : Mode) :
    (standard.join outer op [standard.join inner op [a, b], c]).eval =
      (standard.join outer' op [a, standard.join inner' op [b, c]]).eval := by
  have hab : ∀ e ∈ [a, b], e.Settled := by simp [ha, hb]
  have hbc : ∀ e ∈ [b, c], e.Settled := by simp [hb, hc]
  have hleft : ∀ e ∈ [standard.join inner op [a, b], c], e.Settled := by
    simp [settled_join inner op hab, hc]
  have hright : ∀ e ∈ [a, standard.join inner' op [b, c]], e.Settled := by
    simp [settled_join inner' op hbc, ha]
  rw [eval_built_join outer op hleft, eval_built_join outer' op hright]
  simp only [List.map_cons, List.map_nil, eval_built_join inner op hab,
    eval_built_join inner' op hbc]
  exact combine_assoc ha.evaluated_eval hb.evaluated_eval hc.evaluated_eval

/-- An expression that is built by the standard policy and its flattened form are evaluated to the
same expression. An evaluated one is flattened by clearing its marks, and evaluating what comes of
that gives it back. Joins of three operands are evaluated to the same expression in either grouping,
in whichever modes they are built. -/
theorem evaluation_ignores_grouping (he : e.Built) (ha : a.Built) (hb : b.Built) (hc : c.Built)
    (op : Connective) (outer inner outer' inner' : Mode) :
    (standard.flatten e).eval = e.eval ∧
      (e.mode = .evaluated → standard.flatten e = e.cleared ∧ e.cleared.eval = e) ∧
        (standard.join outer op [standard.join inner op [a, b], c]).eval =
          (standard.join outer' op [a, standard.join inner' op [b, c]]).eval := by
  refine ⟨eval_flatten e he.settled, fun hmode ↦ ?_,
    eval_join_assoc ha.settled hb.settled hc.settled outer inner outer' inner'⟩
  have hevaluated := he.settled.evaluated_of_mode hmode
  have hflatten := flatten_eq_cleared e hevaluated
  refine ⟨hflatten, ?_⟩
  rw [← hflatten, eval_flatten e he.settled, hevaluated.eval_eq]

/-- A sum with a sum and a product below it, as written. -/
def nestedSum : Expr :=
  standard.join .raw .or [standard.join .raw .or [.symbol (.name "a"), .symbol (.name "b")],
    standard.join .raw .and [.symbol (.name "a"), .symbol (.name "c")]]

/-- The same sum as it is evaluated. -/
def absorbedSum : Expr :=
  standard.join .evaluated .or [.symbol (.name "a"), .symbol (.name "b")]

/-- Both sums are built. The nested one is evaluated to the absorbed one after it is flattened, and
the absorbed one is evaluated again after its marks are cleared. Its join with a third symbol is
evaluated to the same expression in either grouping. -/
theorem nestedSum_ignores_grouping : nestedSum.Built ∧ absorbedSum.Built ∧
    absorbedSum.mode = .evaluated ∧ (standard.flatten nestedSum).eval = absorbedSum ∧
      standard.flatten absorbedSum = absorbedSum.cleared ∧ absorbedSum.cleared.eval = absorbedSum ∧
        (standard.join .raw .or [absorbedSum, .symbol (.name "c")]).eval =
          (standard.join .evaluated .or [.symbol (.name "a"),
            standard.join .raw .or [.symbol (.name "b"), .symbol (.name "c")]]).eval := by
  have hsymbols : ∀ s t : Symbol, ∀ e ∈ [Expr.symbol s, Expr.symbol t], e.Built := by
    simp [Built.symbol]
  have hnested : nestedSum.Built := by
    have hsum : (standard.join .raw .or [.symbol (.name "a"), .symbol (.name "b")]).Built :=
      .join .raw .or (hsymbols _ _)
    have hproduct : (standard.join .raw .and [.symbol (.name "a"), .symbol (.name "c")]).Built :=
      .join .raw .and (hsymbols _ _)
    exact .join .raw .or (by simp [hsum, hproduct])
  have habsorbed : absorbedSum.Built := .join .evaluated .or (hsymbols _ _)
  have hmode : absorbedSum.mode = .evaluated := by cbv
  have heval : nestedSum.eval = absorbedSum := by cbv
  obtain ⟨hflatten, -, hgrouping⟩ := evaluation_ignores_grouping hnested
    (.symbol (.name "a")) (.symbol (.name "b")) (.symbol (.name "c")) .or .raw .evaluated
    .evaluated .raw
  obtain ⟨-, hcleared, -⟩ := evaluation_ignores_grouping habsorbed
    (.symbol (.name "a")) (.symbol (.name "b")) (.symbol (.name "c")) .or .raw .evaluated
    .evaluated .raw
  exact ⟨hnested, habsorbed, hmode, hflatten.trans heval, (hcleared hmode).1, (hcleared hmode).2,
    hgrouping⟩

end Expr

end SwitchingAlgebra
