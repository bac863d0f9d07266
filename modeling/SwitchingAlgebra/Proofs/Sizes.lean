import Mathlib
import SwitchingAlgebra.Expr.Basic

/-!
# Sizes of parts

Every part of an expression has fewer nodes than the expression, so what is said of expressions can
be proved by induction on a bound of their sizes where the parts of two of them are compared with
one another.
-/

set_option autoImplicit false
set_option relaxedAutoImplicit false

namespace SwitchingAlgebra.Expr

variable {op : Connective} {d e : Expr} {es : List Expr}

theorem sizeAll_eq_sum (es : List Expr) : sizeAll es = (es.map size).sum := by
  induction es with
  | nil => rw [sizeAll, List.map_nil, List.sum_nil]
  | cons e rest ih => rw [sizeAll, ih, List.map_cons, List.sum_cons]

theorem size_join (mode : Mode) (op : Connective) (es : List Expr) :
    (join mode op es).size = (es.map size).sum + 1 := by
  rw [size, sizeAll_eq_sum]

theorem size_not (mode : Mode) (e : Expr) : (not mode e).size = e.size + 1 := by
  rw [size]

theorem size_pos (e : Expr) : 0 < e.size := by
  cases e <;> simp [size]

theorem size_lt_of_mem_operands (hd : d ∈ e.operands) : d.size < e.size := by
  match e with
  | .truth _ | .symbol _ => exact absurd hd List.not_mem_nil
  | .not mode operand =>
    rw [List.mem_singleton.mp hd, size_not]
    exact Nat.lt_succ_self _
  | .join mode op es =>
    rw [size_join]
    exact Nat.lt_succ_of_le (List.single_le_sum (fun _ _ ↦ Nat.zero_le _) _
      (List.mem_map_of_mem hd))

theorem size_core_le (e : Expr) : e.core.size ≤ e.size := by
  induction e using Expr.induct with
  | not mode operand ih =>
    rw [core, size_not]
    exact ih.trans (Nat.le_succ _)
  | _ => exact le_rfl

end SwitchingAlgebra.Expr
