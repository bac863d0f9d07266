/-!
# Symbols

A symbol is a variable of an expression: an integer, a name, or an anonymous symbol told apart by
its serial number alone. Symbols are ordered integers first, then names, then anonymous symbols.

Main statements: the order is total and only identical symbols compare equal (the instances
`Std.TransOrd Symbol` and `Std.LawfulEqOrd Symbol`).
-/

set_option autoImplicit false
set_option relaxedAutoImplicit false

namespace SwitchingAlgebra

/-- A variable of an expression. -/
inductive Symbol where
  /-- A numbered variable. -/
  | int (value : Int64)
  /-- A named variable. -/
  | name (text : String)
  /-- A variable without a written form, equal only to one of the same serial number. -/
  | anonymous (serial : UInt64)
  deriving DecidableEq, Inhabited, Repr, Hashable

namespace Symbol

/-- The written form of a symbol. An anonymous symbol is written as its serial number after a number
sign, which no text can be read back as. -/
def text : Symbol → String
  | int value => toString value.toInt
  | name text => text
  | anonymous serial => "#" ++ toString serial.toNat

/-- Integers come before names and names before anonymous symbols. Integers compare by value, names
by their characters, anonymous symbols by age. -/
def order : Symbol → Symbol → Ordering
  | int x, int y => compare x y
  | int _, _ => .lt
  | _, int _ => .gt
  | name x, name y => compare x y
  | name _, _ => .lt
  | _, name _ => .gt
  | anonymous x, anonymous y => compare x y

instance : Ord Symbol := ⟨order⟩

/-- The first `count` anonymous symbols of a supply that has already given out `used` of them. -/
def fresh (used : UInt64) (count : Nat) : List Symbol :=
  (List.range count).map fun offset => anonymous (used + offset.toUInt64)

/-! ### The order is lawful -/

theorem compare_def (x y : Symbol) : compare x y = order x y := rfl

instance : Std.LawfulEqOrd Symbol where
  compare_self {x} := by cases x <;> simp [compare_def, order]
  eq_of_compare {x y} h := by
    cases x <;> cases y <;> simp_all [compare_def, order]

instance : Std.TransOrd Symbol where
  eq_swap {x y} := by
    cases x <;> cases y
    case int.int x y => exact @Std.OrientedCmp.eq_swap Int64 compare _ x y
    case name.name x y => exact @Std.OrientedCmp.eq_swap String compare _ x y
    case anonymous.anonymous x y => exact @Std.OrientedCmp.eq_swap UInt64 compare _ x y
    all_goals rfl
  isLE_trans {x y z} := by
    cases x <;> cases y <;> cases z <;> simp only [compare_def, order]
    case int.int.int => exact Std.TransCmp.isLE_trans
    case name.name.name => exact Std.TransCmp.isLE_trans
    case anonymous.anonymous.anonymous => exact Std.TransCmp.isLE_trans
    all_goals simp

end Symbol

end SwitchingAlgebra
