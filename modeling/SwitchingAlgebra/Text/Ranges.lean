/-!
# Ranges of characters

A class of characters is given by ranges of code points, each by its first and last.
-/

set_option autoImplicit false
set_option relaxedAutoImplicit false

namespace SwitchingAlgebra.Text

/-- Ranges of code points, each with both ends in it. -/
abbrev Ranges := List (Nat × Nat)

/-- The code point of the character lies in one of the ranges. -/
def Ranges.contains (ranges : Ranges) (c : Char) : Bool :=
  ranges.any fun (first, last) => first ≤ c.toNat && c.toNat ≤ last

end SwitchingAlgebra.Text
