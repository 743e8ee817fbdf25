set_option autoImplicit false

/-! # Sets of code points

A property of characters is given by the closed ranges of its code points. The tables of this
library are those of version 17.0 of the Unicode standard; their ranges ascend and do not touch, so
that there is one table for each set.
-/

namespace CellAsm.Text

/-- Closed ranges of code points. -/
abbrev CodePoints := List (Nat × Nat)

namespace CodePoints

/-- Whether a character lies in one of the ranges. -/
def has (ranges : CodePoints) (c : Char) : Bool :=
  ranges.any fun range => range.1 ≤ c.toNat && c.toNat ≤ range.2

end CodePoints

end CellAsm.Text
