import CellAsm.Pass.Import

set_option autoImplicit false

/-! # The subroutine library

Three files of subroutines that programs can import: division, multiplication and shifts by one
bit. The machine has none of these as instructions, so they count and subtract. Arguments and
results follow the calling convention of subroutines.
-/

namespace CellAsm.Library

/-- A text with the given lines. -/
def textOf (lines : List String) : String := String.join (lines.map (· ++ "\n"))

/-- Division, rounded down. -/
def divide : String := textOf
  ["; $return = $arg0 / $arg1, rounded down.",
    "; Dividing by zero returns 0.",
    "@start(math_divide, 2)",
    "    JZ :math_divide_done $arg1",
    "math_divide_loop:",
    "    JLS :math_divide_done $arg0 $arg1",
    "    ADD $return 1",
    "    SUB $arg0 $arg1",
    "    JMP :math_divide_loop",
    "math_divide_done:",
    "@end()"]

/-- Multiplication modulo the word size. -/
def multiply : String := textOf
  ["; $return = $arg0 * $arg1, wrapping like ADD.",
    "@start(math_multiply, 2)",
    "math_multiply_loop:",
    "    JZ :math_multiply_done $arg1",
    "    ADD $return $arg0",
    "    SUB $arg1 1",
    "    JMP :math_multiply_loop",
    "math_multiply_done:",
    "@end()"]

/-- Shifts by one bit in both directions. -/
def shift : String := textOf
  ["; One bit shifts of $arg0 into $return.",
    "",
    "@start(binary_shift_left, 1)",
    "    MOV $return $arg0",
    "    ADD $return $arg0",
    "@end()",
    "",
    "@start(binary_shift_right, 1)",
    "binary_shift_right_loop:",
    "    JLS :binary_shift_right_done $arg0 2",
    "    ADD $return 1",
    "    SUB $arg0 2",
    "    JMP :binary_shift_right_loop",
    "binary_shift_right_done:",
    "@end()"]

/-- The files of the library under the paths by which programs import them. -/
def files : Files where
  entries :=
    [("lib/math/divide.asm", .ok divide),
      ("lib/math/multiply.asm", .ok multiply),
      ("lib/binary/shift.asm", .ok shift)]

end CellAsm.Library
