import CellAsm.Source.Token

set_option autoImplicit false

/-! # Operands

An operand is written as an address or as a literal, and an instruction uses it as a
destination cell or as a value. The two together decide what the machine does with the word:
only an address in the place of a value is replaced by the contents of the cell.
-/

namespace CellAsm

/-- How an operand is written. -/
inductive Kind where
  /-- In brackets: the word is the address of a cell. -/
  | address
  /-- Without brackets: the word stands for itself. -/
  | literal
deriving DecidableEq

namespace Kind

/-- The kind is told by the first character. -/
def ofToken : Token → Kind
  | '[' :: _ => address
  | _ => literal

/-- The name used in messages. -/
def name : Kind → String
  | address => "ADDRESS"
  | literal => "LITERAL"

end Kind

/-- How an instruction uses an operand. -/
inductive Param where
  /-- The cell that the instruction writes. -/
  | dest
  /-- A plain value. -/
  | value
deriving DecidableEq

/-- Whether the machine reads a cell to obtain the operand. -/
def Kind.isRead : Kind → Param → Bool
  | address, .value => true
  | _, _ => false

end CellAsm
