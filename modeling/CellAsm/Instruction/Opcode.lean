import CellAsm.Instruction.Mnemonic

set_option autoImplicit false

/-! # Opcodes

An operation has one opcode for each admissible way to write its operands. The table lists
them all; a byte and a pair of an operation with operand kinds each occur in it at most once,
so `decode?` and `select?` undo each other on the table.
-/

namespace CellAsm

/-- An operation together with the kinds of its operands, and the byte that stands for both. -/
structure Opcode where
  byte : UInt8
  mnemonic : Mnemonic
  kinds : List Kind
deriving DecidableEq

namespace Opcode

open Kind in
/-- The instruction table. -/
def table : List Opcode :=
  [⟨0x00, .and, [address, address]⟩,
    ⟨0x01, .and, [address, literal]⟩,
    ⟨0x02, .or, [address, address]⟩,
    ⟨0x03, .or, [address, literal]⟩,
    ⟨0x04, .xor, [address, address]⟩,
    ⟨0x05, .xor, [address, literal]⟩,
    ⟨0x06, .not, [address]⟩,
    ⟨0x07, .mov, [address, address]⟩,
    ⟨0x08, .mov, [address, literal]⟩,
    ⟨0x09, .random, [address]⟩,
    ⟨0x0A, .add, [address, address]⟩,
    ⟨0x0B, .add, [address, literal]⟩,
    ⟨0x0C, .sub, [address, address]⟩,
    ⟨0x0D, .sub, [address, literal]⟩,
    ⟨0x0E, .jmp, [address]⟩,
    ⟨0x0F, .jmp, [literal]⟩,
    ⟨0x10, .jz, [address, address]⟩,
    ⟨0x11, .jz, [address, literal]⟩,
    ⟨0x12, .jz, [literal, address]⟩,
    ⟨0x13, .jz, [literal, literal]⟩,
    ⟨0x14, .jeq, [address, address, address]⟩,
    ⟨0x15, .jeq, [literal, address, address]⟩,
    ⟨0x16, .jeq, [address, address, literal]⟩,
    ⟨0x17, .jeq, [literal, address, literal]⟩,
    ⟨0x18, .jls, [address, address, address]⟩,
    ⟨0x19, .jls, [literal, address, address]⟩,
    ⟨0x1A, .jls, [address, address, literal]⟩,
    ⟨0x1B, .jls, [literal, address, literal]⟩,
    ⟨0x1C, .jgt, [address, address, address]⟩,
    ⟨0x1D, .jgt, [literal, address, address]⟩,
    ⟨0x1E, .jgt, [address, address, literal]⟩,
    ⟨0x1F, .jgt, [literal, address, literal]⟩,
    ⟨0x20, .aprint, [address]⟩,
    ⟨0x21, .aprint, [literal]⟩,
    ⟨0x22, .dprint, [address]⟩,
    ⟨0x23, .dprint, [literal]⟩,
    ⟨0x24, .aread, [address]⟩,
    ⟨0xFF, .halt, []⟩]

/-- The opcode that `byte` stands for. -/
def decode? (byte : UInt8) : Option Opcode := table.find? fun op => op.byte = byte

/-- The opcode that the word stands for; a word above 255 is no byte. -/
def ofWord? (word : UInt64) : Option Opcode :=
  if word < 256 then decode? word.toUInt8 else none

/-- The opcode of an operation whose operands are written as `kinds`. -/
def select? (mnemonic : Mnemonic) (kinds : List Kind) : Option Opcode :=
  table.find? fun op => op.mnemonic = mnemonic ∧ op.kinds = kinds

/-- Each opcode of the table gives one kind for each operand. -/
theorem length_kinds {op : Opcode} (h : op ∈ table) : op.kinds.length = op.mnemonic.arity := by
  revert op
  decide

/-- Selecting by the operation and the kinds of an opcode gives the opcode back. -/
theorem select?_kinds {op : Opcode} (h : op ∈ table) :
    select? op.mnemonic op.kinds = some op := by
  revert op
  decide

theorem mem_table_of_decode? {byte : UInt8} {op : Opcode} (h : decode? byte = some op) :
    op ∈ table ∧ op.byte = byte :=
  ⟨List.mem_of_find?_eq_some h, by simpa using List.find?_some h⟩

theorem mem_table_of_select? {mnemonic : Mnemonic} {kinds : List Kind} {op : Opcode}
    (h : select? mnemonic kinds = some op) :
    op ∈ table ∧ op.mnemonic = mnemonic ∧ op.kinds = kinds :=
  ⟨List.mem_of_find?_eq_some h, by simpa using List.find?_some h⟩

end Opcode

/-- The opcodes of an operation, in the order of the table. -/
def Mnemonic.opcodes (m : Mnemonic) : List Opcode :=
  Opcode.table.filter fun op => op.mnemonic = m

end CellAsm
