import CellAsm.Instruction.Operand

set_option autoImplicit false

/-! # Mnemonics

The seventeen operations of the machine with their names, the use they make of their operands
and the kind of effect they have. Names are recognised in either case of the ASCII letters.
-/

namespace CellAsm

/-- An operation of the machine. -/
inductive Mnemonic where
  | and | or | xor | not
  | mov | random
  | add | sub
  | jmp | jz | jeq | jls | jgt
  | halt | aprint | dprint | aread
deriving DecidableEq

/-- What an operation does to the machine. -/
inductive Effect where
  /-- It computes a value for a cell. -/
  | data
  /-- It may move the instruction pointer. -/
  | jump
  /-- It deals with the outside world or stops the machine. -/
  | outside
deriving DecidableEq

namespace Mnemonic

/-- All operations in the order of the instruction table. -/
def all : List Mnemonic :=
  [and, or, xor, not, mov, random, add, sub, jmp, jz, jeq, jls, jgt, halt, aprint, dprint, aread]

/-- The written name. -/
def name : Mnemonic → String
  | and => "AND"
  | or => "OR"
  | xor => "XOR"
  | not => "NOT"
  | mov => "MOV"
  | random => "RANDOM"
  | add => "ADD"
  | sub => "SUB"
  | jmp => "JMP"
  | jz => "JZ"
  | jeq => "JEQ"
  | jls => "JLS"
  | jgt => "JGT"
  | halt => "HALT"
  | aprint => "APRINT"
  | dprint => "DPRINT"
  | aread => "AREAD"

/-- The operation whose name is `token` up to the case of ASCII letters. -/
def ofToken? (token : Token) : Option Mnemonic :=
  all.find? fun m => m.name.toList = token.map Char.toUpper

/-- Every name is recognised as written. -/
theorem ofToken?_name (m : Mnemonic) : ofToken? m.name.toList = some m := by
  cases m <;> decide

/-- The use of each operand, in order. -/
def params : Mnemonic → List Param
  | and | or | xor | add | sub | mov => [.dest, .value]
  | not | random | aread => [.dest]
  | jmp | aprint | dprint => [.value]
  | jz => [.value, .value]
  | jeq | jls | jgt => [.value, .value, .value]
  | halt => []

/-- The number of operands. -/
def arity (m : Mnemonic) : Nat := m.params.length

/-- The kind of effect. -/
def effect : Mnemonic → Effect
  | and | or | xor | not | mov | add | sub => .data
  | jmp | jz | jeq | jls | jgt => .jump
  | random | halt | aprint | dprint | aread => .outside

end Mnemonic

end CellAsm
