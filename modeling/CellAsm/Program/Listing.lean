import CellAsm.Fault
import CellAsm.Source.Token

set_option autoImplicit false

/-! # Listings

A line without directives, symbols and literals is a sequence of instructions: the name of an
operation followed by its operands, which have to stand on the same line. A listing is the
sequence of the instructions of all lines, each with its line.
-/

namespace CellAsm

/-- An opcode with its operand words. -/
structure Instruction where
  opcode : Opcode
  operands : List UInt64
deriving DecidableEq

namespace Instruction

/-- The words of an instruction: the opcode, then the operands. -/
def words (instruction : Instruction) : List UInt64 :=
  instruction.opcode.byte.toUInt64 :: instruction.operands

/-- The number of words. -/
def size (instruction : Instruction) : Nat := instruction.words.length

/-- An operand without the opening brackets it begins with and the closing brackets it ends
with. -/
def bareOperand (token : Token) : List Char :=
  ((token.dropWhile (· = '[')).reverse.dropWhile (· = ']')).reverse

/-- The word that an operand gives. -/
def operandWord (token : Token) : Except Fault.Cause UInt64 :=
  match Text.decimal? (bareOperand token) with
  | some word => .ok word
  | none => .error (.operandNumeral token)

/-- An operation with its operands as written. The way they are written is looked at before
their numerals. -/
def ofTokens (mnemonic : Mnemonic) (operands : List Token) : Except Fault.Cause Instruction :=
  let kinds := operands.map Kind.ofToken
  match Opcode.select? mnemonic kinds with
  | none => .error (.operandKinds mnemonic kinds)
  | some opcode => do
    let words ← operands.mapM operandWord
    return ⟨opcode, words⟩

/-- The instructions that a sequence of tokens writes. -/
def parse : List Token → Except Fault.Cause (List Instruction)
  | [] => .ok []
  | token :: tokens =>
    match Mnemonic.ofToken? token with
    | none => .error (.unknownMnemonic token)
    | some mnemonic =>
      if tokens.length < mnemonic.arity then .error (.missingOperands mnemonic)
      else do
        let first ← ofTokens mnemonic (tokens.take mnemonic.arity)
        let rest ← parse (tokens.drop mnemonic.arity)
        return first :: rest
termination_by tokens => tokens.length
decreasing_by
  simp only [List.length_drop, List.length_cons]
  omega

end Instruction

/-- The instructions of a program in order, each with the line that holds it. -/
abbrev Listing := List (Line × Instruction)

namespace Listing

/-- The instructions of a line. -/
def ofLine (line : Line) : Except Fault Listing := do
  let instructions ← line.check (Instruction.parse line.tokens)
  return instructions.map fun instruction => (line, instruction)

/-- The instructions of all lines. -/
def ofLines : List Line → Except Fault Listing
  | [] => .ok []
  | line :: lines => do
    let first ← ofLine line
    let rest ← ofLines lines
    return first ++ rest

end Listing

end CellAsm
