import CellAsm.Instruction.Opcode
import CellAsm.Text.Numeral

set_option autoImplicit false

/-! # Faults

Everything that can go wrong is a `Cause`. A cause has a code, which fixes its number, title,
category and severity, and a text that names the offending piece. A `Fault` is a cause with
the source line it belongs to, if one is known. The wording of all messages is in this module.
-/

namespace CellAsm

namespace Fault

/-- The kinds of fault that a reader of a message can tell apart. -/
inductive Code where
  | syntaxError
  | invalidArgument
  | unknownMnemonic
  | noSuchConstant
  | noSuchLabel
  | unknownSubroutine
  | redefinition
  | constantRedefined
  | outOfMemory
  | missingHalt
  | infiniteLoop
  | arityMismatch
  | invalidAddress
  | unknownOpcode
  | fileNotFound
  | ioError
deriving DecidableEq

/-- The area that a code belongs to. -/
inductive Category where
  | grammar
  | naming
  | resource
  | runtime
  | files
deriving DecidableEq

/-- How bad a fault is. -/
inductive Severity where
  /-- Work can go on. -/
  | warning
  /-- The text breaks the rules of notation. -/
  | syntaxError
  /-- Work cannot go on for any other reason. -/
  | fatal
deriving DecidableEq

namespace Code

/-- All codes in ascending order of their numbers. -/
def all : List Code :=
  [syntaxError, invalidArgument, unknownMnemonic, noSuchConstant, noSuchLabel, unknownSubroutine,
    redefinition, constantRedefined, outOfMemory, missingHalt, infiniteLoop, arityMismatch,
    invalidAddress, unknownOpcode, fileNotFound, ioError]

/-- The number of a code. -/
def number : Code → Nat
  | syntaxError => 2
  | invalidArgument => 3
  | unknownMnemonic => 10
  | noSuchConstant => 11
  | noSuchLabel => 12
  | unknownSubroutine => 13
  | redefinition => 14
  | constantRedefined => 15
  | outOfMemory => 20
  | missingHalt => 30
  | infiniteLoop => 31
  | arityMismatch => 32
  | invalidAddress => 33
  | unknownOpcode => 34
  | fileNotFound => 40
  | ioError => 41

/-- The words that a message begins with. -/
def title : Code → String
  | syntaxError => "SYNTAX ERROR"
  | invalidArgument => "INVALID ARGUMENT"
  | unknownMnemonic => "UNKNOWN MNEMONIC"
  | noSuchConstant => "NO SUCH CONSTANT"
  | noSuchLabel => "NO SUCH LABEL"
  | unknownSubroutine => "UNKNOWN SUBROUTINE"
  | redefinition => "REDEFINITION"
  | constantRedefined => "CONSTANT REDEFINED"
  | outOfMemory => "OUT OF MEMORY"
  | missingHalt => "MISSING HALT"
  | infiniteLoop => "INFINITE LOOP"
  | arityMismatch => "WRONG NUMBER OF ARGUMENTS"
  | invalidAddress => "INVALID ADDRESS"
  | unknownOpcode => "UNKNOWN OPCODE"
  | fileNotFound => "FILE NOT FOUND"
  | ioError => "I/O ERROR"

/-- The area of a code. -/
def category : Code → Category
  | syntaxError | invalidArgument => .grammar
  | unknownMnemonic | noSuchConstant | noSuchLabel | unknownSubroutine | redefinition
  | constantRedefined => .naming
  | outOfMemory => .resource
  | missingHalt | infiniteLoop | arityMismatch | invalidAddress | unknownOpcode => .runtime
  | fileNotFound | ioError => .files

/-- The severity of a code. -/
def severity : Code → Severity
  | constantRedefined => .warning
  | syntaxError | invalidArgument => .syntaxError
  | _ => .fatal

end Code

/-- The words for a severity. -/
def Severity.name : Severity → String
  | warning => "WARNING"
  | syntaxError => "SYNTAX ERROR"
  | fatal => "FATAL ERROR"

/-- What went wrong. Names are without their sigils, tokens as they were written. -/
inductive Cause where
  /-- An import directive without a path. -/
  | missingPath
  /-- The file does not exist. -/
  | fileNotFound (path : String)
  /-- The file exists but cannot be read. -/
  | unreadable (path message : String)
  /-- A directive without the list of its arguments. -/
  | missingOpening
  /-- An argument list that is not closed. -/
  | missingClosing
  /-- A subroutine declaration with too few or too many parts. -/
  | declarationShape
  /-- A subroutine name with other characters than ASCII letters, digits and underscores. -/
  | subroutineName (name : Token)
  /-- An arity that is no number. -/
  | arityNumeral (token : Token)
  /-- A subroutine that is declared twice. -/
  | subroutineRedefined (name : Token)
  /-- A call in a program that declares no subroutine. -/
  | callWithoutSubroutines
  /-- A call of a subroutine that is not declared. -/
  | unknownSubroutine (name : Token)
  /-- A call with the wrong number of arguments. -/
  | arityMismatch (expected got : Nat)
  /-- A call with an empty argument. -/
  | emptyArgument
  /-- A subroutine that begins inside another one. -/
  | nestedStart
  /-- The end of a subroutine where none is open. -/
  | endWithoutStart
  /-- A subroutine that is never closed. -/
  | startWithoutEnd
  /-- A definition that ends after the equals sign. -/
  | missingValue
  /-- A definition that goes on after its value. -/
  | unexpected (token : Token)
  /-- A definition of a constant without a name. -/
  | missingConstantName
  /-- A constant that is defined again. -/
  | constantRedefined (name : Token)
  /-- A constant that has no value yet; the token begins with the sigil. -/
  | noSuchConstant (token : Token)
  /-- All cells have been allocated. -/
  | outOfMemory
  /-- A label that is defined twice. -/
  | labelRedefined (name : Token)
  /-- A reference to a label that is defined nowhere. -/
  | noSuchLabel (name : Token)
  /-- A token between apostrophes that is no character. -/
  | invalidCharacter (token : Token)
  /-- A token in the place of an operation that is no name of one. -/
  | unknownMnemonic (token : Token)
  /-- An operation with fewer operands on its line than it needs. -/
  | missingOperands (mnemonic : Mnemonic)
  /-- An operation whose operands are written in a way that it does not have. -/
  | operandKinds (mnemonic : Mnemonic) (kinds : List Kind)
  /-- An operand that is no number. -/
  | operandNumeral (token : Token)
  /-- A word of a program text without the mark of hexadecimal notation. -/
  | hexMark (token : Token)
  /-- A word of a program text with digits that are no number. -/
  | hexDigits (token : Token)
  /-- A fetch at an address that the program does not reach. -/
  | missingHalt (address : Nat)
  /-- A word in the place of an instruction that is no opcode. -/
  | unknownOpcode (word : UInt64) (address : Nat)
  /-- An access to a cell that does not exist. -/
  | invalidAddress (address : UInt64)
  /-- A jump that leads to itself. -/
  | infiniteLoop (mnemonic : Mnemonic) (target : Nat)
  /-- The input failed while a character was read. -/
  | inputFailed (message : String)
  /-- A setting that is no number. -/
  | settingNumeral (name value : String)
  /-- A setting that is not text; the value is shown in quotes. -/
  | settingEncoding (name quoted : String)
  /-- Command line arguments that make no command. -/
  | usage
  /-- A fault known by its code and text only, for hosts that report faults of their own. -/
  | stated (code : Code) (text : String)
deriving DecidableEq

namespace Cause

/-- The code of a cause. -/
def code : Cause → Code
  | missingPath | missingOpening | missingClosing | declarationShape | subroutineName _
  | emptyArgument | nestedStart | endWithoutStart | startWithoutEnd | missingValue | unexpected _
  | missingConstantName | invalidCharacter _ | missingOperands _ | operandKinds _ _
  | hexMark _ => .syntaxError
  | arityNumeral _ | operandNumeral _ | hexDigits _ | settingNumeral _ _ | settingEncoding _ _
  | usage => .invalidArgument
  | unknownMnemonic _ => .unknownMnemonic
  | noSuchConstant _ => .noSuchConstant
  | noSuchLabel _ => .noSuchLabel
  | callWithoutSubroutines | unknownSubroutine _ => .unknownSubroutine
  | subroutineRedefined _ | labelRedefined _ => .redefinition
  | constantRedefined _ => .constantRedefined
  | outOfMemory => .outOfMemory
  | missingHalt _ => .missingHalt
  | infiniteLoop _ _ => .infiniteLoop
  | arityMismatch _ _ => .arityMismatch
  | invalidAddress _ => .invalidAddress
  | unknownOpcode _ _ => .unknownOpcode
  | fileNotFound _ => .fileNotFound
  | unreadable _ _ | inputFailed _ => .ioError
  | stated code _ => code

/-- The text of a cause, which says what the code leaves open. -/
def text : Cause → String
  | missingPath => "MISSING PATH"
  | fileNotFound path => path
  | unreadable path message => path ++ ": " ++ message
  | missingOpening => "MISSING OPENING PARENTHESIS"
  | missingClosing => "MISSING CLOSING PARENTHESIS"
  | declarationShape => "@start TAKES A NAME AND AN ARITY"
  | subroutineName name => "INVALID SUBROUTINE NAME: " ++ String.ofList name
  | arityNumeral token => "INVALID ARITY: " ++ String.ofList token
  | subroutineRedefined name => "SUBROUTINE " ++ String.ofList name
  | callWithoutSubroutines => "@call WITHOUT SUBROUTINE DEFINITION"
  | unknownSubroutine name => String.ofList name
  | arityMismatch expected got =>
    "EXPECTED " ++ String.ofList (Text.decimal expected) ++ ", GOT "
      ++ String.ofList (Text.decimal got)
  | emptyArgument => "EMPTY ARGUMENT"
  | nestedStart => "NESTED @start"
  | endWithoutStart => "@end() WITHOUT @start"
  | startWithoutEnd => "@start WITHOUT @end()"
  | missingValue => "MISSING VALUE"
  | unexpected token => "UNEXPECTED " ++ String.ofList token
  | missingConstantName => "MISSING CONSTANT NAME"
  | constantRedefined name => "$" ++ String.ofList name
  | noSuchConstant token => String.ofList token
  | outOfMemory => "[_]: NO MEMORY LEFT"
  | labelRedefined name => "LABEL " ++ String.ofList name ++ ":"
  | noSuchLabel name => String.ofList name
  | invalidCharacter token => "INVALID CHARACTER " ++ String.ofList token
  | unknownMnemonic token => String.ofList token
  | missingOperands mnemonic =>
    mnemonic.name ++ " EXPECTS " ++ String.ofList (Text.decimal mnemonic.arity) ++ " OPERANDS"
  | operandKinds mnemonic kinds =>
    mnemonic.name ++ " DOES NOT TAKE (" ++ ", ".intercalate (kinds.map Kind.name) ++ ")"
  | operandNumeral token => String.ofList token
  | hexMark token | hexDigits token => "NOT A HEX WORD: " ++ String.ofList token
  | missingHalt address => "RAN PAST END OF PROGRAM AT " ++ String.ofList (Text.decimal address)
  | unknownOpcode word address =>
    "0x" ++ String.ofList (Text.hexadecimal word.toNat) ++ " AT "
      ++ String.ofList (Text.decimal address)
  | invalidAddress address => "[" ++ String.ofList (Text.decimal address.toNat) ++ "]"
  | infiniteLoop mnemonic target =>
    mnemonic.name ++ " JUMPS TO ITSELF AT " ++ String.ofList (Text.decimal target)
  | inputFailed message => "AREAD: " ++ message
  | settingNumeral name value => name ++ "=" ++ value
  | settingEncoding name quoted =>
    name ++ ": environment variable was not valid unicode: " ++ quoted
  | usage => "USAGE: tiny [run|asm|pp] FILE"
  | stated _ text => text

end Cause

end Fault

open Fault in
/-- Something that went wrong, with the source line it belongs to if one is known. -/
structure Fault where
  cause : Cause
  line : Option Line := none
deriving DecidableEq

namespace Fault

/-- The fault of a cause in a known line. -/
def inLine (line : Line) (cause : Cause) : Fault := ⟨cause, some line⟩

/-- Attaches a line. A line that is already there is closer to the cause and stays. -/
def attach (line : Line) (fault : Fault) : Fault :=
  { fault with line := fault.line.or (some line) }

/-- The code of the cause. -/
def code (fault : Fault) : Code := fault.cause.code

/-- The text of the cause. -/
def text (fault : Fault) : String := fault.cause.text

/-- The full message: title, place and text. -/
def message (fault : Fault) : String :=
  let place :=
    match fault.line with
    | some line => " IN " ++ line.file ++ " LINE " ++ String.ofList (Text.decimal line.number)
    | none => ""
  let detail := if fault.text = "" then "" else "; " ++ fault.text
  fault.code.title ++ place ++ detail

/-- The message as it is shown when faults are inspected. -/
def inspect (fault : Fault) : String := "Error \x7b " ++ fault.message ++ " \x7d"

end Fault

/-- Places a cause in a line. -/
def Line.check {α : Type} (line : Line) (result : Except Fault.Cause α) : Except Fault α :=
  result.mapError (Fault.inLine line)

end CellAsm
