import CellAsm.Program
import CellAsm.Text.Blank

set_option autoImplicit false

/-! # Programs as hexadecimal text

A program is written as its words in hexadecimal notation, each marked by `0x` and separated
by single spaces. Text that is read may use any blanks, either case and further zeros. The
text holds no line information.
-/

namespace CellAsm.Program

/-- The text form of one word. -/
def wordText (word : UInt64) : List Char := ['0', 'x'] ++ Text.hexadecimal word.toNat

/-- The text form of a program. -/
def text (program : Program) : String :=
  String.ofList ([' '].intercalate (program.words.toList.map wordText))

/-- Reads one word. -/
def readWord (token : Token) : Except Fault.Cause UInt64 :=
  match token with
  | '0' :: 'x' :: digits | '0' :: 'X' :: digits =>
    match Text.hexadecimal? digits with
    | some word => .ok word
    | none => .error (.hexDigits token)
  | _ => .error (.hexMark token)

/-- Reads a program from its text form. -/
def ofText (text : String) : Except Fault Program :=
  match (Text.words text.toList).mapM readWord with
  | .ok words => .ok { words := words.toArray }
  | .error cause => .error ⟨cause, none⟩

end CellAsm.Program
