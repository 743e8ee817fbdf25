import CellAsm.Report
import CellAsm.Source.Token

set_option autoImplicit false

/-! # Character literals

A character between apostrophes stands for its code. A backslash begins an escape for a
character that cannot be typed. The space literal is replaced first, wherever its three
characters stand, because nothing may split it at its blank; the other literals are tokens.
-/

namespace CellAsm

namespace Character

/-- The character that an escape stands for, by the character after the backslash. -/
def escape? : Char → Option Char
  | 'n' => some '\n'
  | 't' => some '\t'
  | 'r' => some '\r'
  | '0' => some '\x00'
  | 'a' => some '\x07'
  | 'b' => some '\x08'
  | 'f' => some '\x0c'
  | 'v' => some '\x0b'
  | '\\' => some '\\'
  | '\'' => some '\''
  | '"' => some '"'
  | _ => none

/-- The character that the text between two apostrophes stands for. -/
def value? : List Char → Option Char
  | [c] => some c
  | ['\\', e] => escape? e
  | _ => none

/-- The text between the apostrophes around a token, if there are two. -/
def inner? : Token → Option (List Char)
  | '\'' :: rest => if rest.getLast? = some '\'' then some rest.dropLast else none
  | _ => none

/-- A token with its literal replaced by the code, if it is one. -/
def replaceToken (token : Token) : Except Fault.Cause Token :=
  match inner? token with
  | none => .ok token
  | some inner =>
    match value? inner with
    | some c => .ok (Text.decimal c.toNat)
    | none => .error (.invalidCharacter token)

/-- A text with every space literal in it replaced by the code of the space. -/
def replaceSpaces : List Char → List Char
  | [] => []
  | '\'' :: ' ' :: '\'' :: s => Text.decimal ' '.toNat ++ replaceSpaces s
  | c :: s => c :: replaceSpaces s

/-- A line with its literals replaced. -/
def replaceLine (line : Line) : Except Fault Line := do
  let tokens ← line.check ((Token.scan (replaceSpaces line.contents.toList)).mapM replaceToken)
  return line.withContents (Token.join tokens)

/-- The lines with every character literal replaced by its code. -/
def replace (lines : List Line) : Except Fault (List Line) := lines.mapM replaceLine

end Character

end CellAsm
