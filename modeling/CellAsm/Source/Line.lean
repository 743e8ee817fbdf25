import CellAsm.Text.Blank

set_option autoImplicit false

/-! # Source lines

A text is cut into physical lines at line feeds; a carriage return directly before a line
feed belongs to the line end. A line knows its number, its file and the text that was typed,
and carries the contents that each pass of the assembler replaces. Only `contents` ever changes,
so a fault can always point at what the programmer wrote.
-/

namespace CellAsm

namespace Text

/-- The physical lines of `s`. A line feed ends a line and starts none. -/
def physicalLines : List Char → List (List Char)
  | [] => []
  | '\r' :: '\n' :: s => [] :: physicalLines s
  | '\n' :: s => [] :: physicalLines s
  | c :: s =>
    match physicalLines s with
    | [] => [[c]]
    | line :: lines => (c :: line) :: lines

end Text

/-- A line of source text with its provenance. -/
structure Line where
  /-- The position in the file, counted from 1. -/
  number : Nat
  /-- The name of the file. -/
  file : String
  /-- The line as it stands in the file. -/
  source : String
  /-- What the passes have made of the line so far. -/
  contents : String
deriving DecidableEq

namespace Line

/-- A line as it was typed. -/
def typed (number : Nat) (file : String) (text : List Char) : Line :=
  ⟨number, file, String.ofList text, String.ofList text⟩

/-- Lines of one file, numbered upwards from `first`. -/
def numberedFrom (first : Nat) (file : String) : List (List Char) → List Line
  | [] => []
  | text :: texts => typed first file text :: numberedFrom (first + 1) file texts

/-- The lines of a file with the given text, numbered from 1. -/
def ofText (file : String) (text : String) : List Line :=
  numberedFrom 1 file (Text.physicalLines text.toList)

/-- The contents without blanks at either end. -/
def code (line : Line) : List Char := Text.trim line.contents.toList

/-- Whether the contents are blank throughout. -/
def isEmpty (line : Line) : Bool := line.code.isEmpty

/-- The same line with other contents. -/
def withContents (line : Line) (contents : List Char) : Line :=
  { line with contents := String.ofList contents }

@[simp] theorem toList_contents_withContents (line : Line) (contents : List Char) :
    (line.withContents contents).contents.toList = contents := by
  simp [withContents]

end Line

end CellAsm
