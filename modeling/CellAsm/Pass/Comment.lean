import CellAsm.Source.Line

set_option autoImplicit false

/-! # Comments

A semicolon begins a comment, which goes on to the end of the line. Lines with nothing else on
them are dropped, and the blanks around what remains.
-/

namespace CellAsm

namespace Comment

/-- The code of a line: what stands before the first semicolon, without blanks around it. -/
def codeOf (contents : List Char) : List Char :=
  Text.trim ((Text.trim contents).takeWhile (· ≠ ';'))

/-- The line reduced to its code, unless it has none. -/
def remaining? (line : Line) : Option Line :=
  let code := codeOf line.contents.toList
  if code = [] then none else some (line.withContents code)

/-- The lines that have code, without comments. -/
def remove (lines : List Line) : List Line := lines.filterMap remaining?

end Comment

end CellAsm
