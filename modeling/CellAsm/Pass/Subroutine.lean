import CellAsm.Fault

set_option autoImplicit false

/-! # Subroutines

A subroutine is declared by a line `@start(name, arity)`, its body and a line `@end()`, and
called by a line `@call(name, arguments)` anywhere in the program. Arguments travel through the
shared cells `$arg0`, `$arg1` and so on, the return address through `$jump_back` and the result
through `$return`; a preamble allocates these cells in front of the program if it declares any
subroutine. The calls are numbered from 0, and each has a label of its own to return to.
-/

namespace CellAsm

namespace Subroutine

/-- A line that is not taken as it stands. -/
inductive Marker where
  /-- A call. -/
  | call
  /-- The declaration of a subroutine, whose body follows. -/
  | start
  /-- The end of a body. -/
  | finish
deriving DecidableEq

namespace Marker

/-- What a marker begins with. -/
def spelling : Marker → List Char
  | call => "@call".toList
  | start => "@start(".toList
  | finish => "@end()".toList

/-- The marker that a line begins with. -/
def of? (line : Line) : Option Marker :=
  [call, start, finish].find? fun marker => marker.spelling.isPrefixOf line.code

end Marker

/-! ## Argument lists -/

/-- The parts of a text between commas; a text without commas is one part. -/
def parts : List Char → List (List Char)
  | [] => [[]]
  | ',' :: s => [] :: parts s
  | c :: s =>
    match parts s with
    | [] => [[c]]
    | part :: rest => (c :: part) :: rest

/-- The list of arguments in parentheses, each without blanks around it. -/
def argumentList (s : List Char) : Except Fault.Cause (List Token) :=
  match Text.trim s with
  | '(' :: inner =>
    if inner.getLast? = some ')' then .ok ((parts inner.dropLast).map Text.trim)
    else .error .missingClosing
  | _ => .error .missingOpening

/-! ## Declarations -/

/-- The head of a subroutine. -/
structure Declaration where
  name : Token
  arity : Nat
deriving DecidableEq

/-- Whether a character may stand in the name of a subroutine. -/
def isNameChar (c : Char) : Bool := c.isAlphanum || c == '_'

/-- Whether a token can name a subroutine. -/
def isValidName (token : Token) : Bool := !token.isEmpty && token.all isNameChar

/-- The declaration that a marker line of the kind `start` makes. The list begins with the
parenthesis that ends the spelling of the marker. -/
def declarationIn (code : List Char) : Except Fault.Cause Declaration := do
  match ← argumentList (code.drop (Marker.start.spelling.length - 1)) with
  | [name, arity] =>
    if !isValidName name then .error (.subroutineName name)
    else
      match Text.decimal? arity with
      | some n => .ok ⟨name, n.toNat⟩
      | none => .error (.arityNumeral arity)
  | _ => .error .declarationShape

/-- The declarations of a program, the latest first. -/
abbrev Table := List Declaration

/-- The declaration of a name. -/
def Table.find? (table : Table) (name : Token) : Option Declaration :=
  List.find? (fun d => d.name = name) table

/-- The greatest arity that is declared. -/
def Table.maxArity (table : Table) : Nat := table.foldr (fun d n => max d.arity n) 0

/-- Adds the declarations in `lines` to a table. -/
def declare (table : Table) : List Line → Except Fault Table
  | [] => .ok table
  | line :: lines =>
    if Marker.of? line = some .start then do
      let d ← line.check (declarationIn line.code)
      if (table.find? d.name).isSome then .error (.inLine line (.subroutineRedefined d.name))
      else declare (d :: table) lines
    else declare table lines

/-! ## Expansion -/

/-- The name of the file that the lines of the preamble belong to. -/
def preambleFile : String := "<subroutine>"

/-- The lines that allocate the shared cells for up to `arity` arguments. -/
def preamble (arity : Nat) : List Line :=
  let cell (name : String) : List Char := (name ++ " = [_]").toList
  Line.numberedFrom 1 preambleFile
    ([cell "$return", cell "$jump_back"]
      ++ (List.range arity).map fun i => cell s!"$arg{i}")

/-- The lines that stand for the beginning of a subroutine. -/
def opening (line : Line) (name : Token) : List Line :=
  [line.withContents (name ++ [':']), line.withContents "MOV $return 0".toList]

/-- The line that stands for the end of a subroutine. -/
def closing (line : Line) : Line := line.withContents "JMP $jump_back".toList

/-- The lines that hand over the arguments, the first of which has the number `i`. -/
def handOver (line : Line) (i : Nat) : List Token → List Line
  | [] => []
  | argument :: rest =>
    line.withContents (s!"MOV $arg{i} ".toList ++ argument) :: handOver line (i + 1) rest

/-- The lines that stand for the `n`-th call of the program. -/
def call (line : Line) (n : Nat) (name : Token) (arguments : List Token) : List Line :=
  handOver line 0 arguments
    ++ [line.withContents s!"MOV $jump_back :ret{n}".toList,
        line.withContents ("JMP :".toList ++ name),
        line.withContents s!"ret{n}:".toList]

/-- Checks the call in a line and expands it. -/
def callLines (table : Table) (line : Line) (n : Nat) : Except Fault.Cause (List Line) := do
  let list ← argumentList (line.code.drop Marker.call.spelling.length)
  let name := list.headD []
  let arguments := list.tail
  match table.find? name with
  | none => .error (.unknownSubroutine name)
  | some d =>
    if arguments.length ≠ d.arity then .error (.arityMismatch d.arity arguments.length)
    else if [] ∈ arguments then .error .emptyArgument
    else .ok (call line n name arguments)

/-- Expands the markers in `lines`, where `calls` calls came before and `isOpen` is the line of
the declaration whose body the lines begin in, if they begin in one. -/
def expandMarkers (table : Table) (calls : Nat) (isOpen : Option Line) :
    List Line → Except Fault (List Line)
  | [] =>
    match isOpen with
    | some line => .error (.inLine line .startWithoutEnd)
    | none => .ok []
  | line :: lines =>
    match Marker.of? line with
    | none => do
      let rest ← expandMarkers table calls isOpen lines
      return line :: rest
    | some .call => do
      let expanded ← line.check (callLines table line calls)
      let rest ← expandMarkers table (calls + 1) isOpen lines
      return expanded ++ rest
    | some .start =>
      if isOpen.isSome then .error (.inLine line .nestedStart)
      else do
        let d ← line.check (declarationIn line.code)
        let rest ← expandMarkers table calls (some line) lines
        return opening line d.name ++ rest
    | some .finish =>
      if isOpen.isNone then .error (.inLine line .endWithoutStart)
      else do
        let rest ← expandMarkers table calls none lines
        return closing line :: rest

/-- Whether a text holds the spelling of a call anywhere. -/
def mentionsCall : List Char → Bool
  | [] => false
  | c :: s => Marker.call.spelling.isPrefixOf (c :: s) || mentionsCall s

/-- Checks that a program without declarations uses no subroutine. -/
def checkUnused (lines : List Line) : Except Fault (List Line) :=
  match lines.find? fun line => mentionsCall line.contents.toList with
  | some line => .error (.inLine line .callWithoutSubroutines)
  | none =>
    match lines.find? fun line => Marker.of? line = some .finish with
    | some line => .error (.inLine line .endWithoutStart)
    | none => .ok lines

/-- The lines with all subroutines and calls expanded. -/
def expand (lines : List Line) : Except Fault (List Line) := do
  let table ← declare [] lines
  if table.isEmpty then checkUnused lines
  else
    let expanded ← expandMarkers table 0 none lines
    return preamble table.maxArity ++ expanded

end Subroutine

end CellAsm
