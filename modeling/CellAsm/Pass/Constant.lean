import CellAsm.Report
import CellAsm.Source.Token

set_option autoImplicit false

/-! # Constants

A line `$name = value` defines a constant for the lines after it, and every token `$name` in
them stands for its value. The value `[_]` allocates the next unused cell. A later definition
of the same name replaces the earlier one, which is worth a warning.
-/

namespace CellAsm

namespace Constant

/-- The value that allocates a cell. -/
def allocation : Token := ['[', '_', ']']

/-- What the tokens of a line say. -/
inductive Statement where
  /-- A definition of the constant `name`. -/
  | definition (name value : Token)
  /-- A definition without a value. -/
  | unfinished
  /-- A definition that goes on after its value. -/
  | overlong (extra : Token)
  /-- Anything else. -/
  | code (tokens : List Token)

/-- Reads a line: a definition has a constant and an equals sign as its first two tokens. -/
def Statement.ofTokens : List Token → Statement
  | ('$' :: name) :: ['='] :: rest =>
    match rest with
    | [] => .unfinished
    | [value] => .definition name value
    | _ :: extra :: _ => .overlong extra
  | tokens => .code tokens

/-- The constants that are defined so far, the latest first, and the next unused cell. -/
structure Table where
  values : List (Token × Token) := []
  nextCell : Nat := 0

namespace Table

/-- The value of a constant, which must have been defined. -/
def valueOf (table : Table) (name : Token) : Except Fault.Cause Token :=
  match table.values.lookup name with
  | some value => .ok value
  | none => .error (.noSuchConstant ('$' :: name))

/-- What a token of a line stands for. -/
def resolve (table : Table) : Token → Except Fault.Cause Token
  | '$' :: name => table.valueOf name
  | token => .ok token

/-- Whether a constant has been defined. -/
def isDefined (table : Table) (name : Token) : Bool := (table.values.lookup name).isSome

/-- Gives a constant a value. -/
def insert (table : Table) (name value : Token) : Table :=
  { table with values := (name, value) :: table.values }

/-- Defines a constant by a value token, in a memory of `cells` cells. -/
def define (table : Table) (cells : Nat) (name value : Token) : Except Fault.Cause Table :=
  if value = allocation then
    if table.nextCell < cells then
      let cell := ['['] ++ Text.decimal table.nextCell ++ [']']
      .ok { table.insert name cell with nextCell := table.nextCell + 1 }
    else .error .outOfMemory
  else do
    let resolved ← table.resolve value
    return table.insert name resolved

end Table

/-- Processes the definition in a line: a name is required, then a redefinition is reported,
then the value is looked at. -/
def process (policy : Policy) (cells : Nat) (table : Table) (line : Line) (name value : Token) :
    Report Table :=
  if name = [] then .fail (.inLine line .missingConstantName)
  else if table.isDefined name then do
    Report.warn policy (.inLine line (.constantRedefined name))
    line.check (table.define cells name value)
  else .ofExcept (line.check (table.define cells name value))

/-- Replaces the constants in `lines`, where `table` holds those defined before. The policy goes on
with the warnings that it has noted. -/
def replaceFrom (policy : Policy) (cells : Nat) (table : Table) :
    List Line → Report (List Line)
  | [] => pure []
  | line :: lines =>
    match Statement.ofTokens line.tokens with
    | .unfinished => .fail (.inLine line .missingValue)
    | .overlong extra => .fail (.inLine line (.unexpected extra))
    | .definition name value =>
      let report := process policy cells table line name value
      report.andThen fun table => replaceFrom (policy.after report.warnings) cells table lines
    | .code tokens => do
      let resolved ← line.check (tokens.mapM table.resolve)
      let rest ← replaceFrom policy cells table lines
      return line.withContents (Token.join resolved) :: rest

/-- The lines without definitions, every constant replaced by its value, for a memory of
`cells` cells. -/
def replace (policy : Policy) (cells : Nat) (lines : List Line) :
    Report (List Line) :=
  replaceFrom policy cells {} lines

end Constant

end CellAsm
