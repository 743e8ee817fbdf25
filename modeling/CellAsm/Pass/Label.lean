import CellAsm.Fault
import CellAsm.Source.Token

set_option autoImplicit false

/-! # Labels

A token `name:` defines a label and a token `:name` refers to one, before or after it. In the
assembled program every token that defines no label takes one word, so a label stands for the
number of such tokens before it. Definitions are removed, and lines with nothing else on them.
-/

namespace CellAsm

/-- A token that defines or uses a label. -/
inductive Label where
  | definition (name : Token)
  | reference (name : Token)
deriving DecidableEq

namespace Label

/-- The label that a token writes; a colon in front makes it a reference. -/
def ofToken? : Token → Option Label
  | ':' :: name => some (.reference name)
  | token => if token.getLast? = some ':' then some (.definition token.dropLast) else none

/-- The labels defined so far with their addresses, the latest first, and the number of tokens so
far. -/
structure Table where
  addresses : List (Token × Nat) := []
  position : Nat := 0
deriving DecidableEq

namespace Table

/-- The address of a label. -/
def address? (table : Table) (name : Token) : Option Nat := table.addresses.lookup name

/-- Takes a token into account. Every label so far has a token that will be gone, so the address of
a new one is the number of the other tokens. -/
def enter (table : Table) (token : Token) : Except Fault.Cause Table :=
  match ofToken? token with
  | some (.definition name) =>
    if (table.address? name).isSome then .error (.labelRedefined name)
    else
      let address := table.position - table.addresses.length
      .ok ⟨(name, address) :: table.addresses, table.position + 1⟩
  | _ => .ok { table with position := table.position + 1 }

/-- Takes the tokens of the lines into account. -/
def enterLines (table : Table) : List Line → Except Fault Table
  | [] => .ok table
  | line :: lines => do
    let table ← line.check (line.tokens.foldlM enter table)
    table.enterLines lines

/-- What remains of the tokens of a line: definitions vanish, references become addresses. -/
def replaceTokens (table : Table) : List Token → Except Fault.Cause (List Token)
  | [] => .ok []
  | token :: tokens =>
    match ofToken? token with
    | some (.definition _) => table.replaceTokens tokens
    | some (.reference name) =>
      match table.address? name with
      | none => .error (.noSuchLabel name)
      | some address => do
        let rest ← table.replaceTokens tokens
        return Text.decimal address :: rest
    | none => do
      let rest ← table.replaceTokens tokens
      return token :: rest

/-- What remains of the lines. -/
def replaceLines (table : Table) : List Line → Except Fault (List Line)
  | [] => .ok []
  | line :: lines => do
    let tokens ← line.check (table.replaceTokens line.tokens)
    let rest ← table.replaceLines lines
    return if tokens = [] then rest else line.withContents (Token.join tokens) :: rest

end Table

/-- The lines without label definitions, every reference replaced by the address of its
label. A label defined twice is found before any reference is looked at. -/
def replace (lines : List Line) : Except Fault (List Line) := do
  let table ← ({} : Table).enterLines lines
  table.replaceLines lines

end Label

end CellAsm
