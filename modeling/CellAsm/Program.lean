import CellAsm.Program.Listing

set_option autoImplicit false

/-! # Programs

A program is a sequence of words. One that was assembled also knows at which addresses its
instructions begin and which line each of them comes from; so an address belongs to the last
instruction that begins at it or before it.
-/

namespace CellAsm

/-- Words, with the beginnings of the instructions and their lines in ascending order. -/
structure Program where
  words : Array UInt64 := #[]
  origins : List (Nat × Line) := []
deriving DecidableEq

namespace Program

/-- The number of words. -/
def size (program : Program) : Nat := program.words.size

/-- The word at an address. -/
def word? (program : Program) (address : Nat) : Option UInt64 := program.words[address]?

/-- The line of the instruction that begins at the address or last before it. -/
def lineFor (program : Program) (address : Nat) : Option Line :=
  (program.origins.takeWhile fun origin => origin.1 ≤ address).getLast?.map Prod.snd

/-- The beginnings of the instructions of a listing that is placed at address `start`. -/
def layOut (start : Nat) : Listing → List (Nat × Line)
  | [] => []
  | (line, instruction) :: listing =>
    (start, line) :: layOut (start + instruction.size) listing

/-- The program of a listing. -/
def ofListing (listing : Listing) : Program :=
  ⟨(listing.flatMap fun entry => entry.2.words).toArray, layOut 0 listing⟩

/-- The program that lines of instructions assemble to. -/
def ofLines (lines : List Line) : Except Fault Program :=
  (Listing.ofLines lines).map ofListing

end Program

end CellAsm
