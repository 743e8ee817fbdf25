import CellAsm.Console.FileTree

set_option autoImplicit false

/-! # Commands in a working directory

A command line whose files are those of a file tree.
-/

namespace CellAsm

/-- A command line in a working directory. -/
structure Invocation where
  arguments : List String
  environment : Environment := .empty
  tree : FileTree := {}
  input : List UInt8 := []
  draws : Draws := .seeded 0

/-- The command line with the files of the tree. -/
def Invocation.commandLine (invocation : Invocation) : CommandLine where
  arguments := invocation.arguments
  environment := invocation.environment
  read := invocation.tree.read
  files := invocation.tree.importable
  input := invocation.input
  draws := invocation.draws

/-- The response to a command in a working directory; `none` if a program runs longer than `bound`
slices. -/
def Console.respond (bound : Nat) (invocation : Invocation) : Option Response :=
  invocation.commandLine.respond bound

end CellAsm
