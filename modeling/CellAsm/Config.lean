set_option autoImplicit false

/-! # Machine parameters

A configuration fixes the width of a cell in bits, the number of cells and the largest random
number. It is shared by the preprocessor, which allocates cells, and the machine. The width is
between 1 and 64 by construction: a width outside is moved to the nearer bound.
-/

namespace CellAsm

/-- The parameters of a machine. -/
structure Config where
  /-- The width of a cell in bits. -/
  wordSize : Nat := 8
  /-- The number of cells. -/
  memorySize : Nat := 256
  /-- The largest number that a draw can give. -/
  maxRandom : UInt64 := 25
  one_le_wordSize : 1 ≤ wordSize := by decide
  wordSize_le : wordSize ≤ 64 := by decide
deriving DecidableEq

namespace Config

/-- The parameters of a machine of which nothing else is said. -/
def default : Config := {}

/-- Sets the width of a cell. -/
def withWordSize (config : Config) (bits : Nat) : Config :=
  { config with
    wordSize := min (max bits 1) 64
    one_le_wordSize := by omega
    wordSize_le := by omega }

/-- Sets the number of cells. -/
def withMemorySize (config : Config) (cells : Nat) : Config :=
  { config with memorySize := cells }

/-- Sets the largest random number. -/
def withMaxRandom (config : Config) (bound : UInt64) : Config :=
  { config with maxRandom := bound }

/-- The largest value that fits a cell: all its bits are set. -/
def wordMask (config : Config) : UInt64 := UInt64.ofNat ((1 <<< config.wordSize) - 1)

end Config

end CellAsm
