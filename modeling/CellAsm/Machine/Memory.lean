import CellAsm.Config
import CellAsm.Fault

set_option autoImplicit false

/-! # Memory

A fixed number of cells, each of which holds a value of the word size of the machine: a value
that is stored loses the bits above. Addresses are 64-bit words, and one that is not below the
number of cells is a fault that changes nothing.
-/

namespace CellAsm

/-- The cells of a machine and the largest value that fits one of them. -/
structure Memory where
  cells : Array UInt64
  mask : UInt64
deriving DecidableEq

namespace Memory

/-- The memory of a machine before anything was stored: all cells hold 0. -/
def blank (config : Config) : Memory := ⟨Array.replicate config.memorySize 0, config.wordMask⟩

/-- The number of cells. -/
abbrev size (memory : Memory) : Nat := memory.cells.size

/-- The value of a cell. -/
def read (memory : Memory) (address : UInt64) : Except Fault.Cause UInt64 :=
  match memory.cells[address.toNat]? with
  | some value => .ok value
  | none => .error (.invalidAddress address)

/-- Stores a value into a cell that must exist. -/
def set (memory : Memory) (address value : UInt64) (h : address.toNat < memory.size) : Memory :=
  { memory with cells := memory.cells.set address.toNat (value &&& memory.mask) h }

/-- Stores a value into a cell. -/
def write (memory : Memory) (address value : UInt64) : Except Fault.Cause Memory :=
  if h : address.toNat < memory.size then .ok (memory.set address value h)
  else .error (.invalidAddress address)

/-- Sets all cells to 0. -/
def clear (memory : Memory) : Memory :=
  { memory with cells := Array.replicate memory.size 0 }

/-- The cells that do not hold 0, by address. -/
def nonzero (memory : Memory) : List (Nat × UInt64) :=
  (memory.cells.toList.zipIdx.filter fun cell => cell.1 ≠ 0).map fun cell => (cell.2, cell.1)

@[simp] theorem size_set (memory : Memory) (address value : UInt64)
    (h : address.toNat < memory.size) : (memory.set address value h).size = memory.size :=
  Array.size_set h

@[simp] theorem size_clear (memory : Memory) : memory.clear.size = memory.size := by
  simp [clear, size]

@[simp] theorem size_blank (config : Config) : (blank config).size = config.memorySize :=
  Array.size_replicate

/-- A cell that was just written holds the value without the bits above the word size. -/
theorem read_set_self (memory : Memory) (address value : UInt64)
    (h : address.toNat < memory.size) :
    (memory.set address value h).read address = .ok (value &&& memory.mask) := by
  simp [read, set, h]

/-- Writing a cell leaves the others as they were. -/
theorem read_set_of_ne (memory : Memory) {address other : UInt64} (value : UInt64)
    (h : address.toNat < memory.size) (hne : address ≠ other) :
    (memory.set address value h).read other = memory.read other := by
  have hne' : address.toNat ≠ other.toNat := fun he => hne (UInt64.toNat_inj.mp he)
  simp [read, set, hne']

end Memory

end CellAsm
