import CellAsm.Proofs.Machine.Steps

set_option autoImplicit false

/-! # Cells in a run

The memory of a machine keeps the shape that its parameters give it (`Machine.fits_step`), so a
stored number is the number modulo a power of two (`Memory.Fits.holds_set`), and it stays in its
cell as long as no instruction stores to that cell (`Machine.Steps.read_eq`). What a step that
stores does to the rest of the machine is said once (`Machine.exists_step_store`).
-/

namespace CellAsm

theorem Config.toNat_wordMask (config : Config) :
    config.wordMask.toNat = 2 ^ config.wordSize - 1 := by
  have h : 2 ^ config.wordSize ≤ 2 ^ 64 := Nat.pow_le_pow_right (by decide) config.wordSize_le
  have hpos : 0 < 2 ^ config.wordSize := Nat.two_pow_pos _
  rw [wordMask, Nat.one_shiftLeft, UInt64.toNat_ofNat', Nat.mod_eq_of_lt]
  omega

namespace Memory

/-- The memory has the number of cells and the word size of the parameters. -/
structure Fits (config : Config) (memory : Memory) : Prop where
  size : memory.size = config.memorySize
  mask : memory.mask = config.wordMask

/-- A cell exists and holds a number. -/
def Holds (memory : Memory) (cell : UInt64) (n : Nat) : Prop :=
  ∃ word, memory.read cell = .ok word ∧ word.toNat = n

variable {config : Config} {memory : Memory}

theorem exists_read {cell : UInt64} (h : cell.toNat < memory.size) :
    ∃ word, memory.read cell = .ok word := by
  refine ⟨memory.cells[cell.toNat], ?_⟩
  rw [read, Array.getElem?_eq_getElem h]

theorem fits_blank (config : Config) : (blank config).Fits config := ⟨size_blank config, rfl⟩

namespace Fits

theorem clear (h : memory.Fits config) : memory.clear.Fits config :=
  ⟨(size_clear memory).trans h.size, h.mask⟩

/-- A cleared memory of this shape is a new one. -/
theorem clear_eq_blank (h : memory.Fits config) : memory.clear = blank config := by
  rw [Memory.clear, h.size, h.mask]
  rfl

theorem set (h : memory.Fits config) (cell value : UInt64) (hcell : cell.toNat < memory.size) :
    (memory.set cell value hcell).Fits config :=
  ⟨(size_set memory cell value hcell).trans h.size, h.mask⟩

/-- **What is stored is what remains of a number in the word size.** -/
theorem holds_set (h : memory.Fits config) (cell value : UInt64)
    (hcell : cell.toNat < memory.size) :
    (memory.set cell value hcell).Holds cell (value.toNat % 2 ^ config.wordSize) := by
  refine ⟨value &&& memory.mask, read_set_self memory cell value hcell, ?_⟩
  rw [h.mask, UInt64.toNat_and, Config.toNat_wordMask, Nat.and_two_pow_sub_one_eq_mod]

end Fits

end Memory

namespace Machine

variable {config : Config} {machine last : Machine} {n : Nat} {cell : UInt64}

/-! ## The shape of the memory -/

theorem fits_create (config : Config) (input : List InputItem) (draws : Draws) :
    (create config input draws).memory.Fits config := Memory.fits_blank config

theorem fits_load (h : machine.memory.Fits config) (program : Program) :
    (machine.load program).memory.Fits config := h.clear

/-- A step keeps the shape of the memory. -/
theorem fits_step (h : machine.memory.Fits config) : machine.step.2.memory.Fits config := by
  rcases machine.step_changes.memory with hsame | ⟨cell, value, hcell, -, hset⟩
  · rwa [hsame]
  · rw [hset]
    exact h.set cell value hcell

theorem Steps.fits {allowed : Machine → Prop} (h : Steps allowed n machine last)
    (hfits : machine.memory.Fits config) : last.memory.Fits config :=
  h.preserves (P := fun reached => reached.memory.Fits config) (fun _ _ hreached => fits_step hreached)
    hfits

/-! ## Cells that are not stored to -/

/-- The next instruction does not store to a cell. -/
def Spares (cell : UInt64) (machine : Machine) : Prop := machine.destination? ≠ some cell

theorem read_step (h : machine.Spares cell) :
    machine.step.2.memory.read cell = machine.memory.read cell := by
  rcases machine.step_changes.memory with hsame | ⟨other, value, hother, hdestination, hset⟩
  · rw [hsame]
  · rw [hset]
    -- the step stores to its destination, which is another cell
    refine Memory.read_set_of_ne _ _ hother ?_
    rintro rfl
    exact h hdestination

/-- **A cell keeps its value over a run that does not store to it.** -/
theorem Steps.read_eq (h : Steps (Spares cell) n machine last) :
    last.memory.read cell = machine.memory.read cell :=
  h.preserves (P := fun reached => reached.memory.read cell = machine.memory.read cell)
    (fun _ hspares hreached => (read_step hspares).trans hreached) rfl

/-! ## What a part of a run keeps -/

/-- A part of a run leaves the program, the input and the output as they were, and all cells
except the changed ones. -/
structure Keeps (machine last : Machine) (changed : UInt64 → Prop) : Prop where
  program : last.program = machine.program
  input : last.input = machine.input
  output : last.output = machine.output
  read : ∀ cell, ¬ changed cell → last.memory.read cell = machine.memory.read cell

namespace Keeps

variable {next : Machine} {changed changed' : UInt64 → Prop}

theorem refl (machine : Machine) (changed : UInt64 → Prop) : machine.Keeps machine changed :=
  ⟨rfl, rfl, rfl, fun _ _ => rfl⟩

theorem trans (h : machine.Keeps next changed) (h' : next.Keeps last changed') :
    machine.Keeps last fun cell => changed cell ∨ changed' cell := by
  refine ⟨h'.program.trans h.program, h'.input.trans h.input, h'.output.trans h.output, ?_⟩
  intro cell hcell
  rw [not_or] at hcell
  exact (h'.read cell hcell.2).trans (h.read cell hcell.1)

theorem mono (h : machine.Keeps last changed) (hle : ∀ cell, changed cell → changed' cell) :
    machine.Keeps last changed' :=
  ⟨h.program, h.input, h.output, fun cell hcell => h.read cell fun hc => hcell (hle cell hc)⟩

theorem holds (h : machine.Keeps last changed) {m : Nat} (hcell : ¬ changed cell)
    (hholds : machine.memory.Holds cell m) : last.memory.Holds cell m := by
  obtain ⟨word, hread, hword⟩ := hholds
  exact ⟨word, (h.read cell hcell).trans hread, hword⟩

end Keeps

/-! ## Storing -/

/-- What a step that stores does to the machine. -/
theorem exists_step_store {mnemonic : Mnemonic} {address word : UInt64}
    (hfits : machine.memory.Fits config)
    (hinstruction : machine.instruction = .ok (mnemonic, .store address word))
    (haddress : address.toNat < machine.memory.size) :
    ∃ next, machine.step = (.ok (), next) ∧ next.ip = machine.ip + 1 + mnemonic.arity ∧
      machine.Keeps next (· = address) ∧ next.memory.Fits config ∧
      next.memory.Holds address (word.toNat % 2 ^ config.wordSize) := by
  have hstep := (Ends.performed hinstruction (.store haddress)).step_eq
  refine ⟨_, hstep, rfl, ⟨rfl, rfl, rfl, fun cell hne => ?_⟩, hfits.set address word haddress,
    hfits.holds_set address word haddress⟩
  exact Memory.read_set_of_ne _ _ haddress (Ne.symm hne)

end Machine

end CellAsm
