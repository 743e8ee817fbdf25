import CellAsm.Proofs.Machine.Execution
import CellAsm.Proofs.Program.SingleLine

set_option autoImplicit false

/-! # Executing moves and jumps

With the words of a move or of a jump at the instruction pointer the next step is known
completely (`exists_step_move`, `step_jump`). The words are those that lines of one instruction are
assembled to, with any operand in the place of the value.
-/

namespace CellAsm

/-- What an operand in the place of a value is at run time. -/
def Operand.value (operand : Operand) (memory : Memory) : Except Fault.Cause UInt64 :=
  if operand.kind.isRead .value then memory.read operand.word else .ok operand.word

@[simp] theorem Operand.value_address (word : UInt64) (memory : Memory) :
    (Operand.mk .address word).value memory = memory.read word := rfl

theorem Operand.exists_value {operand : Operand} {memory : Memory}
    (h : operand.kind = .address → operand.word.toNat < memory.size) :
    ∃ value, operand.value memory = .ok value := by
  obtain ⟨kind, word⟩ := operand
  cases kind with
  | address => exact Memory.exists_read (h rfl)
  | literal => exact ⟨word, rfl⟩

/-- An operand has the same value while the cell that it names does. -/
theorem Operand.value_congr {operand : Operand} {memory memory' : Memory}
    (h : operand.kind = .address → memory'.read operand.word = memory.read operand.word) :
    operand.value memory' = operand.value memory := by
  obtain ⟨kind, word⟩ := operand
  cases kind with
  | address => exact h rfl
  | literal => rfl

namespace Machine

variable {machine : Machine} {operand : Operand} {value : UInt64}

/-! ## Moves -/

/-- The instruction of a move is to store the value of its second operand. -/
theorem instruction_move {destination : UInt64}
    (hcode : machine.program.HasAt machine.ip
      [(moveOpcode operand.kind).byte.toUInt64, destination, operand.word])
    (hvalue : operand.value machine.memory = .ok value) :
    machine.instruction = .ok (.mov, .store destination value) := by
  obtain ⟨kind, word⟩ := operand
  have hlisted : moveOpcode kind ∈ Opcode.table := by cases kind <;> decide
  have hcoded : (Instruction.mk (moveOpcode kind) [destination, word]).IsCoded :=
    ⟨hlisted, by cases kind <;> rfl⟩
  -- the destination is taken as it is, the source for its value
  cases kind <;>
    exact instruction_of_operands hcoded hcode
      (Success.mapM_iff.mpr (.cons rfl (.cons hvalue .nil))) rfl

/-- **A move into a cell that exists** stores the value and goes on behind its three words. -/
theorem exists_step_move {config : Config} {destination : UInt64} (operand : Operand)
    (hfits : machine.memory.Fits config)
    (hcode : machine.program.HasAt machine.ip
      [(moveOpcode operand.kind).byte.toUInt64, destination, operand.word])
    (hvalue : operand.value machine.memory = .ok value)
    (hcell : destination.toNat < config.memorySize) :
    ∃ next, machine.step = (.ok (), next) ∧ next.ip = machine.ip + 3 ∧
      machine.Keeps next (· = destination) ∧ next.memory.Fits config ∧
      next.memory.Holds destination (value.toNat % 2 ^ config.wordSize) :=
  exists_step_store hfits (instruction_move hcode hvalue) (hfits.size ▸ hcell)

/-! ## Jumps -/

/-- The instruction of a jump is to go to the value of its operand. -/
theorem instruction_jump
    (hcode : machine.program.HasAt machine.ip
      [(jumpOpcode operand.kind).byte.toUInt64, operand.word])
    (hvalue : operand.value machine.memory = .ok value) :
    machine.instruction = .ok (.jmp, .jump true value) := by
  obtain ⟨kind, word⟩ := operand
  have hlisted : jumpOpcode kind ∈ Opcode.table := by cases kind <;> decide
  have hcoded : (Instruction.mk (jumpOpcode kind) [word]).IsCoded :=
    ⟨hlisted, by cases kind <;> rfl⟩
  cases kind <;>
    exact instruction_of_operands hcoded hcode (Success.mapM_iff.mpr (.cons hvalue .nil)) rfl

/-- **A jump goes to the value of its operand**; to its own address it is a fault. -/
theorem step_jump (operand : Operand)
    (hcode : machine.program.HasAt machine.ip
      [(jumpOpcode operand.kind).byte.toUInt64, operand.word])
    (hvalue : operand.value machine.memory = .ok value) :
    machine.step
      = if value.toNat = machine.ip then machine.fail (.infiniteLoop .jmp value.toNat)
        else machine.proceed value.toNat := by
  rw [step_of_instruction (instruction_jump hcode hvalue)]
  rfl

end Machine

end CellAsm
