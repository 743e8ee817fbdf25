import CellAsm.Proofs.Machine.Cells
import CellAsm.Proofs.Program.Layout
import CellAsm.Proofs.Program.Spelling

set_option autoImplicit false

/-! # The instruction at the instruction pointer

Where the words of an instruction stand at the instruction pointer, the machine decodes this
instruction and takes for each operand the word or the contents of the cell that it names
(`Machine.instruction_of_hasAt`). Whatever the instruction, a step lands in one of three places:
where it was, with a fault, behind the instruction, or at the target of a jump
(`Machine.lands_perform`).
-/

namespace CellAsm

/-- The operand words with the ways in which they are written and used. -/
def Instruction.uses (instruction : Instruction) : List ((Kind × Param) × UInt64) :=
  (instruction.opcode.kinds.zip instruction.opcode.mnemonic.params).zip instruction.operands

theorem Memory.eq_invalidAddress_of_read {memory : Memory} {cell : UInt64} {cause : Fault.Cause}
    (h : memory.read cell = .error cause) : cause = .invalidAddress cell := by
  unfold read at h
  split at h
  · cases h
  · exact (Except.error.inj h).symm

namespace Machine

variable {machine : Machine} {instruction : Instruction} {words : List UInt64}

/-! ## Decoding -/

theorem fetch_of_hasAt {address : Nat} {word : UInt64}
    (h : machine.program.HasAt address (word :: words)) : machine.fetch address = .ok word := by
  rw [fetch, h.word?]

theorem opcode_of_hasAt {op : Opcode} (hop : op ∈ Opcode.table)
    (h : machine.program.HasAt machine.ip (op.byte.toUInt64 :: words)) :
    machine.opcode = .ok op := by
  refine Success.bind_iff.mpr ⟨op.byte.toUInt64, fetch_of_hasAt h, ?_⟩
  rw [Opcode.ofWord?_byte hop]

/-- What an operand is at run time: an address in the place of a value is read. -/
def operandValue (memory : Memory) (use : (Kind × Param) × UInt64) : Except Fault.Cause UInt64 :=
  if use.1.1.isRead use.1.2 then memory.read use.2 else .ok use.2

theorem operandsAt_of_hasAt {address : Nat} {uses : List (Kind × Param)} {words : List UInt64}
    (hlength : uses.length = words.length) (h : machine.program.HasAt address words) :
    machine.operandsAt address uses = (uses.zip words).mapM (operandValue machine.memory) := by
  induction uses generalizing address words with
  | nil => rfl
  | cons use uses ih =>
      cases words with
      | nil => cases hlength
      | cons word words =>
          obtain ⟨kind, param⟩ := use
          rw [operandsAt_cons, fetch_of_hasAt h, List.zip_cons_cons, List.mapM_cons,
            ih (Nat.succ.inj hlength) h.tail]
          rfl

/-- **The machine decodes the instruction whose words stand at the instruction pointer.** -/
theorem instruction_of_hasAt (hcoded : instruction.IsCoded)
    (h : machine.program.HasAt machine.ip instruction.words) :
    machine.instruction = (do
      let values ← instruction.uses.mapM (operandValue machine.memory)
      let action ← action machine.memory instruction.opcode.mnemonic values
      return (instruction.opcode.mnemonic, action)) := by
  have hlength : (instruction.opcode.kinds.zip instruction.opcode.mnemonic.params).length
      = instruction.operands.length := by
    rw [List.length_zip, Opcode.length_kinds hcoded.listed, hcoded.arity]
    exact Nat.min_self _
  have hoperands : machine.operands instruction.opcode
      = instruction.uses.mapM (operandValue machine.memory) :=
    operandsAt_of_hasAt hlength h.tail
  rw [Machine.instruction, opcode_of_hasAt hcoded.listed h, ← hoperands]
  rfl

/-- What the decoded instruction asks for, once its operands are known. -/
theorem instruction_of_operands {act : Action} (hcoded : instruction.IsCoded)
    (h : machine.program.HasAt machine.ip instruction.words)
    (hwords : instruction.uses.mapM (operandValue machine.memory) = .ok words)
    (haction : action machine.memory instruction.opcode.mnemonic words = .ok act) :
    machine.instruction = .ok (instruction.opcode.mnemonic, act) := by
  rw [instruction_of_hasAt hcoded h, hwords]
  exact Success.bind_iff.mpr ⟨words, rfl, Success.bind_iff.mpr ⟨act, haction, rfl⟩⟩

/-- What a decoded instruction asks for is the action of its operation on its operands. -/
theorem exists_values_of_instruction (hcoded : instruction.IsCoded)
    (h : machine.program.HasAt machine.ip instruction.words) {mnemonic : Mnemonic} {act : Action}
    (hinstruction : machine.instruction = .ok (mnemonic, act)) :
    mnemonic = instruction.opcode.mnemonic ∧
      ∃ values, instruction.uses.mapM (operandValue machine.memory) = .ok values ∧
        action machine.memory instruction.opcode.mnemonic values = .ok act := by
  rw [instruction_of_hasAt hcoded h] at hinstruction
  obtain ⟨values, hvalues, hinstruction⟩ := Success.bind_iff.mp hinstruction
  obtain ⟨found, haction, hinstruction⟩ := Success.bind_iff.mp hinstruction
  obtain ⟨rfl, rfl⟩ := Prod.mk.inj (Success.pure_iff.mp hinstruction)
  exact ⟨rfl, values, hvalues, haction⟩

/-- With its operands at hand an instruction can only fail to read a cell. -/
theorem code_of_action_error {memory : Memory} {mnemonic : Mnemonic} {values : List UInt64}
    {cause : Fault.Cause} (h : action memory mnemonic values = .error cause) :
    cause.code = .invalidAddress := by
  have hcombine : ∀ {address : UInt64} {f : UInt64 → UInt64},
      combine memory address f = .error cause → cause.code = .invalidAddress := by
    intro address f hfail
    unfold combine at hfail
    cases hread : memory.read address with
    | error cause' =>
        rw [hread] at hfail
        obtain rfl := Except.error.inj hfail
        rw [Memory.eq_invalidAddress_of_read hread]
        rfl
    | ok word =>
        rw [hread] at hfail
        cases hfail
  cases mnemonic with
  | and | or | xor | not | add | sub => exact hcombine h
  | mov | random | jmp | jz | jeq | jls | jgt | halt | aprint | dprint | aread => cases h

/-- A decoded instruction can only fail to read a cell. -/
theorem code_of_instruction_error (hcoded : instruction.IsCoded)
    (h : machine.program.HasAt machine.ip instruction.words) {cause : Fault.Cause}
    (hfail : machine.instruction = .error cause) : cause.code = .invalidAddress := by
  rw [instruction_of_hasAt hcoded h, Failure.bind_iff] at hfail
  rcases hfail with hoperands | ⟨values, -, hfail⟩
  · obtain ⟨use, -, huse⟩ := Failure.exists_mem_of_mapM hoperands
    unfold operandValue at huse
    split at huse
    · rw [Memory.eq_invalidAddress_of_read huse]
      rfl
    · cases huse
  · rcases Failure.bind_iff.mp hfail with haction | ⟨action, -, hfail⟩
    · exact code_of_action_error haction
    · cases hfail

/-! ## Where a step lands -/

/-- The target of an action that jumps. -/
def Action.target? : Action → Option UInt64
  | .jump true target => some target
  | _ => none

/-- Only a jump has a target, and it is the first operand. -/
theorem eq_of_target? {memory : Memory} {mnemonic : Mnemonic} {values : List UInt64}
    {act : Action} {target : UInt64} (h : action memory mnemonic values = .ok act)
    (htarget : act.target? = some target) :
    mnemonic.effect = .jump ∧ target = values.getD 0 0 := by
  have hjump : ∀ condition, act = .jump condition (values.getD 0 0) →
      target = values.getD 0 0 := by
    rintro condition rfl
    cases condition with
    | false => cases htarget
    | true => exact (Option.some.inj htarget).symm
  cases mnemonic with
  | jmp | jz | jeq | jls | jgt => exact ⟨rfl, hjump _ (Except.ok.inj h).symm⟩
  | and | or | xor | not | add | sub =>
      obtain ⟨_, _, rfl⟩ := Success.map_iff.mp h
      cases htarget
  | mov | random | halt | aprint | dprint | aread =>
      obtain rfl := Except.ok.inj h
      cases htarget

/-- A jump that is taken leads to its target, everything else behind the instruction. -/
theorem Performs.ip_eq {last : Machine} {behind : Nat} {act : Action}
    (h : Performs machine behind act last) :
    last.ip = act.target?.elim behind UInt64.toNat := by
  cases h <;> rfl

/-- How a step from the address `start` ends, where `next` is behind the instruction. -/
inductive Lands (start next : Nat) (target? : Option UInt64) :
    Except Fault Unit × Machine → Prop where
  | failed {fault : Fault} {last : Machine}
      (code : fault.code = .invalidAddress ∨ fault.code = .ioError ∨ fault.code = .infiniteLoop)
      (ip : last.ip = start) : Lands start next target? (.error fault, last)
  | passed {last : Machine} (ip : last.ip = next) : Lands start next target? (.ok (), last)
  | jumped {target : UInt64} {last : Machine} (hjump : target? = some target)
      (ip : last.ip = target.toNat) : Lands start next target? (.ok (), last)

theorem lands_perform (machine : Machine) (mnemonic : Mnemonic) (next : Nat) (action : Action) :
    Lands machine.ip next action.target? (machine.perform mnemonic next action) := by
  rcases machine.performs_or_refuses mnemonic next action with
    ⟨last, hperforms⟩ | ⟨cause, used, hrefuses⟩
  · rw [hperforms.perform_eq]
    cases hperforms with
    | jump => exact .jumped rfl rfl
    | store | draw | read | readEnd | pass | print | halt => exact .passed rfl
  · rw [hrefuses.perform_eq]
    cases hrefuses with
    | store | draw | read | readEnd => exact .failed (.inl rfl) rfl
    | readError => exact .failed (.inr (.inl rfl)) rfl
    | jump => exact .failed (.inr (.inr rfl)) rfl

end Machine

end CellAsm
