import CellAsm.Proofs.Machine.Execution

set_option autoImplicit false

/-! # Steps that fail

A step fetches, decodes, reads its operands, computes, takes input or a random number, stores and
goes on, and it can fail at each of these points. A fault never leaves half of an instruction
behind: whatever was done before it, the machine is the one that the step began with
(`failed_step_leaves_machine`). Three things are exceptions. The address of the instruction is
remembered, to blame it for a later fault; an item of the input stays consumed if it was read for a
cell that does not exist, or if the input failed; and so does a random number that was drawn for
such a cell.
-/

namespace CellAsm.Machine

section

variable {machine : Machine} {mnemonic : Mnemonic} {act : Action} {fault : Fault}

/-- The instruction at the instruction pointer is one of the operation. -/
def IsAt (machine : Machine) (mnemonic : Mnemonic) : Prop :=
  ∃ op, machine.opcode = .ok op ∧ op.mnemonic = mnemonic

theorem isAt_of_instruction (h : machine.instruction = .ok (mnemonic, act)) :
    machine.IsAt mnemonic := by
  obtain ⟨op, values, hop, -, -, hmnemonic⟩ := instruction_eq_ok_iff.mp h
  exact ⟨op, hop, hmnemonic⟩

theorem isOf_of_instruction (h : machine.instruction = .ok (mnemonic, act)) :
    act.IsOf mnemonic := by
  obtain ⟨op, values, -, -, haction, rfl⟩ := instruction_eq_ok_iff.mp h
  exact isOf_of_action haction

/-! ## Which faults there are -/

theorem code_of_fetch_error {address : Nat} {cause : Fault.Cause}
    (h : machine.fetch address = .error cause) : cause.code = .missingHalt := by
  unfold fetch at h
  split at h
  · cases h
  · obtain rfl := Except.error.inj h
    rfl

theorem code_of_opcode_error {cause : Fault.Cause} (h : machine.opcode = .error cause) :
    cause.code = .missingHalt ∨ cause.code = .unknownOpcode := by
  rcases Failure.bind_iff.mp h with hfetch | ⟨word, -, hdecode⟩
  · exact .inl (code_of_fetch_error hfetch)
  · split at hdecode
    · cases hdecode
    · obtain rfl := Except.error.inj hdecode
      exact .inr rfl

theorem code_of_operandsAt_error {address : Nat} {uses : List (Kind × Param)}
    {cause : Fault.Cause} (h : machine.operandsAt address uses = .error cause) :
    cause.code = .missingHalt ∨ cause.code = .invalidAddress := by
  induction uses generalizing address with
  | nil => cases h
  | cons use uses ih =>
      rw [operandsAt_cons] at h
      rcases Failure.bind_iff.mp h with hfetch | ⟨word, -, h⟩
      · exact .inl (code_of_fetch_error hfetch)
      · rcases Failure.bind_iff.mp h with hvalue | ⟨value, -, h⟩
        · split at hvalue
          · rw [Memory.eq_invalidAddress_of_read hvalue]
            exact .inr rfl
          · cases hvalue
        · rcases Failure.bind_iff.mp h with hrest | ⟨values, -, h⟩
          · exact ih hrest
          · cases h

/-- Before the action is known a step can fail for a word that is missing or no opcode, or for a
cell that does not exist. -/
theorem code_of_undecoded {cause : Fault.Cause} (h : machine.instruction = .error cause) :
    cause.code = .missingHalt ∨ cause.code = .unknownOpcode ∨ cause.code = .invalidAddress := by
  rcases Failure.bind_iff.mp h with hopcode | ⟨op, -, h⟩
  · rcases code_of_opcode_error hopcode with hmissing | hunknown
    · exact .inl hmissing
    · exact .inr (.inl hunknown)
  · rcases Failure.bind_iff.mp h with hoperands | ⟨values, -, h⟩
    · rcases code_of_operandsAt_error hoperands with hmissing | hinvalid
      · exact .inl hmissing
      · exact .inr (.inr hinvalid)
    · rcases Failure.bind_iff.mp h with haction | ⟨found, -, h⟩
      · exact .inr (.inr (code_of_action_error haction))
      · cases h

/-- The codes of the faults that an action can end with. -/
def Action.faults : Action → List Fault.Code
  | .store _ _ | .draw _ => [.invalidAddress]
  | .read _ => [.invalidAddress, .ioError]
  | .jump true _ => [.infiniteLoop]
  | .jump false _ | .print _ | .halt => []

/-- An action is refused for a reason of its own. -/
theorem Refuses.code_mem_faults {cause : Fault.Cause} {used : Machine}
    (h : Refuses machine mnemonic act cause used) : cause.code ∈ act.faults := by
  cases h with
  | store | draw | read | readEnd | jump => exact List.mem_cons_self
  | readError => exact List.mem_cons_of_mem _ List.mem_cons_self

/-! ## What a failed step leaves behind -/

/-- The machine `next` is what an attempt at the instruction of `machine` leaves behind when it
fails. -/
structure Tried (machine next : Machine) : Prop where
  /-- Apart from what the attempt has used up, only the address of the attempt is new. -/
  same : next = { machine with
    lastIp := some machine.ip
    input := next.input
    drawn := next.drawn }
  /-- Only an instruction that reads can have used up input, and not more than one item. -/
  input : next.input = machine.input ∨ machine.IsAt .aread ∧ next.input = machine.input.tail
  /-- Only an instruction that draws can have used up random numbers, and not more than one. -/
  drawn : next.drawn = machine.drawn ∨ machine.IsAt .random ∧
    next.drawn = (machine.draws.next machine.config.maxRandom machine.drawn).2

/-- Only a read and a draw use something up before they are refused. -/
theorem Refuses.tried {cause : Fault.Cause} {used : Machine}
    (h : Refuses machine mnemonic act cause used)
    (hinstruction : machine.instruction = .ok (mnemonic, act)) :
    machine.Tried (used.fail cause).2 := by
  have hat : machine.IsAt mnemonic := isAt_of_instruction hinstruction
  have hof : act.IsOf mnemonic := isOf_of_instruction hinstruction
  cases h with
  | store | readEnd | jump => exact ⟨rfl, .inl rfl, .inl rfl⟩
  | draw =>
      obtain rfl : mnemonic = .random := hof
      exact ⟨rfl, .inl rfl, .inr ⟨hat, rfl⟩⟩
  | read _ hinput | readError hinput =>
      -- the item is gone, whether it is a character without a cell or a failure of the input
      obtain rfl : mnemonic = .aread := hof
      exact ⟨rfl, .inr ⟨hat, by rw [hinput]; rfl⟩, .inl rfl⟩

/-- **A failed step leaves the machine as it was**, whatever the program, the memory and the address
are: program, memory, instruction pointer, ticks, output, the text still to be told and whether the
machine runs. At most one item of the input is used up, by an instruction that reads, and at most
one random number, by an instruction that draws. -/
theorem failed_step_leaves_machine (machine : Machine) {fault : Fault}
    (h : machine.step.1 = .error fault) : machine.Tried machine.step.2 := by
  have hends := machine.ends_step
  generalize machine.step = outcome at hends h ⊢
  cases hends with
  | undecoded => exact ⟨rfl, .inl rfl, .inl rfl⟩
  | refused hinstruction hrefuses => exact hrefuses.tried hinstruction
  | performed => cases h

end

namespace FailedStep.Sample

/-- `AREAD [9]` on a machine with two cells, to which `A` and `B` were typed. -/
def machine : Machine :=
  (create (Config.default.withMemorySize 2) [.ok 'A', .ok 'B'] default).load
    { words := #[36, 9] }

end FailedStep.Sample

open FailedStep.Sample in
theorem failed_step_leaves_machine_sample :
    machine.step.1 = .error ⟨.invalidAddress 9, none⟩ ∧ machine.Tried machine.step.2 ∧
      machine.step.2.input = [.ok 'B'] := by
  have hfault : machine.step.1 = .error ⟨.invalidAddress 9, none⟩ := by decide +kernel
  have hinput : machine.step.2.input = [.ok 'B'] := by rfl
  exact ⟨hfault, failed_step_leaves_machine machine hfault, hinput⟩

end CellAsm.Machine
