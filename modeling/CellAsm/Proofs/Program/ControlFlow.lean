import CellAsm.Proofs.Machine.Execution

set_option autoImplicit false

/-! # Control stays on instructions

The words of a program are laid out instruction by instruction, but the machine knows nothing of
this layout: it goes on behind the words that it has decoded, or to the target of a jump. If every
jump of a program leads to the beginning of an instruction or to the end of the program, the
machine is at such an address after any number of steps, so it only ever decodes the instructions
of the source (`control_stays_on_instructions`).
-/

namespace CellAsm

namespace Listing

/-! ## Where instructions begin -/

/-- The first word of an instruction of the listing stands at an address. -/
def BeginsAt (listing : Listing) (address : Nat) (entry : Line × Instruction) : Prop :=
  ∃ front back, listing = front ++ entry :: back ∧ address = front.size

/-- An instruction begins at an address, or the program ends there. -/
def IsBoundary (listing : Listing) (address : Nat) : Prop :=
  (∃ entry, listing.BeginsAt address entry) ∨ address = listing.size

/-- Every jump has a literal target, at which an instruction begins or the program ends. -/
def JumpsToBoundaries (listing : Listing) : Prop :=
  ∀ entry ∈ listing, entry.2.opcode.mnemonic.effect = .jump →
    entry.2.opcode.kinds.head? = some .literal ∧
      ∃ target, entry.2.operands.head? = some target ∧ listing.IsBoundary target.toNat

variable {listing : Listing} {address : Nat} {entry : Line × Instruction}

theorem isBoundary_zero (listing : Listing) : listing.IsBoundary 0 := by
  cases listing with
  | nil => exact .inr rfl
  | cons entry rest => exact .inl ⟨entry, [], rest, rfl, rfl⟩

theorem BeginsAt.mem (h : listing.BeginsAt address entry) : entry ∈ listing := by
  obtain ⟨front, back, rfl, -⟩ := h
  simp

/-- The next instruction begins behind the words of an instruction, unless it is the last one. -/
theorem BeginsAt.isBoundary_add_size (h : listing.BeginsAt address entry) :
    listing.IsBoundary (address + entry.2.size) := by
  obtain ⟨front, back, rfl, rfl⟩ := h
  have hsize : size (front ++ [entry]) = front.size + entry.2.size := by
    rw [size_append]
    simp [size, words, Instruction.size]
  cases back with
  | nil => exact .inr hsize.symm
  | cons next back => exact .inl ⟨next, front ++ [entry], back, by simp, hsize.symm⟩

theorem BeginsAt.hasAt (h : listing.BeginsAt address entry) :
    (Program.ofListing listing).HasAt address entry.2.words := by
  obtain ⟨front, back, rfl, rfl⟩ := h
  have hcode := Program.hasAt_ofListing front [entry] back
  rwa [List.append_assoc, words, List.flatMap_singleton] at hcode

end Listing

theorem Program.size_ofListing (listing : Listing) :
    (Program.ofListing listing).size = listing.size := by
  rw [Program.size, ← Array.length_toList, toList_words_ofListing, Listing.size]

namespace Machine

variable {machine : Machine} {listing : Listing} {entry : Line × Instruction}

/-! ## One step -/

/-- At the end of the program and behind it nothing can be fetched. -/
theorem instruction_of_size_le (h : machine.program.size ≤ machine.ip) :
    machine.instruction = .error (.missingHalt machine.ip) := by
  have hfetch : machine.fetch machine.ip = .error (.missingHalt machine.ip) := by
    have hword : machine.program.word? machine.ip = none := Array.getElem?_eq_none h
    rw [fetch, hword]
  rw [instruction, opcode, hfetch]
  rfl

theorem instruction_at_end (h : machine.ip = machine.program.size) :
    machine.instruction = .error (.missingHalt machine.ip) :=
  instruction_of_size_le (Nat.le_of_eq h.symm)

/-- The first operand is used as a value by every jump, and a literal is its own value. -/
theorem head?_of_literal {instruction : Instruction} {memory : Memory} {word : UInt64}
    {values : List UInt64} (hcoded : instruction.IsCoded)
    (hkind : instruction.opcode.kinds.head? = some .literal)
    (hword : instruction.operands.head? = some word)
    (hvalues : instruction.uses.mapM (operandValue memory) = .ok values) :
    values.getD 0 0 = word := by
  obtain ⟨kinds, hkinds⟩ := List.head?_eq_some_iff.mp hkind
  obtain ⟨words, hwords⟩ := List.head?_eq_some_iff.mp hword
  obtain ⟨param, params, hparams⟩ : ∃ param params,
      instruction.opcode.mnemonic.params = param :: params := by
    refine List.exists_cons_of_ne_nil fun hnil => ?_
    have harity := hcoded.arity
    rw [Mnemonic.arity, hnil, hwords] at harity
    cases harity
  have huses : instruction.uses = ((.literal, param), word) :: (kinds.zip params).zip words := by
    rw [Instruction.uses, hkinds, hparams, hwords]
    rfl
  rw [huses] at hvalues
  obtain ⟨value, rest, hvalue, -, rfl⟩ := Success.mapM_cons_iff.mp hvalues
  exact (Except.ok.inj hvalue).symm

/-- **A step from an instruction lands on an instruction or at the end of the program**, if jumps
do. -/
theorem isBoundary_step_of_beginsAt (hcoded : ∀ entry ∈ listing, entry.2.IsCoded)
    (hjumps : listing.JumpsToBoundaries) (hprogram : machine.program = .ofListing listing)
    (h : listing.BeginsAt machine.ip entry) : listing.IsBoundary machine.step.2.ip := by
  have hentry := hcoded entry h.mem
  have hcode : machine.program.HasAt machine.ip entry.2.words := by
    rw [hprogram]
    exact h.hasAt
  cases hinstruction : machine.instruction with
  | error cause =>
      rw [step_of_instruction_error hinstruction]
      exact .inl ⟨entry, h⟩
  | ok next =>
      obtain ⟨mnemonic, action⟩ := next
      obtain ⟨rfl, values, hvalues, haction⟩ :=
        exists_values_of_instruction hentry hcode hinstruction
      have hlands := machine.lands_perform entry.2.opcode.mnemonic
        (machine.ip + 1 + entry.2.opcode.mnemonic.arity) action
      rw [step_of_instruction hinstruction]
      cases hlast : machine.perform entry.2.opcode.mnemonic
        (machine.ip + 1 + entry.2.opcode.mnemonic.arity) action with
      | mk outcome last =>
          rw [hlast] at hlands
          cases hlands with
          -- a fault leaves the machine where it is
          | failed _ hip =>
              rw [hip]
              exact .inl ⟨entry, h⟩
          | passed hip =>
              -- the address behind the operands is where the next instruction begins
              have hsize : machine.ip + 1 + entry.2.opcode.mnemonic.arity
                  = machine.ip + entry.2.size := by
                rw [Instruction.size, Instruction.words, List.length_cons, hentry.arity]
                omega
              rw [hip, hsize]
              exact h.isBoundary_add_size
          | jumped htarget hip =>
              -- a target is written as a number, so it can be checked in the listing
              obtain ⟨heffect, rfl⟩ := eq_of_target? haction htarget
              obtain ⟨hkind, word, hword, hboundary⟩ := hjumps entry h.mem heffect
              rwa [hip, head?_of_literal hentry hkind hword hvalues]

theorem isBoundary_step (hcoded : ∀ entry ∈ listing, entry.2.IsCoded)
    (hjumps : listing.JumpsToBoundaries) (hprogram : machine.program = .ofListing listing)
    (h : listing.IsBoundary machine.ip) : listing.IsBoundary machine.step.2.ip := by
  rcases h with ⟨entry, hentry⟩ | hend
  · exact isBoundary_step_of_beginsAt hcoded hjumps hprogram hentry
  · have hsize : machine.ip = machine.program.size := by
      rw [hprogram, Program.size_ofListing, hend]
    rw [step_of_instruction_error (instruction_at_end hsize)]
    exact .inr hend

/-- A step from an instruction can fail for a cell, the input or an endless loop, and for nothing
else. -/
theorem code_of_step_error (hcoded : entry.2.IsCoded)
    (hcode : machine.program.HasAt machine.ip entry.2.words) {fault : Fault}
    (hfault : machine.step.1 = .error fault) :
    fault.code = .invalidAddress ∨ fault.code = .ioError ∨ fault.code = .infiniteLoop := by
  cases hinstruction : machine.instruction with
  | error cause =>
      rw [step_of_instruction_error hinstruction] at hfault
      obtain rfl := Except.error.inj hfault
      exact .inl (code_of_instruction_error hcoded hcode hinstruction)
  | ok next =>
      obtain ⟨mnemonic, action⟩ := next
      have hlands := machine.lands_perform mnemonic (machine.ip + 1 + mnemonic.arity) action
      rw [step_of_instruction hinstruction] at hfault
      cases hlast : machine.perform mnemonic (machine.ip + 1 + mnemonic.arity) action with
      | mk outcome last =>
          rw [hlast] at hlands hfault
          cases hlands with
          | failed hfailed _ =>
              obtain rfl := Except.error.inj hfault
              exact hfailed
          | passed _ => cases hfault
          | jumped _ _ => cases hfault

/-- The decoder finds the opcode and the operand words of the instruction. -/
theorem decodes_of_hasAt {instruction : Instruction} (hcoded : instruction.IsCoded)
    (hcode : machine.program.HasAt machine.ip instruction.words) :
    machine.opcode = .ok instruction.opcode ∧
      ∀ i word, instruction.operands[i]? = some word →
        machine.fetch (machine.ip + 1 + i) = .ok word := by
  refine ⟨opcode_of_hasAt hcoded.listed hcode, fun i word hword => ?_⟩
  rw [fetch, hcode.tail.word?_add hword]

/-! ## Runs -/

/-- The machine after a number of steps, each of them taken whether or not the one before it
succeeded and whether or not the machine has stopped. -/
def afterSteps (machine : Machine) : Nat → Machine
  | 0 => machine
  | n + 1 => (machine.afterSteps n).step.2

theorem program_afterSteps (machine : Machine) (n : Nat) :
    (machine.afterSteps n).program = machine.program := by
  induction n with
  | zero => rfl
  | succ n ih => exact (step_changes _).program.trans ih

/-- **Control never leaves the instructions**: after any number of steps the machine is at the
beginning of an instruction or at the end of the program. -/
theorem isBoundary_afterSteps (hcoded : ∀ entry ∈ listing, entry.2.IsCoded)
    (hjumps : listing.JumpsToBoundaries) (hprogram : machine.program = .ofListing listing)
    (h : listing.IsBoundary machine.ip) (n : Nat) :
    listing.IsBoundary (machine.afterSteps n).ip := by
  induction n with
  | zero => exact h
  | succ n ih =>
      exact isBoundary_step hcoded hjumps ((program_afterSteps machine n).trans hprogram) ih

end Machine

/-- **Control stays on the instructions of the source.** Lines that codegen accepts spell a
listing, and if its jumps have literal targets at which an instruction begins or the program ends,
then whatever machine loads the program and however many steps it takes: the machine is at the
beginning of an instruction or at the end of the program. It never meets a word that is no opcode,
it runs past the program exactly at its end, and everywhere else it decodes the instruction that
the source has there, with its operation, the kinds of its operands and their words. -/
theorem control_stays_on_instructions {lines : List Line} {program : Program}
    (h : Program.ofLines lines = .ok program) :
    ∃ listing, Listing.IsSpelled lines listing ∧ program = .ofListing listing ∧
      (listing.JumpsToBoundaries → ∀ (machine : Machine) (n : Nat),
        let reached := (machine.load program).afterSteps n
        listing.IsBoundary reached.ip ∧
        (∀ fault, reached.step.1 = .error fault → fault.code ≠ .unknownOpcode) ∧
        ((∃ fault, reached.step.1 = .error fault ∧ fault.code = .missingHalt) ↔
          reached.ip = program.size) ∧
        (reached.ip ≠ program.size → ∃ entry, listing.BeginsAt reached.ip entry ∧
          reached.opcode = .ok entry.2.opcode ∧
          ∀ i word, entry.2.operands[i]? = some word →
            reached.fetch (reached.ip + 1 + i) = .ok word)) := by
  obtain ⟨listing, hlisting, rfl⟩ := Success.map_iff.mp h
  have hspelled := Listing.ofLines_eq_ok_iff.mp hlisting
  refine ⟨listing, hspelled, rfl, fun hjumps machine n => ?_⟩
  have hboundary : listing.IsBoundary ((machine.load (.ofListing listing)).afterSteps n).ip :=
    Machine.isBoundary_afterSteps hspelled.isCoded hjumps rfl listing.isBoundary_zero n
  have hprogram := (machine.load (.ofListing listing)).program_afterSteps n
  generalize (machine.load (.ofListing listing)).afterSteps n = reached at hboundary hprogram
  change reached.program = .ofListing listing at hprogram
  refine ⟨hboundary, ?_⟩
  rcases hboundary with ⟨entry, hentry⟩ | hend
  · -- at an instruction, which ends before the program does
    have hcoded := hspelled.isCoded entry hentry.mem
    have hcode : reached.program.HasAt reached.ip entry.2.words := by
      rw [hprogram]
      exact hentry.hasAt
    have hcodes : ∀ fault, reached.step.1 = .error fault →
        fault.code = .invalidAddress ∨ fault.code = .ioError ∨ fault.code = .infiniteLoop :=
      fun _ => Machine.code_of_step_error hcoded hcode
    have hinside : reached.ip ≠ (Program.ofListing listing).size :=
      Nat.ne_of_lt hentry.hasAt.lt_size
    refine ⟨fun fault hfault hcode => ?_, iff_of_false ?_ hinside,
      fun _ => ⟨entry, hentry, Machine.decodes_of_hasAt hcoded hcode⟩⟩
    · simpa [hcode] using hcodes fault hfault
    · rintro ⟨fault, hfault, hcode⟩
      simpa [hcode] using hcodes fault hfault
  · -- at the end, where the word that is missing is the first thing to be noticed
    have hsize : reached.ip = (Program.ofListing listing).size := by
      rw [Program.size_ofListing, hend]
    have hstep : reached.step.1 = .error ⟨.missingHalt reached.ip, reached.blame⟩ := by
      rw [Machine.step_of_instruction_error
        (Machine.instruction_at_end (hsize.trans (congrArg Program.size hprogram.symm)))]
      rfl
    refine ⟨fun fault hfault => ?_, iff_of_true ⟨_, hstep, rfl⟩ hsize, fun hne => absurd hsize hne⟩
    obtain rfl := Except.error.inj (hstep.symm.trans hfault)
    exact Fault.Code.noConfusion

/-! ### A jump to the end of the program -/

namespace ControlFlow.Sample

def lines : List Line := Line.ofText "sample" "MOV [0] 1\nJZ 9 [1]\nHALT\nJMP 3"

def line (number : Nat) (source : String) : Line := ⟨number, "sample", source, source⟩

def listing : Listing :=
  [(line 1 "MOV [0] 1", ⟨⟨0x08, .mov, [.address, .literal]⟩, [0, 1]⟩),
    (line 2 "JZ 9 [1]", ⟨⟨0x12, .jz, [.literal, .address]⟩, [9, 1]⟩),
    (line 3 "HALT", ⟨⟨0xFF, .halt, []⟩, []⟩),
    (line 4 "JMP 3", ⟨⟨0x0F, .jmp, [.literal]⟩, [3]⟩)]

theorem ofLines_lines : Listing.ofLines lines = .ok listing := by decide +kernel

theorem jumpsToBoundaries_listing : listing.JumpsToBoundaries := by
  -- the first jump leads to the end of the program, the second one to the first
  have hend : listing.IsBoundary 9 := .inr (by decide)
  have hfirst : listing.IsBoundary 3 := .inl ⟨_, listing.take 1, listing.drop 2, rfl, by decide⟩
  intro entry hentry heffect
  simp only [listing, List.mem_cons, List.not_mem_nil, or_false] at hentry
  rcases hentry with rfl | rfl | rfl | rfl
  · cases heffect
  · exact ⟨rfl, 9, rfl, hend⟩
  · cases heffect
  · exact ⟨rfl, 3, rfl, hfirst⟩

/-- A machine that has loaded the program. -/
def machine : Machine := (Machine.create .default [] default).load (.ofListing listing)

end ControlFlow.Sample

open ControlFlow.Sample in
theorem control_stays_on_instructions_sample :
    Program.ofLines lines = .ok (.ofListing listing) ∧ listing.JumpsToBoundaries ∧
      (∃ entry, listing.BeginsAt 3 entry ∧ (machine.afterSteps 1).opcode = .ok entry.2.opcode) ∧
      ∃ fault, (machine.afterSteps 2).step.1 = .error fault ∧ fault.code = .missingHalt := by
  have hprogram : Program.ofLines lines = .ok (.ofListing listing) :=
    Success.map_iff.mpr ⟨listing, ofLines_lines, rfl⟩
  obtain ⟨listing', hspelled, -, hcontrol⟩ := control_stays_on_instructions hprogram
  obtain rfl : listing = listing' :=
    Except.ok.inj (ofLines_lines.symm.trans (Listing.ofLines_eq_ok_iff.mpr hspelled))
  have hreached := hcontrol jumpsToBoundaries_listing (Machine.create {} [] default)
  refine ⟨hprogram, jumpsToBoundaries_listing, ?_, ?_⟩
  · have hip : (machine.afterSteps 1).ip = 3 := by decide +kernel
    obtain ⟨-, -, -, hdecodes⟩ := hreached 1
    obtain ⟨entry, hentry, hopcode, -⟩ := hdecodes (by decide +kernel)
    exact ⟨entry, hip ▸ hentry, hopcode⟩
  · obtain ⟨-, -, hmissing, -⟩ := hreached 2
    exact hmissing.mpr (by decide +kernel)

end CellAsm
