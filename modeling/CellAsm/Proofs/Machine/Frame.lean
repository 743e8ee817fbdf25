import CellAsm.Proofs.Machine.LoopCheck

set_option autoImplicit false

/-! # What a successful step changes

A step that succeeds performs the action of the instruction at the instruction pointer
(`exists_performs_of_step`), and every part of the machine that this leaves is read off `Performs`.
What an operation asks for says which operations touch which part. So the frame of a step is known
for every instruction (`step_frame`): one cell at the most, the one that the first operand word
names, and this only for an operation with a destination; the texts for the two that print; the
input for the one that reads; and the instruction pointer, which follows a jump that is taken and
otherwise passes to the next instruction.
-/

namespace CellAsm

/-- The operations that store to a cell. -/
def Mnemonic.storing : List Mnemonic :=
  [.and, .or, .xor, .not, .mov, .add, .sub, .random, .aread]

namespace Machine

section

variable {machine last : Machine} {mnemonic : Mnemonic} {act : Action} {behind : Nat}
  {op : Opcode} {values : List UInt64}

/-! ## What an action leaves -/

namespace Performs

variable (h : Performs machine behind act last)
include h

/-- Every action counts one tick and is noted, and none touches the parameters, the program and the
source of random numbers. -/
theorem keeps :
    last.ticks = machine.ticks + 1 ∧ last.lastIp = some machine.ip ∧
      last.config = machine.config ∧ last.program = machine.program ∧
      last.draws = machine.draws := by
  cases h <;> exact ⟨rfl, rfl, rfl, rfl, rfl⟩

theorem shape :
    last.memory.size = machine.memory.size ∧ last.memory.mask = machine.memory.mask := by
  cases h <;> first
    | exact ⟨rfl, rfl⟩
    | exact ⟨Memory.size_set _ _ _ _, rfl⟩

/-- Only the destination can have another value. -/
theorem exists_destination {i : Nat} (hi : last.memory.cells[i]? ≠ machine.memory.cells[i]?) :
    ∃ address, act.destination? = some address ∧ i = address.toNat := by
  have hset : ∀ (address value : UInt64) (hcell : address.toNat < machine.memory.size),
      (machine.memory.set address value hcell).cells[i]? ≠ machine.memory.cells[i]? →
        i = address.toNat := by
    intro address value hcell hne
    by_contra hother
    exact hne (Array.getElem?_set_ne hcell (Ne.symm hother))
  cases h with
  | store hcell => exact ⟨_, rfl, hset _ _ hcell hi⟩
  | draw hcell => exact ⟨_, rfl, hset _ _ hcell hi⟩
  | read hcell => exact ⟨_, rfl, hset _ _ hcell hi⟩
  | readEnd hcell => exact ⟨_, rfl, hset _ _ hcell hi⟩
  | pass | jump | print | halt => exact absurd rfl hi

/-- What is printed is added to the output and to the text that is still to be told. -/
theorem texts :
    last.output = machine.output ++ act.text?.getD "" ∧
      last.pending = machine.pending ++ act.text?.getD "" := by
  cases h with
  | print => exact ⟨rfl, rfl⟩
  | store | draw | read | readEnd | pass | jump | halt =>
      exact ⟨String.append_empty.symm, String.append_empty.symm⟩

theorem running_of_halt (hact : act = .halt) : last.running = false := by
  cases h with
  | halt => rfl
  | store | draw | read | readEnd | pass | jump | print => cases hact

theorem running_of_ne (hact : act ≠ .halt) : last.running = machine.running := by
  cases h with
  | halt => exact absurd rfl hact
  | store | draw | read | readEnd | pass | jump | print => rfl

theorem input_of_ne (hact : ∀ address, act ≠ .read address) : last.input = machine.input := by
  cases h with
  | read | readEnd => exact absurd rfl (hact _)
  | store | draw | pass | jump | print | halt => rfl

theorem drawn_of_ne (hact : ∀ address, act ≠ .draw address) : last.drawn = machine.drawn := by
  cases h with
  | draw => exact absurd rfl (hact _)
  | store | read | readEnd | pass | jump | print | halt => rfl

/-- A read takes one item from the front of the input, if there is one. -/
theorem input_of_read {address : UInt64} (hact : act = .read address) :
    last.input = machine.input.tail := by
  cases h with
  | read _ hinput => rw [hinput]; rfl
  | readEnd _ hinput => rw [hinput]; rfl
  | store | draw | pass | jump | print | halt => cases hact

end Performs

/-! ## Operands -/

/-- An operand is the word in its place, or the contents of the cell that the word names. -/
theorem exists_of_operandsAt {address : Nat} {uses : List (Kind × Param)}
    (h : machine.operandsAt address uses = .ok values) {i : Nat} {use : Kind × Param}
    (huse : uses[i]? = some use) :
    ∃ word value, machine.program.word? (address + i) = some word ∧ values[i]? = some value ∧
      operandValue machine.memory (use, word) = .ok value := by
  induction uses generalizing address values i with
  | nil => cases huse
  | cons first uses ih =>
      obtain ⟨kind, param⟩ := first
      rw [operandsAt_cons] at h
      obtain ⟨word, hword, h⟩ := Success.bind_iff.mp h
      obtain ⟨value, hvalue, h⟩ := Success.bind_iff.mp h
      obtain ⟨rest, hrest, h⟩ := Success.bind_iff.mp h
      obtain rfl := Success.pure_iff.mp h
      cases i with
      | zero =>
          obtain rfl := Option.some.inj huse
          exact ⟨word, value, word?_of_fetch hword, rfl, hvalue⟩
      | succ i =>
          have hfound := ih hrest huse
          rwa [Nat.add_right_comm, Nat.add_assoc] at hfound

theorem mem_table_of_opcode (h : machine.opcode = .ok op) : op ∈ Opcode.table := by
  obtain ⟨word, -, h⟩ := Success.bind_iff.mp h
  split at h
  · next found hfound =>
    obtain rfl := Except.ok.inj h
    exact (Opcode.mem_table_of_ofWord? hfound).1
  · cases h

/-- A destination is the word in its place. -/
theorem word?_of_dest (hoperands : machine.operands op = .ok values) {i : Nat}
    (hparam : ((op.kinds.zip op.mnemonic.params)[i]?).map Prod.snd = some .dest) :
    machine.program.word? (machine.ip + 1 + i) = some (values.getD i 0) := by
  obtain ⟨⟨kind, param⟩, huse, hdest⟩ := Option.map_eq_some_iff.mp hparam
  obtain rfl : param = .dest := hdest
  obtain ⟨word, value, hword, hvalue, hsame⟩ := exists_of_operandsAt hoperands huse
  obtain rfl : word = value := by
    cases kind <;> exact Except.ok.inj hsame
  rw [hword, List.getD_eq_getElem?_getD, hvalue, Option.getD_some]

theorem param_of_storing (h : op ∈ Opcode.table) (hstores : op.mnemonic ∈ Mnemonic.storing) :
    ((op.kinds.zip op.mnemonic.params)[0]?).map Prod.snd = some .dest := by
  revert op
  decide

/-! ## Which operation does what -/

/-- An action that stores belongs to an operation that does, and its destination is the first
operand. -/
theorem storing_of_destination? {address : UInt64}
    (h : action machine.memory mnemonic values = .ok act)
    (hdestination : act.destination? = some address) :
    mnemonic ∈ Mnemonic.storing ∧ address = values.getD 0 0 := by
  cases mnemonic with
  | and | or | xor | not | add | sub =>
      obtain ⟨_, _, rfl⟩ := Success.map_iff.mp h
      exact ⟨by decide, (Option.some.inj hdestination).symm⟩
  | mov | random | aread =>
      obtain rfl := Except.ok.inj h
      exact ⟨by decide, (Option.some.inj hdestination).symm⟩
  | jmp | jz | jeq | jls | jgt | halt | aprint | dprint =>
      obtain rfl := Except.ok.inj h
      cases hdestination

/-- The two operations that print are the ones whose action has a text, and it is never empty. -/
theorem text_ne_empty_iff (h : action machine.memory mnemonic values = .ok act) :
    act.text?.getD "" ≠ "" ↔ mnemonic = .aprint ∨ mnemonic = .dprint := by
  constructor
  · intro htext
    cases act with
    | print text => exact isOf_of_action h
    | store | draw | read | jump | halt => exact absurd rfl htext
  · rintro (rfl | rfl) <;>
      · obtain rfl := Except.ok.inj h
        exact ne_empty_of_action h

/-- Where an action leads depends on whether its operation is a jump that is taken. -/
theorem target?_eq (h : action machine.memory mnemonic values = .ok act) :
    (mnemonic.Taken values → act.target? = some (values.getD 0 0)) ∧
      (¬ mnemonic.Taken values → act.target? = none) := by
  constructor
  · intro htaken
    have hjump : action machine.memory mnemonic values = .ok (.jump true (values.getD 0 0)) :=
      action_eq_jump_iff.mpr ⟨htaken, rfl⟩
    obtain rfl := Except.ok.inj (h.symm.trans hjump)
    rfl
  · intro hnot
    refine Option.eq_none_iff_forall_ne_some.mpr fun target htarget => hnot ?_
    have hjump : act = .jump true target := by
      cases act with
      | jump condition target' =>
          cases condition with
          | true => exact congrArg (Action.jump true) (Option.some.inj htarget)
          | false => cases htarget
      | store | draw | read | print | halt => cases htarget
    exact (action_eq_jump_iff.mp (hjump ▸ h)).1

/-! ## The frame of a step -/

/-- What the attempt to read after `n` others finds: a character or a failure, or nothing at the end
of the input. -/
def reading (machine : Machine) (n : Nat) : Option InputItem := machine.input[n]?

/-- What a step that succeeds leaves of a machine that executes an opcode with operands. -/
structure Frame (machine : Machine) (op : Opcode) (operands : List UInt64) (next : Machine) :
    Prop where
  ticks : next.ticks = machine.ticks + 1
  lastIp : next.lastIp = some machine.ip
  config : next.config = machine.config
  program : next.program = machine.program
  draws : next.draws = machine.draws
  shape : next.memory.size = machine.memory.size ∧ next.memory.mask = machine.memory.mask
  /-- A cell that is different is the one that the first operand word of a storing operation
  names. -/
  cells : ∀ i, next.memory.cells[i]? ≠ machine.memory.cells[i]? →
    op.mnemonic ∈ Mnemonic.storing ∧
      ∃ address, machine.program.word? (machine.ip + 1) = some address ∧ i = address.toNat
  /-- The output and the text that is still to be told grow by the same text, which is empty for all
  operations but the two that print. -/
  printed : ∃ text, next.output = machine.output ++ text ∧ next.pending = machine.pending ++ text ∧
    (text ≠ "" ↔ op.mnemonic = .aprint ∨ op.mnemonic = .dprint)
  stopped : op.mnemonic = .halt → next.running = false
  running : op.mnemonic ≠ .halt → next.running = machine.running
  /-- One attempt to read has been made by the operation that reads, and none by any other. -/
  input : ∀ n, next.reading n = machine.reading (if op.mnemonic = .aread then n + 1 else n)
  drawn : op.mnemonic ≠ .random → next.drawn = machine.drawn
  jumped : op.mnemonic.Taken operands → next.ip = (operands.getD 0 0).toNat
  passed : ¬ op.mnemonic.Taken operands → next.ip = machine.ip + 1 + op.mnemonic.arity

/-- **The frame of a successful step.** In whatever state a step succeeds, the instruction at the
instruction pointer decodes and its operands can be read, and what is different after the step is
what this instruction may touch. -/
theorem step_frame {machine next : Machine} (h : machine.step = (.ok (), next)) :
    ∃ op operands, machine.opcode = .ok op ∧ machine.operands op = .ok operands ∧
      machine.Frame op operands next := by
  obtain ⟨mnemonic, act, hinstruction, hperforms⟩ := exists_performs_of_step h
  obtain ⟨op, operands, hop, hoperands, haction, rfl⟩ := instruction_eq_ok_iff.mp hinstruction
  have hof : act.IsOf op.mnemonic := isOf_of_action haction
  obtain ⟨hticks, hlastIp, hconfig, hprogram, hdraws⟩ := hperforms.keeps
  obtain ⟨houtput, hpending⟩ := hperforms.texts
  obtain ⟨htaken, hnot⟩ := target?_eq haction
  refine ⟨op, operands, hop, hoperands, hticks, hlastIp, hconfig, hprogram, hdraws,
    hperforms.shape, fun i hi => ?_, ⟨_, houtput, hpending, text_ne_empty_iff haction⟩,
    fun hhalt => ?_, fun hother => ?_, fun n => ?_, fun hother => ?_, fun hjump => ?_,
    fun hpass => ?_⟩
  · -- the destination of the action is the operand, and the operand is a word of the program
    obtain ⟨address, hdestination, rfl⟩ := hperforms.exists_destination hi
    obtain ⟨hstores, rfl⟩ := storing_of_destination? haction hdestination
    have hparam := param_of_storing (mem_table_of_opcode hop) hstores
    exact ⟨hstores, _, word?_of_dest hoperands hparam, rfl⟩
  · rw [hhalt] at haction
    exact hperforms.running_of_halt (Except.ok.inj haction).symm
  · refine hperforms.running_of_ne ?_
    rintro rfl
    exact hother hof
  · by_cases hread : op.mnemonic = .aread
    · -- also at the end of the input, where nothing is left to be taken
      rw [hread] at haction
      rw [if_pos hread, reading, hperforms.input_of_read (Except.ok.inj haction).symm,
        List.getElem?_tail]
      rfl
    · rw [if_neg hread, reading, hperforms.input_of_ne]
      · rfl
      · rintro address rfl
        exact hread hof
  · refine hperforms.drawn_of_ne ?_
    rintro address rfl
    exact hother hof
  · rw [hperforms.ip_eq, htaken hjump]
    rfl
  · rw [hperforms.ip_eq, hnot hpass]
    rfl

end

namespace Frame.Sample

/-- `AREAD [2]`, `HALT` on a machine to which `A` and `B` were typed. -/
def machine : Machine :=
  (create .default [.ok 'A', .ok 'B'] default).load { words := #[36, 2, 255] }

end Frame.Sample

open Frame.Sample in
theorem step_frame_sample :
    ∃ next op operands, machine.step = (.ok (), next) ∧ machine.Frame op operands next ∧
      op.mnemonic = .aread ∧ next.reading 0 = some (.ok 'B') ∧ next.ip = 2 ∧ next.running = true ∧
      next.memory.cells[2]? = some 65 ∧
      ∀ i ≠ 2, next.memory.cells[i]? = machine.memory.cells[i]? := by
  have hok : machine.step.1 = .ok () := by decide +kernel
  have hread : machine.step.2.memory.cells[2]? = some 65 := by decide +kernel
  rcases hstep : machine.step with ⟨outcome, next⟩
  rw [hstep] at hok hread
  obtain rfl : outcome = .ok () := hok
  have haread : machine.opcode = .ok ⟨0x24, .aread, [.address]⟩ := by decide +kernel
  obtain ⟨op, operands, hop, -, hframe⟩ := step_frame hstep
  obtain rfl := Except.ok.inj (haread.symm.trans hop)
  have hleft : machine.reading 1 = some (.ok 'B') := by decide +kernel
  have hbehind : machine.ip + 1 + Mnemonic.aread.arity = 2 := by decide +kernel
  have hruns : machine.running = true := by decide +kernel
  refine ⟨next, _, _, rfl, hframe, rfl, (hframe.input 0).trans hleft,
    (hframe.passed id).trans hbehind, (hframe.running (by decide)).trans hruns, hread,
    fun i hi => ?_⟩
  by_contra hne
  obtain ⟨-, address, haddress, rfl⟩ := hframe.cells i hne
  have hword : machine.program.word? (machine.ip + 1) = some 2 := by decide +kernel
  obtain rfl := Option.some.inj (hword.symm.trans haddress)
  exact hi rfl

end Machine

end CellAsm
