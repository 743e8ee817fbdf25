import CellAsm.Proofs.Machine.Execution
import CellAsm.Proofs.Program.SingleLine

set_option autoImplicit false

/-! # Operations on the shared cells

The routines of the library work on the four cells that calls share and on numbers, with moves,
additions, subtractions and jumps. An `Op` is such an instruction, and `Op.next` says what it does
to the values of the cells, in numbers and without a machine. One step of the machine does the
same (`Machine.exists_step_op`), so a stretch of code is followed on the values alone: `Leads` is
its contract, and contracts are put together by `Leads.trans`.
-/

namespace CellAsm

/-! ## Values of the shared cells -/

/-- A cell that calls share. -/
inductive SharedCell where
  | result
  | jumpBack
  | first
  | second
deriving DecidableEq

namespace SharedCell

/-- The address of the cell. -/
def address : SharedCell → UInt64
  | result => 0
  | jumpBack => 1
  | first => 2
  | second => 3

theorem address_injective {cell other : SharedCell} (h : cell.address = other.address) :
    cell = other := by
  revert h
  cases cell <;> cases other <;> decide

end SharedCell

/-- The numbers that the shared cells hold. -/
structure Values where
  result : Nat
  jumpBack : Nat
  first : Nat
  second : Nat

namespace Values

/-- The number in a cell. -/
def get (values : Values) : SharedCell → Nat
  | .result => values.result
  | .jumpBack => values.jumpBack
  | .first => values.first
  | .second => values.second

/-- The numbers after one cell has changed. -/
def set (values : Values) (n : Nat) : SharedCell → Values
  | .result => { values with result := n }
  | .jumpBack => { values with jumpBack := n }
  | .first => { values with first := n }
  | .second => { values with second := n }

theorem get_set_self (values : Values) (n : Nat) (cell : SharedCell) :
    (values.set n cell).get cell = n := by
  cases cell <;> rfl

theorem get_set_of_ne (values : Values) (n : Nat) {cell other : SharedCell} (h : other ≠ cell) :
    (values.set n cell).get other = values.get other := by
  cases cell <;> cases other <;> first | rfl | exact absurd rfl h

end Values

/-! ## Operations -/

/-- Where an operation takes a number from. -/
inductive Source where
  | shared (cell : SharedCell)
  | number (word : UInt64)

namespace Source

/-- How the source is written. -/
def kind : Source → Kind
  | shared _ => .address
  | number _ => .literal

/-- The word by which the source is written. -/
def word : Source → UInt64
  | shared cell => cell.address
  | number word => word

/-- The number that the source gives. -/
def eval (values : Values) : Source → Nat
  | shared cell => values.get cell
  | number word => word.toNat

end Source

/-- What an operation computes for a cell. -/
inductive Calculation where
  | move
  | add
  | sub

namespace Calculation

/-- The opcode for a source of the given kind. -/
def opcode (kind : Kind) : Calculation → Opcode
  | move => moveOpcode kind
  | add => ⟨match kind with | .address => 0x0A | .literal => 0x0B, .add, [.address, kind]⟩
  | sub => ⟨match kind with | .address => 0x0C | .literal => 0x0D, .sub, [.address, kind]⟩

/-- The number that is computed from the old number in the cell and the source. Of this number
the bits are stored that fit the cell. -/
def result (old n : Nat) : Calculation → Nat
  | move => n
  | add => old + n
  | sub => 2 ^ 64 - n + old

theorem arity_opcode (calculation : Calculation) (kind : Kind) :
    (calculation.opcode kind).mnemonic.arity = 2 := by
  cases calculation <;> cases kind <;> rfl

end Calculation

/-- An instruction whose operands are shared cells and numbers. -/
inductive Op where
  /-- Store what is computed from the cell and the source. -/
  | calculate (calculation : Calculation) (cell : SharedCell) (source : Source)
  /-- Go to the target if the source is 0. -/
  | jumpIfZero (target : UInt64) (source : Source)
  /-- Go to the target if the cell is less than the source. -/
  | jumpIfLess (target : UInt64) (cell : SharedCell) (source : Source)
  /-- Go to where the source says. -/
  | jump (source : Source)

namespace Op

/-- The opcode of the operation. -/
def opcode : Op → Opcode
  | calculate calculation _ source => calculation.opcode source.kind
  | jumpIfZero _ source =>
      ⟨match source.kind with | .address => 0x12 | .literal => 0x13, .jz, [.literal, source.kind]⟩
  | jumpIfLess _ _ source =>
      ⟨match source.kind with | .address => 0x19 | .literal => 0x1B, .jls,
        [.literal, .address, source.kind]⟩
  | jump source => jumpOpcode source.kind

/-- The operand words of the operation. -/
def operands : Op → List UInt64
  | calculate _ cell source => [cell.address, source.word]
  | jumpIfZero target source => [target, source.word]
  | jumpIfLess target cell source => [target, cell.address, source.word]
  | jump source => [source.word]

/-- The operation as an instruction of the program. -/
def instruction (op : Op) : Instruction := ⟨op.opcode, op.operands⟩

/-- **What an operation does** at the address `ip`: where it goes on, and the numbers after it,
for cells of `bits` bits. -/
def next (bits ip : Nat) (values : Values) : Op → Nat × Values
  | calculate calculation cell source =>
      (ip + 3,
        values.set (calculation.result (values.get cell) (source.eval values) % 2 ^ bits) cell)
  | jumpIfZero target source =>
      (if source.eval values = 0 then target.toNat else ip + 3, values)
  | jumpIfLess target cell source =>
      (if values.get cell < source.eval values then target.toNat else ip + 4, values)
  | jump source => (source.eval values, values)

/-- The cells that the operation stores to. -/
def stored : Op → List SharedCell
  | calculate _ cell _ => [cell]
  | jumpIfZero _ _ | jumpIfLess _ _ _ | jump _ => []

theorem isCoded_instruction (op : Op) : op.instruction.IsCoded := by
  -- whether a source is a number or a cell decides the opcode, and nothing else of it does
  suffices h : op.opcode ∈ Opcode.table ∧
      op.operands.length = op.opcode.mnemonic.arity from ⟨h.1, h.2⟩
  cases op with
  | calculate calculation cell source =>
      show calculation.opcode source.kind ∈ Opcode.table ∧
        2 = (calculation.opcode source.kind).mnemonic.arity
      generalize source.kind = kind
      cases calculation <;> cases kind <;> decide
  | jumpIfZero target source =>
      refine ⟨?_, rfl⟩
      rw [opcode]
      generalize source.kind = kind
      cases kind <;> decide
  | jumpIfLess target cell source =>
      refine ⟨?_, rfl⟩
      rw [opcode]
      generalize source.kind = kind
      cases kind <;> decide
  | jump source =>
      show jumpOpcode source.kind ∈ Opcode.table ∧ 1 = (jumpOpcode source.kind).mnemonic.arity
      generalize source.kind = kind
      cases kind <;> decide

theorem uses_calculate (calculation : Calculation) (cell : SharedCell) (source : Source) :
    (calculate calculation cell source).instruction.uses
      = [((.address, .dest), cell.address), ((source.kind, .value), source.word)] := by
  cases calculation <;> cases source <;> rfl

theorem uses_jump (source : Source) :
    (jump source).instruction.uses = [((source.kind, .value), source.word)] := by
  cases source <;> rfl

end Op

/-! ## One step -/

theorem Memory.Holds.lt_size {memory : Memory} {cell : UInt64} {n : Nat} (h : memory.Holds cell n) :
    cell.toNat < memory.size := by
  obtain ⟨word, hread, -⟩ := h
  unfold Memory.read at hread
  split at hread
  · next value hvalue => exact (Array.getElem?_eq_some_iff.mp hvalue).1
  · cases hread

namespace Machine

variable {config : Config} {machine : Machine} {mnemonic : Mnemonic} {ip : Nat}
  {values : Values}

/-- The machine is at an address, and the shared cells hold the values. -/
structure Shows (config : Config) (ip : Nat) (values : Values) (machine : Machine) : Prop where
  fits : machine.memory.Fits config
  ip : machine.ip = ip
  holds : ∀ cell, machine.memory.Holds cell.address (values.get cell)

namespace Shows

/-- What the machine takes for a source. -/
theorem exists_operandValue (h : Shows config ip values machine) (source : Source) :
    ∃ word, operandValue machine.memory ((source.kind, .value), source.word) = .ok word ∧
      word.toNat = source.eval values := by
  cases source with
  | shared cell => exact h.holds cell
  | number word => exact ⟨word, rfl, rfl⟩

/-- A cell that is stored to shows its new number, the others their old ones. -/
theorem set (h : Shows config ip values machine) {cell : SharedCell} {n next : Nat}
    {last : Machine} (hip : last.ip = next) (hkeeps : machine.Keeps last (· = cell.address))
    (hfits : last.memory.Fits config) (hholds : last.memory.Holds cell.address n) :
    Shows config next (values.set n cell) last := by
  refine ⟨hfits, hip, fun other => ?_⟩
  by_cases heq : other = cell
  · rw [heq, Values.get_set_self]
    exact hholds
  · rw [Values.get_set_of_ne _ _ heq]
    exact hkeeps.holds (fun hcell => heq (SharedCell.address_injective hcell)) (h.holds other)

/-- A jump that is taken or not leaves the numbers as they are. -/
theorem exists_step_jump (h : Shows config ip values machine) {condition : Bool} {target : UInt64}
    (hinstruction : machine.instruction = .ok (mnemonic, .jump condition target)) {next : Nat}
    (hnext : next = if condition then target.toNat else ip + 1 + mnemonic.arity)
    (hself : next ≠ ip) :
    ∃ last, machine.step = (.ok (), last) ∧ Shows config next values last ∧
      machine.Keeps last (fun _ => False) := by
  have hstep : machine.step = machine.proceed next := by
    rw [step_of_instruction hinstruction, h.ip]
    cases condition with
    | false => exact congrArg machine.proceed hnext.symm
    | true =>
        obtain rfl : next = target.toNat := hnext
        have hother : target.toNat ≠ machine.ip := by rwa [h.ip]
        exact (Performs.jump hother).perform_eq mnemonic
  exact ⟨_, hstep, ⟨h.fits, rfl, h.holds⟩, ⟨rfl, rfl, rfl, fun _ _ => rfl⟩⟩

end Shows

/-- A calculation asks for its result to be stored, up to what a word cannot hold. -/
theorem exists_action_calculation {memory : Memory} {cell old : UInt64} (word : UInt64)
    (kind : Kind) (calculation : Calculation) (hread : memory.read cell = .ok old) {bits : Nat}
    (hbits : bits ≤ 64) :
    ∃ stored, action memory (calculation.opcode kind).mnemonic [cell, word]
        = .ok (.store cell stored) ∧
      stored.toNat % 2 ^ bits = calculation.result old.toNat word.toNat % 2 ^ bits := by
  have hdvd : 2 ^ bits ∣ 2 ^ 64 := pow_dvd_pow 2 hbits
  have hcombine : ∀ f, combine memory cell f = .ok (.store cell (f old)) := by
    intro f
    rw [combine, hread]
    rfl
  cases calculation with
  | move => exact ⟨word, by cases kind <;> rfl, rfl⟩
  | add =>
      refine ⟨old + word, hcombine (· + word), ?_⟩
      rw [UInt64.toNat_add, Nat.mod_mod_of_dvd _ hdvd]
      rfl
  | sub =>
      refine ⟨old - word, hcombine (· - word), ?_⟩
      rw [UInt64.toNat_sub, Nat.mod_mod_of_dvd _ hdvd]
      rfl

/-- **One step of the machine does what the operation at the instruction pointer does**, unless
the operation goes on at its own address. -/
theorem exists_step_op {op : Op} (h : Shows config ip values machine)
    (hcode : machine.program.HasAt ip op.instruction.words)
    (hself : (op.next config.wordSize ip values).1 ≠ ip) :
    ∃ next, machine.step = (.ok (), next) ∧
      Shows config (op.next config.wordSize ip values).1
        (op.next config.wordSize ip values).2 next ∧
      machine.Keeps next (· ∈ op.stored.map SharedCell.address) := by
  rw [← h.ip] at hcode
  -- the operands are read from the cells; the action on them decides the step
  cases op with
  | calculate calculation cell source =>
      obtain ⟨word, hvalue, hword⟩ := h.exists_operandValue source
      obtain ⟨old, hread, hold⟩ := h.holds cell
      obtain ⟨stored, haction, hstored⟩ := exists_action_calculation word source.kind calculation
        hread config.wordSize_le
      have hwords : (Op.calculate calculation cell source).instruction.uses.mapM
          (operandValue machine.memory) = .ok [cell.address, word] := by
        rw [Op.uses_calculate]
        exact Success.mapM_iff.mpr (.cons rfl (.cons hvalue .nil))
      obtain ⟨next, hstep, hip, hkeeps, hfits, hholds⟩ := exists_step_store h.fits
        (instruction_of_operands (Op.isCoded_instruction _) hcode hwords haction)
        (h.holds cell).lt_size
      rw [hstored, hold, hword] at hholds
      have hnext : next.ip = ip + 1 + (calculation.opcode source.kind).mnemonic.arity := h.ip ▸ hip
      rw [Calculation.arity_opcode] at hnext
      exact ⟨next, hstep, h.set hnext hkeeps hfits hholds, hkeeps.mono (by simp [Op.stored])⟩
  | jumpIfZero target source =>
      obtain ⟨word, hvalue, hword⟩ := h.exists_operandValue source
      have hwords : (Op.jumpIfZero target source).instruction.uses.mapM
          (operandValue machine.memory) = .ok [target, word] :=
        Success.mapM_iff.mpr (.cons rfl (.cons hvalue .nil))
      have hinstruction := instruction_of_operands (Op.isCoded_instruction _) hcode hwords rfl
      obtain ⟨last, hstep, hshows, hkeeps⟩ := h.exists_step_jump hinstruction (by
        simp only [Op.next, ← hword, beq_iff_eq, ← UInt64.toNat_inj]
        rfl) hself
      exact ⟨last, hstep, hshows, hkeeps.mono (by simp)⟩
  | jumpIfLess target cell source =>
      obtain ⟨word, hvalue, hword⟩ := h.exists_operandValue source
      obtain ⟨old, hread, hold⟩ := h.holds cell
      have hwords : (Op.jumpIfLess target cell source).instruction.uses.mapM
          (operandValue machine.memory) = .ok [target, old, word] :=
        Success.mapM_iff.mpr (.cons rfl (.cons hread (.cons hvalue .nil)))
      have hinstruction := instruction_of_operands (Op.isCoded_instruction _) hcode hwords rfl
      obtain ⟨last, hstep, hshows, hkeeps⟩ := h.exists_step_jump hinstruction (by
        simp only [Op.next, ← hword, ← hold, decide_eq_true_eq, ← UInt64.lt_iff_toNat_lt]
        rfl) hself
      exact ⟨last, hstep, hshows, hkeeps.mono (by simp)⟩
  | jump source =>
      obtain ⟨word, hvalue, hword⟩ := h.exists_operandValue source
      have hwords : (Op.jump source).instruction.uses.mapM (operandValue machine.memory)
          = .ok [word] := by
        rw [Op.uses_jump]
        exact Success.mapM_iff.mpr (.cons hvalue .nil)
      have haction : action machine.memory (Op.jump source).opcode.mnemonic [word]
          = .ok (.jump true word) := by
        cases source <;> rfl
      obtain ⟨last, hstep, hshows, hkeeps⟩ := h.exists_step_jump
        (instruction_of_operands (Op.isCoded_instruction _) hcode hwords haction) hword.symm hself
      exact ⟨last, hstep, hshows, hkeeps.mono (by simp)⟩

end Machine

/-! ## Stretches of code -/

/-- A cell that routines may change: any shared cell but the one for the return address. -/
def IsWorkCell (cell : UInt64) : Prop := ∃ shared ≠ SharedCell.jumpBack, cell = shared.address

/-- From one address with one state of the shared cells a machine gets to another address with
another state, and changes nothing but the work cells. -/
def Leads (config : Config) (program : Program) (ip : Nat) (values : Values) (ip' : Nat)
    (values' : Values) : Prop :=
  ∀ machine : Machine, machine.program = program → machine.Shows config ip values →
    ∃ n last, Machine.Steps (fun _ => True) n machine last ∧ last.Shows config ip' values' ∧
      machine.Keeps last IsWorkCell

namespace Leads

variable {config : Config} {program : Program} {ip ip' ip'' : Nat}
  {values values' values'' : Values}

theorem trans (h : Leads config program ip values ip' values')
    (h' : Leads config program ip' values' ip'' values'') :
    Leads config program ip values ip'' values'' := by
  intro machine hprogram hshows
  obtain ⟨n, middle, hsteps, hmiddle, hkeeps⟩ := h machine hprogram hshows
  obtain ⟨m, last, hsteps', hlast, hkeeps'⟩ := h' middle (hkeeps.program.trans hprogram) hmiddle
  exact ⟨n + m, last, hsteps.trans hsteps', hlast,
    (hkeeps.trans hkeeps').mono fun _ hchanged => hchanged.elim id id⟩

/-- **An operation in the program is a stretch of its own**, if it stores to work cells only and
goes on elsewhere. -/
theorem op {op : Op} (hcode : program.HasAt ip op.instruction.words)
    (hstored : .jumpBack ∉ op.stored) (hnext : op.next config.wordSize ip values = (ip', values'))
    (hself : ip' ≠ ip) : Leads config program ip values ip' values' := by
  rintro machine rfl hshows
  obtain ⟨last, hstep, hlast, hkeeps⟩ :=
    Machine.exists_step_op hshows hcode (by rwa [hnext])
  rw [hnext] at hlast
  refine ⟨1, last, .single trivial hstep, hlast, hkeeps.mono fun cell hcell => ?_⟩
  obtain ⟨shared, hshared, rfl⟩ := List.mem_map.mp hcell
  exact ⟨shared, fun heq => hstored (heq ▸ hshared), rfl⟩

end Leads

end CellAsm
