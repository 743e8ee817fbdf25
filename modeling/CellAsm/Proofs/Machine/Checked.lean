import CellAsm.Proofs.Machine.FailedStep
import CellAsm.Proofs.Machine.Reload

set_option autoImplicit false

/-! # Arithmetic and bounds

The machine adds to addresses and looks into arrays without watching out for overflow and bounds,
and a program can send it to any address. The checked machine does the same work and watches out
(`stepChecked`): an address has to fit a word, an operand has to have a place among three, and a
cell that has passed the test of the memory has to be one of the cells that the parameters ask for.
Otherwise it is trapped. It never is (`stepChecked_eq`): the first word is fetched before anything
is added to its address, so the address is inside the program; no operation has more than three
operands; and the memory keeps its size.
-/

namespace CellAsm.Machine

/-! ## The checked machine -/

/-- What can go wrong with an address, an operand or a cell. -/
inductive Trap where
  /-- A sum does not fit a word. -/
  | overflow (sum : Nat)
  /-- There is no such place for an operand. -/
  | place (index : Nat)
  /-- There is no such cell. -/
  | cell (index : Nat)
deriving DecidableEq

/-- A computation that ends with a value or a fault, or is trapped. -/
abbrev Checked (α : Type) : Type := ExceptT Fault.Cause (Except Trap) α

/-- The places for the operands of an instruction. -/
abbrev Places : Type := Vector UInt64 3

namespace Checked

variable {α β : Type}

/-- A computation that is not trapped. -/
def lift (result : Except Fault.Cause α) : Checked α := ExceptT.mk (.ok result)

/-- Is trapped unless the condition holds. -/
def demand (condition : Prop) [Decidable condition] (trap : Trap) : Checked Unit :=
  if condition then pure () else ExceptT.mk (.error trap)

/-- A sum as an address. -/
def address (sum : Nat) : Checked Nat := do
  demand (sum < 2 ^ 64) (.overflow sum)
  return sum

/-- Puts an operand into a place. -/
def place (places : Places) (index : Nat) (value : UInt64) : Checked Places :=
  if h : index < 3 then pure (places.set index value) else ExceptT.mk (.error (.place index))

end Checked

open Checked

/-- A cell that the memory takes for one of its own is one that the parameters ask for. -/
def demandCell (machine : Machine) (address : UInt64) : Checked Unit :=
  demand (address.toNat < machine.memory.size → address.toNat < machine.config.memorySize)
    (.cell address.toNat)

/-- The value of a cell. -/
def readChecked (machine : Machine) (address : UInt64) : Checked UInt64 := do
  machine.demandCell address
  lift (machine.memory.read address)

/-- The value of an operand word. -/
def valueChecked (machine : Machine) (isRead : Bool) (word : UInt64) : Checked UInt64 :=
  if isRead then machine.readChecked word else pure word

/-- Puts the operands from the one with number `index` on into their places. -/
def placeOperands (machine : Machine) (index : Nat) (places : Places) :
    List (Kind × Param) → Checked Places
  | [] => pure places
  | (kind, param) :: uses => do
    let address ← address (machine.ip + 1 + index)
    let word ← lift (machine.fetch address)
    let value ← machine.valueChecked (kind.isRead param) word
    let places ← place places index value
    machine.placeOperands (index + 1) places uses

/-- What a stored result is computed from. -/
def combineChecked (machine : Machine) (address : UInt64) (f : UInt64 → UInt64) :
    Checked Action := do
  let old ← machine.readChecked address
  return .store address (f old)

/-- The action of an operation. Only the operations that combine two values look into a cell. -/
def actionChecked (machine : Machine) (mnemonic : Mnemonic) (places : Places) : Checked Action :=
  let a := places[0]
  let b := places[1]
  match mnemonic with
  | .and => machine.combineChecked a (· &&& b)
  | .or => machine.combineChecked a (· ||| b)
  | .xor => machine.combineChecked a (· ^^^ b)
  | .not => machine.combineChecked a (~~~ ·)
  | .add => machine.combineChecked a (· + b)
  | .sub => machine.combineChecked a (· - b)
  | _ => lift (action machine.memory mnemonic places.toList)

/-- The instruction at the instruction pointer. All its operands have to have places. -/
def instructionChecked (machine : Machine) : Checked (Mnemonic × Action) := do
  let opcode ← lift machine.opcode
  let places ← machine.placeOperands 0 (.replicate 3 0) (opcode.kinds.zip opcode.mnemonic.params)
  demand (opcode.mnemonic.arity ≤ 3) (.place opcode.mnemonic.arity)
  let action ← machine.actionChecked opcode.mnemonic places
  return (opcode.mnemonic, action)

/-- Performs an action. The address behind the instruction is added up for a jump as well, which
does not go on there when it is taken. -/
def performChecked (machine : Machine) (mnemonic : Mnemonic) (action : Action) :
    Checked (Except Fault Unit × Machine) := do
  action.destination?.forM machine.demandCell
  let next ← address (machine.ip + 1 + mnemonic.arity)
  return machine.perform mnemonic next action

/-- Executes the instruction at the instruction pointer, unless it is trapped. -/
def stepChecked (machine : Machine) : Except Trap (Except Fault Unit × Machine) := do
  let attempt ← ExceptT.run do
    let (mnemonic, action) ← machine.instructionChecked
    machine.performChecked mnemonic action
  match attempt with
  | .ok outcome => return outcome
  | .error cause => return machine.fail cause

/-! ## Computations that are not trapped -/

namespace Checked

variable {α β : Type} {result : Except Fault.Cause α}

theorem demand_of {condition : Prop} [Decidable condition] (h : condition) (trap : Trap) :
    demand condition trap = pure () := if_pos h

/-- A computation goes on without a trap where its first part ends with a value. -/
theorem lift_bind {f : α → Checked β} {g : α → Except Fault.Cause β}
    (h : ∀ a, result = .ok a → f a = lift (g a)) : lift result >>= f = lift (result >>= g) := by
  cases result with
  | error cause => rfl
  | ok a => exact h a rfl

/-- A value that is computed from the first part does not trap it. -/
theorem lift_bind_pure (f : α → β) :
    lift (result >>= fun a => pure (f a)) = lift result >>= fun a => pure (f a) := by
  cases result <;> rfl

theorem address_eq {sum : Nat} (h : sum < 2 ^ 64) : address sum = pure sum := by
  rw [address, demand_of h, pure_bind]

end Checked

/-! ## Operands and their places -/

/-- The places with these operands in them, and 0 in the others. -/
def placed (values : List UInt64) : Places :=
  #v[values.getD 0 0, values.getD 1 0, values.getD 2 0]

theorem place_placed {values : List UInt64} (h : values.length < 3) (value : UInt64) :
    place (placed values) values.length value = pure (placed (values ++ [value])) := by
  rw [place, dif_pos h]
  match values, h with
  | [], _ => rfl
  | [_], _ => rfl
  | [_, _], _ => rfl

/-- No operation has more operands than there are places. -/
theorem arity_le_three (mnemonic : Mnemonic) : mnemonic.arity ≤ 3 := by
  cases mnemonic <;> decide

section

variable {machine : Machine}

section

variable (hcells : machine.memory.size = machine.config.memorySize)
include hcells

theorem demandCell_eq (address : UInt64) : machine.demandCell address = pure () :=
  demand_of (fun hinside => hcells ▸ hinside) _

theorem readChecked_eq (address : UInt64) :
    machine.readChecked address = lift (machine.memory.read address) := by
  rw [readChecked, demandCell_eq hcells, pure_bind]

theorem valueChecked_eq (isRead : Bool) (word : UInt64) :
    machine.valueChecked isRead word =
      lift (if isRead then machine.memory.read word else .ok word) := by
  cases isRead with
  | true => exact readChecked_eq hcells word
  | false => rfl

/-- The operands are found at their addresses, and each of them has a place. -/
theorem placeOperands_eq (hip : machine.ip < 2 ^ 63) {values : List UInt64}
    {uses : List (Kind × Param)} (hroom : values.length + uses.length ≤ 3) :
    machine.placeOperands values.length (placed values) uses =
      lift (do
        let more ← machine.operandsAt (machine.ip + 1 + values.length) uses
        return placed (values ++ more)) := by
  -- the induction is on the operands without a place, and `values` are those that have one
  induction uses generalizing values with
  | nil =>
      rw [operandsAt, placeOperands]
      exact congrArg (fun more => lift (.ok (placed more))) (List.append_nil values).symm
  | cons use uses ih =>
      obtain ⟨kind, param⟩ := use
      rw [List.length_cons] at hroom
      rw [operandsAt_cons, placeOperands, address_eq (by omega), pure_bind]
      simp only [bind_assoc, pure_bind]
      refine lift_bind fun word _ => ?_
      rw [valueChecked_eq hcells]
      refine lift_bind fun value _ => ?_
      have hrest := @ih (values ++ [value]) (by simp; omega)
      rw [List.length_append, List.length_singleton] at hrest
      rw [place_placed (by omega), pure_bind, hrest]
      simp only [List.append_assoc, List.singleton_append, Nat.add_assoc]

/-- The operands of an instruction are the ones that are found without checks. -/
theorem placeOperands_start (hip : machine.ip < 2 ^ 63) (op : Opcode) :
    machine.placeOperands 0 (.replicate 3 0) (op.kinds.zip op.mnemonic.params) =
      lift (machine.operands op) >>= fun values => pure (placed values) := by
  have hroom : ([] : List UInt64).length + (op.kinds.zip op.mnemonic.params).length ≤ 3 := by
    rw [List.length_nil, Nat.zero_add, List.length_zip]
    exact Nat.le_trans (Nat.min_le_right _ _) (arity_le_three op.mnemonic)
  rw [← lift_bind_pure]
  exact placeOperands_eq hcells hip hroom

theorem combineChecked_eq (address : UInt64) (f : UInt64 → UInt64) :
    machine.combineChecked address f = lift (combine machine.memory address f) := by
  rw [combineChecked, readChecked_eq hcells, combine]
  cases machine.memory.read address <;> rfl

theorem actionChecked_eq (mnemonic : Mnemonic) (values : List UInt64) :
    machine.actionChecked mnemonic (placed values) =
      lift (action machine.memory mnemonic values) := by
  cases mnemonic with
  | and | or | xor | not | add | sub => exact combineChecked_eq hcells _ _
  | mov | random | jmp | jz | jeq | jls | jgt | halt | aprint | dprint | aread => rfl

/-- The instruction is the one that is found without checks. -/
theorem instructionChecked_eq (hsize : machine.program.size < 2 ^ 63) :
    machine.instructionChecked = lift machine.instruction := by
  refine lift_bind fun op hop => ?_
  -- the word at the instruction pointer was fetched, so nothing that is added to it is too large
  have hip : machine.ip < machine.program.size := ip_lt_size_of_opcode hop
  rw [placeOperands_start hcells (by omega) op, bind_assoc]
  refine lift_bind fun values _ => ?_
  rw [pure_bind, demand_of (arity_le_three op.mnemonic), pure_bind, actionChecked_eq hcells]
  exact lift_bind fun action _ => rfl

/-- An action is performed without checks, where nothing is too large. -/
theorem performChecked_eq (mnemonic : Mnemonic) (action : Action)
    (hbehind : machine.ip + 1 + mnemonic.arity < 2 ^ 64) :
    machine.performChecked mnemonic action =
      pure (machine.perform mnemonic (machine.ip + 1 + mnemonic.arity) action) := by
  have hcell : action.destination?.forM machine.demandCell = pure () := by
    cases action.destination? with
    | none => rfl
    | some address => exact demandCell_eq hcells address
  rw [performChecked, hcell, pure_bind, address_eq hbehind, pure_bind]

/-- **The checked machine is never trapped**, and does what the machine does. -/
theorem stepChecked_eq (hsize : machine.program.size < 2 ^ 63) :
    machine.stepChecked = .ok machine.step := by
  rw [stepChecked, instructionChecked_eq hcells hsize]
  cases hinstruction : machine.instruction with
  | error cause =>
      rw [step_of_instruction_error hinstruction]
      rfl
  | ok found =>
      obtain ⟨mnemonic, action⟩ := found
      have hip : machine.ip < machine.program.size := ip_lt_size_of_instruction hinstruction
      have harity := arity_le_three mnemonic
      rw [step_of_instruction hinstruction]
      show (ExceptT.run (machine.performChecked mnemonic action) >>= _) = _
      rw [performChecked_eq hcells mnemonic action (by omega)]
      rfl

end

/-! ## The instruction pointer -/

/-- The instruction pointer fits a word, as long as the program is not too long. -/
def FitsWord (machine : Machine) : Prop := machine.program.size < 2 ^ 63 → machine.ip < 2 ^ 64

/-- A step goes on behind an instruction that is inside the program, or where a word leads to. -/
theorem FitsWord.step (h : machine.FitsWord) : machine.step.2.FitsWord := by
  intro hsize
  rw [(step_changes machine).program] at hsize
  have hends := machine.ends_step
  generalize machine.step = outcome at hends ⊢
  cases hends with
  | undecoded => exact h hsize
  | refused _ hrefuses =>
      rw [hrefuses.same]
      exact h hsize
  | performed hinstruction hperforms =>
      rw [hperforms.ip_eq]
      cases Action.target? _ with
      | none =>
          have hip := ip_lt_size_of_instruction hinstruction
          have harity := arity_le_three ‹Mnemonic›
          show machine.ip + 1 + _ < 2 ^ 64
          omega
      | some target => exact target.toNat_lt

/-- **Whatever is asked of a machine, its instruction pointer fits a word.** -/
theorem Reachable.fitsWord {config : Config} (h : Reachable config machine) :
    machine.FitsWord := by
  induction h with
  | create input draws => exact fun _ => Nat.two_pow_pos 64
  | withInput _ input ih => exact ih
  | withDraws _ draws ih => exact ih
  | after _ hafter ih =>
      refine (passes_after hafter).preserves (fun _ _ _ => ?_) (fun _ => .step) (fun _ => id) ih
      exact fun _ => Nat.two_pow_pos 64

/-! ## The faults of a step -/

/-- The codes of the faults that a step can end with. -/
def faultCodes : List Fault.Code :=
  [.missingHalt, .unknownOpcode, .invalidAddress, .infiniteLoop, .ioError]

theorem Action.faults_subset (act : Action) : act.faults ⊆ faultCodes := by
  cases act with
  | jump condition target => cases condition <;> simp [Action.faults, faultCodes]
  | store | draw | read | print | halt => simp [Action.faults, faultCodes]

/-- Only a read can fail for the input. -/
theorem Action.eq_read_of_ioError {act : Action} (h : .ioError ∈ act.faults) :
    ∃ address, act = .read address := by
  cases act with
  | read address => exact ⟨address, rfl⟩
  | jump condition target => cases condition <;> simp [Action.faults] at h
  | store | draw | print | halt => simp [Action.faults] at h

theorem code_mem_faultCodes {fault : Fault} (h : machine.step.1 = .error fault) :
    fault.code ∈ faultCodes ∧ (fault.code = .ioError → machine.IsAt .aread) := by
  have hends := machine.ends_step
  generalize machine.step = outcome at hends h
  cases hends with
  | undecoded hinstruction =>
      obtain rfl := Except.error.inj h
      rcases code_of_undecoded hinstruction with hcause | hcause | hcause <;>
        simp [Fault.code, hcause, faultCodes]
  | @refused mnemonic act cause _ hinstruction hrefuses =>
      obtain rfl := Except.error.inj h
      have hcode := hrefuses.code_mem_faults
      refine ⟨act.faults_subset hcode, fun hio => ?_⟩
      rw [show cause.code = .ioError from hio] at hcode
      obtain ⟨address, rfl⟩ := Action.eq_read_of_ioError hcode
      obtain rfl : mnemonic = .aread := isOf_of_instruction hinstruction
      exact isAt_of_instruction hinstruction
  | performed => cases h

end

/-- **No step overflows or leaves the bounds of an array.** Whatever has become of a machine, with
any program of less than 2^63 words: its instruction pointer fits a word before and after the next
step, and in the step every address that is added up fits a word too, every operand has one of three
places, and every cell that is read or written is one of the cells that the parameters ask for. The
step succeeds, or it has one of five kinds of faults, and it fails for the input only if the
instruction is one that reads. -/
theorem step_never_trapped {config : Config} {machine : Machine} (h : Reachable config machine)
    (hsize : machine.program.size < 2 ^ 63) :
    machine.stepChecked = .ok machine.step ∧ machine.config = config ∧
      machine.memory.size = config.memorySize ∧ machine.ip < 2 ^ 64 ∧ machine.step.2.ip < 2 ^ 64 ∧
      ∀ fault, machine.step.1 = .error fault →
        fault.code ∈ faultCodes ∧ (fault.code = .ioError → machine.IsAt .aread) := by
  obtain ⟨past, hpast⟩ := h.exists_recorded
  have hconfig : machine.config = config := hpast.config_eq
  have hcells : machine.memory.size = machine.config.memorySize := by
    rw [hconfig]
    exact hpast.fits.size
  have hnext : machine.step.2.program.size < 2 ^ 63 := by
    rwa [(step_changes machine).program]
  exact ⟨stepChecked_eq hcells hsize, hconfig, hpast.fits.size, h.fitsWord hsize,
    h.step.fitsWord hnext, fun fault => code_mem_faultCodes⟩

namespace Checked.Sample

/-- `MOV [0] 18446744073709551615` and `JMP [0]`: it jumps to the largest address. -/
def jumper : Program where
  words := #[8, 0, 18446744073709551615, 14, 0]

def parameters : Config := (Config.default.withWordSize 64).withMemorySize 1

/-- The machine after the jump. -/
def machine : Machine := ((create parameters [] default).load jumper).step.2.step.2

theorem reachable_machine : Reachable parameters machine :=
  ((Reachable.create _ _).load jumper).step.step

end Checked.Sample

open Checked.Sample in
theorem step_never_trapped_sample :
    Reachable parameters machine ∧ machine.ip = 2 ^ 64 - 1 ∧
      machine.step.1 = .error ⟨.missingHalt (2 ^ 64 - 1), none⟩ ∧
      machine.stepChecked = .ok machine.step := by
  have hsize : machine.program.size < 2 ^ 63 := by decide +kernel
  obtain ⟨hchecked, -⟩ := step_never_trapped reachable_machine hsize
  refine ⟨reachable_machine, ?_, ?_, hchecked⟩
  · decide +kernel
  · decide +kernel

open Checked.Sample in
/-- Without the invariant it can be trapped: here the memory has more cells than it should have. -/
example : stepChecked { (create parameters [] default).load jumper with
    config := parameters.withMemorySize 0 } = .error (.cell 0) := by
  rfl

end CellAsm.Machine
