import CellAsm.Assembler
import CellAsm.Machine.Draws
import CellAsm.Machine.Memory

set_option autoImplicit false

/-! # The machine

The machine has no registers: instructions work on memory cells. Its state is the loaded
program, the memory, the instruction pointer, the input still to be read, the random numbers
still to be drawn, and what was printed. Printed text is kept twice, as the whole output since
loading and as the part that no host has been told of yet.
-/

namespace CellAsm

/-- What an attempt to read a character gives. -/
inductive InputItem where
  /-- A character. -/
  | ok (c : Char)
  /-- An end of the input, although there may be more later. -/
  | ended
  /-- A failure, in words. -/
  | error (message : String)
deriving DecidableEq

/-- The word for what was read, if reading did not fail: the code of the character, and nothing at
an end. -/
def InputItem.word : InputItem → Except String UInt64
  | ok c => .ok c.val.toUInt64
  | ended => .ok 0
  | error message => .error message

/-- The state of a machine. -/
structure Machine where
  config : Config
  program : Program
  memory : Memory
  /-- The address of the next instruction. -/
  ip : Nat
  /-- The address of the instruction that was begun last, whether or not it succeeded. -/
  lastIp : Option Nat
  /-- The number of instructions executed since loading. -/
  ticks : Nat
  running : Bool
  /-- Everything printed since loading. -/
  output : String
  /-- What was printed since the last event. -/
  pending : String
  /-- The input still to be read. -/
  input : List InputItem
  draws : Draws
  /-- The position in `draws` of the next random number. -/
  drawn : Nat

namespace Machine

/-- A machine without a program. -/
def create (config : Config) (input : List InputItem) (draws : Draws) : Machine where
  config
  program := {}
  memory := .blank config
  ip := 0
  lastIp := none
  ticks := 0
  running := false
  output := ""
  pending := ""
  input
  draws
  drawn := 0

/-- Loads a program and makes the machine ready to run it. Input and random numbers go on where
they were. -/
def load (machine : Machine) (program : Program) : Machine :=
  { machine with
    program
    memory := machine.memory.clear
    ip := 0
    lastIp := none
    ticks := 0
    running := true
    output := ""
    pending := "" }

/-- Assembles a text with the parameters of the machine, where it can import the given files, and
loads the program. If the text has a fault the machine stays as it is. -/
def enter (machine : Machine) (text : String) (files : Files := {}) :
    Except Fault Unit × Machine :=
  match Assembler.assembleText machine.config text files with
  | .ok program => (.ok (), machine.load program)
  | .error fault => (.error fault, machine)

/-! ## Fetching and decoding -/

/-- The word of the program at an address. -/
def fetch (machine : Machine) (address : Nat) : Except Fault.Cause UInt64 :=
  match machine.program.word? address with
  | some word => .ok word
  | none => .error (.missingHalt address)

/-- The opcode at the instruction pointer. -/
def opcode (machine : Machine) : Except Fault.Cause Opcode := do
  let word ← machine.fetch machine.ip
  match Opcode.ofWord? word with
  | some opcode => .ok opcode
  | none => .error (.unknownOpcode word machine.ip)

/-- The operands at `address` and after it. An address in the place of a value gives the
contents of the cell. -/
def operandsAt (machine : Machine) (address : Nat) :
    List (Kind × Param) → Except Fault.Cause (List UInt64)
  | [] => .ok []
  | (kind, param) :: rest => do
    let word ← machine.fetch address
    let value ← if kind.isRead param then machine.memory.read word else .ok word
    let values ← machine.operandsAt (address + 1) rest
    return value :: values

/-- The operands of the instruction at the instruction pointer. -/
def operands (machine : Machine) (opcode : Opcode) : Except Fault.Cause (List UInt64) :=
  machine.operandsAt (machine.ip + 1) (opcode.kinds.zip opcode.mnemonic.params)

/-! ## Actions -/

/-- What an instruction asks for once its operands are known. -/
inductive Action where
  /-- Store a value into a cell. -/
  | store (address value : UInt64)
  /-- Store the next random number into a cell. -/
  | draw (address : UInt64)
  /-- Store the next character of the input into a cell. -/
  | read (address : UInt64)
  /-- Continue at `target` if the condition holds. -/
  | jump (condition : Bool) (target : UInt64)
  /-- Print a text. -/
  | print (text : String)
  /-- Stop. -/
  | halt

/-- The character with the given code; codes of no character give the replacement character. -/
def charOfWord (word : UInt64) : Char :=
  if word.toNat.isValidChar then Char.ofNat word.toNat else '\ufffd'

/-- What a stored result is computed from: the contents of the destination and the operand. -/
def combine (memory : Memory) (address : UInt64) (f : UInt64 → UInt64) :
    Except Fault.Cause Action :=
  (memory.read address).map fun old => .store address (f old)

/-- The action of an operation on its operands. -/
def action (memory : Memory) (mnemonic : Mnemonic) (operands : List UInt64) :
    Except Fault.Cause Action :=
  let a := operands.getD 0 0
  let b := operands.getD 1 0
  let c := operands.getD 2 0
  match mnemonic with
  | .and => combine memory a (· &&& b)
  | .or => combine memory a (· ||| b)
  | .xor => combine memory a (· ^^^ b)
  | .not => combine memory a (~~~ ·)
  | .mov => .ok (.store a b)
  | .random => .ok (.draw a)
  | .add => combine memory a (· + b)
  | .sub => combine memory a (· - b)
  | .jmp => .ok (.jump true a)
  | .jz => .ok (.jump (b == 0) a)
  | .jeq => .ok (.jump (b == c) a)
  | .jls => .ok (.jump (b < c) a)
  | .jgt => .ok (.jump (b > c) a)
  | .halt => .ok .halt
  | .aprint => .ok (.print (String.singleton (charOfWord a)))
  | .dprint => .ok (.print (String.ofList (Text.decimal a.toNat)))
  | .aread => .ok (.read a)

/-! ## Steps -/

/-- The line to blame for a fault of the next step: the line of the instruction, or past the
end of the program the line of the instruction that led there. -/
def blame (machine : Machine) : Option Line := do
  let address ← if machine.ip < machine.program.size then some machine.ip else machine.lastIp
  machine.program.lineFor address

/-- Ends a step with a fault. -/
def fail (machine : Machine) (cause : Fault.Cause) : Except Fault Unit × Machine :=
  (.error ⟨cause, machine.blame⟩, { machine with lastIp := some machine.ip })

/-- Ends a step with success; the next one is at `next`. -/
def proceed (machine : Machine) (next : Nat) : Except Fault Unit × Machine :=
  (.ok (), { machine with
    ip := next
    lastIp := some machine.ip
    ticks := machine.ticks + 1 })

/-- Ends a step by storing a value, if the cell exists. -/
def store (machine : Machine) (next : Nat) (address value : UInt64) :
    Except Fault Unit × Machine :=
  if h : address.toNat < machine.memory.size then
    { machine with memory := machine.memory.set address value h }.proceed next
  else machine.fail (.invalidAddress address)

/-- Performs an action of an operation, where the instruction after it is at `next`. A random
number is used up and a character read even if they cannot be stored. -/
def perform (machine : Machine) (mnemonic : Mnemonic) (next : Nat) :
    Action → Except Fault Unit × Machine
  | .store address value => machine.store next address value
  | .draw address =>
    let drawn := machine.draws.next machine.config.maxRandom machine.drawn
    { machine with drawn := drawn.2 }.store next address drawn.1
  | .read address =>
    match machine.input with
    | [] => machine.store next address 0
    | item :: input =>
      match item.word with
      | .ok word => { machine with input }.store next address word
      | .error message => { machine with input }.fail (.inputFailed message)
  | .jump condition target =>
    if !condition then machine.proceed next
    else if target.toNat = machine.ip then machine.fail (.infiniteLoop mnemonic target.toNat)
    else machine.proceed target.toNat
  | .print text =>
    { machine with
      output := machine.output ++ text
      pending := machine.pending ++ text }.proceed next
  | .halt => { machine with running := false }.proceed next

/-- The instruction at the instruction pointer, as its operation and the action it asks for. -/
def instruction (machine : Machine) : Except Fault.Cause (Mnemonic × Action) := do
  let opcode ← machine.opcode
  let operands ← machine.operands opcode
  let action ← action machine.memory opcode.mnemonic operands
  return (opcode.mnemonic, action)

/-- Executes the instruction at the instruction pointer. -/
def step (machine : Machine) : Except Fault Unit × Machine :=
  match machine.instruction with
  | .error cause => machine.fail cause
  | .ok (mnemonic, action) =>
    machine.perform mnemonic (machine.ip + 1 + mnemonic.arity) action

end Machine

end CellAsm
