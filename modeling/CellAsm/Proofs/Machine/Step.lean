import CellAsm.Proofs.Machine.Outcome
import CellAsm.Proofs.Success
import CellAsm.Proofs.Text.Decimal

set_option autoImplicit false

/-! # What one step does

A step asks the decoder for an instruction and performs the action of it. The lemmas here say
what the ends of a step have in common, so that no proof about a run looks at them: the text still
to be told to the host has no influence on the step (`step_withPending`), it prints the text of its
own instruction and changes at most the cell that its instruction stores to, and the program and the
parameters stay (`step_changes`).
-/

namespace CellAsm.Machine

/-! ## The next instruction -/

/-- The text that an action prints, if it prints. -/
def Action.text? : Action → Option String
  | .print text => some text
  | _ => none

/-- The cell that an action stores to, if it stores. -/
def Action.destination? : Action → Option UInt64
  | .store address _ => some address
  | .draw address => some address
  | .read address => some address
  | _ => none

/-- The text that the next instruction prints, if it is one that prints. -/
def printing? (machine : Machine) : Option String :=
  machine.instruction.toOption.bind fun next => next.2.text?

/-- The text that the next instruction prints. -/
def printedText (machine : Machine) : String := machine.printing?.getD ""

/-- The cell that the next instruction stores to, if it is one that stores. -/
def destination? (machine : Machine) : Option UInt64 :=
  machine.instruction.toOption.bind fun next => next.2.destination?

section

variable {machine : Machine} {mnemonic : Mnemonic} {action : Action} {cause : Fault.Cause}

/-- The next instruction is the action of the decoded operation on its operands. -/
theorem instruction_eq_ok_iff :
    machine.instruction = .ok (mnemonic, action) ↔
      ∃ op values, machine.opcode = .ok op ∧ machine.operands op = .ok values ∧
        Machine.action machine.memory op.mnemonic values = .ok action ∧
        op.mnemonic = mnemonic := by
  constructor
  · intro h
    obtain ⟨op, hop, h⟩ := Success.bind_iff.mp h
    obtain ⟨values, hvalues, h⟩ := Success.bind_iff.mp h
    obtain ⟨found, hfound, h⟩ := Success.bind_iff.mp h
    obtain ⟨hmnemonic, rfl⟩ := Prod.mk.inj (Success.pure_iff.mp h)
    exact ⟨op, values, hop, hvalues, hfound, hmnemonic⟩
  · rintro ⟨op, values, hop, hvalues, haction, rfl⟩
    exact Success.bind_iff.mpr ⟨op, hop, Success.bind_iff.mpr ⟨values, hvalues,
      Success.bind_iff.mpr ⟨action, haction, rfl⟩⟩⟩

theorem word?_of_fetch {address : Nat} {word : UInt64} (h : machine.fetch address = .ok word) :
    machine.program.word? address = some word := by
  unfold fetch at h
  split at h
  · next found hfound =>
    obtain rfl := Except.ok.inj h
    exact hfound
  · cases h

/-- What can be decoded is inside the program. -/
theorem ip_lt_size_of_opcode {op : Opcode} (h : machine.opcode = .ok op) :
    machine.ip < machine.program.size := by
  obtain ⟨word, hword, -⟩ := Success.bind_iff.mp h
  exact (Array.getElem?_eq_some_iff.mp (word?_of_fetch hword)).1

theorem ip_lt_size_of_instruction (h : machine.instruction = .ok (mnemonic, action)) :
    machine.ip < machine.program.size := by
  obtain ⟨op, -, hop, -⟩ := instruction_eq_ok_iff.mp h
  exact ip_lt_size_of_opcode hop

theorem printedText_of_instruction (h : machine.instruction = .ok (mnemonic, action)) :
    machine.printedText = action.text?.getD "" := by
  rw [printedText, printing?, h]
  rfl

theorem printedText_of_instruction_error (h : machine.instruction = .error cause) :
    machine.printedText = "" := by
  rw [printedText, printing?, h]
  rfl

end

/-- Only the two print operations ask for a text to be printed, and none of them prints
nothing. -/
theorem ne_empty_of_action {memory : Memory} {mnemonic : Mnemonic} {operands : List UInt64}
    {text : String} (h : action memory mnemonic operands = .ok (.print text)) : text ≠ "" := by
  cases mnemonic with
  | aprint =>
      obtain rfl : String.singleton (charOfWord (operands.getD 0 0)) = text := by
        simpa [action] using h
      simp
  | dprint =>
      obtain rfl : String.ofList (Text.decimal (operands.getD 0 0).toNat) = text := by
        simpa [action] using h
      rw [Ne, String.ofList_eq_empty_iff]
      exact Text.decimal_ne_nil _
  | and | or | xor | not | add | sub =>
      obtain ⟨_, _, h⟩ := Success.map_iff.mp (by simpa only [action, combine] using h)
      cases h
  | mov | random | jmp | jz | jeq | jls | jgt | halt | aread =>
      simp [action] at h

theorem ne_empty_of_printing? {machine : Machine} {text : String}
    (h : machine.printing? = some text) : text ≠ "" := by
  unfold printing? at h
  cases hinstruction : machine.instruction with
  | error cause => rw [hinstruction] at h; cases h
  | ok next =>
      obtain ⟨mnemonic, action⟩ := next
      obtain ⟨op, operands, -, -, haction, -⟩ := instruction_eq_ok_iff.mp hinstruction
      rw [hinstruction] at h
      cases action with
      | print text' =>
          obtain rfl : text' = text := Option.some.inj h
          exact ne_empty_of_action haction
      | store | draw | read | jump | halt => cases h

theorem printedText_eq_empty_iff {machine : Machine} :
    machine.printedText = "" ↔ machine.printing? = none := by
  unfold printedText
  cases h : machine.printing? with
  | none => simp
  | some text => simpa using ne_empty_of_printing? h

/-! ### What an operation asks for -/

/-- The actions of an operation: each kind of action belongs to certain operations. -/
def Action.IsOf (mnemonic : Mnemonic) : Action → Prop
  | .store _ _ => mnemonic.effect = .data
  | .draw _ => mnemonic = .random
  | .read _ => mnemonic = .aread
  | .jump _ _ => mnemonic.effect = .jump
  | .print _ => mnemonic = .aprint ∨ mnemonic = .dprint
  | .halt => mnemonic = .halt

/-- Whatever the operands are, an operation asks for an action of its own. -/
theorem isOf_of_action {memory : Memory} {mnemonic : Mnemonic} {values : List UInt64}
    {act : Action} (h : action memory mnemonic values = .ok act) : act.IsOf mnemonic := by
  cases mnemonic with
  | and | or | xor | not | add | sub =>
      obtain ⟨_, _, rfl⟩ := Success.map_iff.mp h
      rfl
  | mov | random | jmp | jz | jeq | jls | jgt | halt | aread =>
      obtain rfl := Except.ok.inj h
      rfl
  | aprint =>
      obtain rfl := Except.ok.inj h
      exact .inl rfl
  | dprint =>
      obtain rfl := Except.ok.inj h
      exact .inr rfl

/-! ### What the next instruction depends on -/

section

variable {machine machine' : Machine}

theorem fetch_congr (hwords : machine'.program.words = machine.program.words) (address : Nat) :
    machine'.fetch address = machine.fetch address := by
  simp only [fetch, Program.word?, hwords]

/-- The operands are found one after the other. -/
theorem operandsAt_cons (machine : Machine) (address : Nat) (kind : Kind) (param : Param)
    (uses : List (Kind × Param)) :
    machine.operandsAt address ((kind, param) :: uses) = (do
      let word ← machine.fetch address
      let value ← (if kind.isRead param then machine.memory.read word else .ok word :
        Except Fault.Cause UInt64)
      let values ← machine.operandsAt (address + 1) uses
      return value :: values) := by
  rw [operandsAt]
  cases kind.isRead param <;> rfl

theorem operandsAt_congr (hwords : machine'.program.words = machine.program.words)
    (hmemory : machine'.memory = machine.memory) (address : Nat) (uses : List (Kind × Param)) :
    machine'.operandsAt address uses = machine.operandsAt address uses := by
  induction uses generalizing address with
  | nil => rfl
  | cons use uses ih => simp only [operandsAt, fetch_congr hwords, hmemory, ih]

/-- **The next instruction depends on the words of the program, the memory and the instruction
pointer**, and on nothing else. -/
theorem instruction_congr (hwords : machine'.program.words = machine.program.words)
    (hmemory : machine'.memory = machine.memory) (hip : machine'.ip = machine.ip) :
    machine'.instruction = machine.instruction := by
  simp only [instruction, opcode, operands, fetch_congr hwords, operandsAt_congr hwords hmemory,
    hmemory, hip]

end

/-! ## Text that the host has not been told of -/

/-- The machine with another text still to be told to the host. -/
def withPending (machine : Machine) (text : String) : Machine := { machine with pending := text }

@[simp] theorem running_withPending (machine : Machine) (text : String) :
    (machine.withPending text).running = machine.running := rfl

@[simp] theorem output_withPending (machine : Machine) (text : String) :
    (machine.withPending text).output = machine.output := rfl

theorem instruction_withPending (machine : Machine) (text : String) :
    (machine.withPending text).instruction = machine.instruction :=
  instruction_congr rfl rfl rfl

section

variable {machine last : Machine} {behind : Nat} {action : Action}

theorem Performs.withPending_of_silent (h : Performs machine behind action last) (text : String)
    (hsilent : action.text? = none) :
    Performs (machine.withPending text) behind action (last.withPending text) := by
  -- a cell exists in the one memory if it does in the other, so the constructor is chosen first
  cases h with
  | store hcell => exact .store (by exact hcell)
  | draw hcell => exact .draw (by exact hcell)
  | read hcell hinput hword => exact .read (by exact hcell) hinput hword
  | readEnd hcell hinput => exact .readEnd (by exact hcell) hinput
  | pass => exact .pass
  | jump hother => exact .jump hother
  | print => cases hsilent
  | halt => exact .halt

/-- An action does the same whatever is still to be told, and adds its own text to it. -/
theorem Performs.withPending (h : Performs machine behind action last) (text : String) :
    Performs (machine.withPending text) behind action
      (last.withPending (text ++ action.text?.getD "")) := by
  cases hprinted : action.text? with
  | none =>
      rw [Option.getD_none, String.append_empty]
      exact h.withPending_of_silent text hprinted
  | some printed =>
      cases h with
      | print =>
          obtain rfl := Option.some.inj hprinted
          exact .print
      | store | draw | read | readEnd | pass | jump | halt => cases hprinted

theorem Refuses.withPending {mnemonic : Mnemonic} {cause : Fault.Cause} {used : Machine}
    (h : Refuses machine mnemonic action cause used) (text : String) :
    Refuses (machine.withPending text) mnemonic action cause (used.withPending text) := by
  cases h with
  | store hcell => exact .store hcell
  | draw hcell => exact .draw hcell
  | read hcell hinput hword => exact .read hcell hinput hword
  | readEnd hcell hinput => exact .readEnd hcell hinput
  | readError hinput hword => exact .readError hinput hword
  | jump hself => exact .jump hself

/-- What is refused is not a print. -/
theorem Refuses.text?_eq {mnemonic : Mnemonic} {cause : Fault.Cause} {used : Machine}
    (h : Refuses machine mnemonic action cause used) : action.text? = none := by
  cases h <;> rfl

end

/-- **A step does the same whatever is still to be told**, and adds its own text to it. -/
theorem step_withPending (machine : Machine) (text : String) :
    (machine.withPending text).step
      = (machine.step.1, machine.step.2.withPending (text ++ machine.printedText)) := by
  have hsame := instruction_withPending machine text
  have hends := machine.ends_step
  generalize machine.step = outcome at hends ⊢
  cases hends with
  | undecoded h =>
      rw [step_of_instruction_error (hsame.trans h), printedText_of_instruction_error h,
        String.append_empty]
      rfl
  | refused h hrefuses =>
      rw [printedText_of_instruction h, hrefuses.text?_eq, Option.getD_none, String.append_empty]
      exact (Ends.refused (hsame.trans h) (hrefuses.withPending text)).step_eq
  | performed h hperforms =>
      rw [printedText_of_instruction h]
      exact (Ends.performed (hsame.trans h) (hperforms.withPending text)).step_eq

/-! ## What a step leaves alone -/

/-- What can be different after a step: the text is added to the output, and at most the
destination has another value. -/
structure Changes (machine next : Machine) (text? : Option String)
    (destination? : Option UInt64) : Prop where
  config : next.config = machine.config
  program : next.program = machine.program
  output : next.output = machine.output ++ text?.getD ""
  memory : next.memory = machine.memory ∨
    ∃ address value h, destination? = some address ∧
      next.memory = machine.memory.set address value h

theorem Changes.of_same {machine next : Machine} {destination? : Option UInt64}
    (hconfig : next.config = machine.config) (hprogram : next.program = machine.program)
    (houtput : next.output = machine.output) (hmemory : next.memory = machine.memory) :
    machine.Changes next none destination? :=
  ⟨hconfig, hprogram, by rw [houtput, Option.getD_none, String.append_empty], .inl hmemory⟩

theorem Performs.changes {machine last : Machine} {behind : Nat} {action : Action}
    (h : Performs machine behind action last) :
    machine.Changes last action.text? action.destination? := by
  cases h with
  | store hcell | draw hcell | read hcell | readEnd hcell =>
      exact ⟨rfl, rfl, String.append_empty.symm, .inr ⟨_, _, hcell, rfl, rfl⟩⟩
  | print => exact ⟨rfl, rfl, rfl, .inl rfl⟩
  | pass | jump | halt => exact .of_same rfl rfl rfl rfl

/-- **A step changes at most the cell that its instruction stores to**, and prints the text of
its instruction. -/
theorem step_changes (machine : Machine) :
    machine.Changes machine.step.2 machine.printing? machine.destination? := by
  have hends := machine.ends_step
  generalize machine.step = outcome at hends ⊢
  cases hends with
  | undecoded h =>
      rw [printing?, h]
      exact .of_same rfl rfl rfl rfl
  | refused h hrefuses =>
      rw [printing?, h]
      change machine.Changes _ (Action.text? _) _
      rw [hrefuses.text?_eq, hrefuses.same]
      exact .of_same rfl rfl rfl rfl
  | performed h hperforms =>
      rw [printing?, destination?, h]
      exact hperforms.changes

end CellAsm.Machine
