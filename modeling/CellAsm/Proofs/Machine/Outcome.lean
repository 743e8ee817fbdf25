import CellAsm.Machine

set_option autoImplicit false

/-! # How a step ends

A step ends in one of three ways (`Ends`). No instruction with its operands is found at the
instruction pointer; or the action of the instruction is refused (`Refuses`); or it is performed
(`Performs`). For each way it is said which machine is left, and no step ends in two of them
(`ends_iff`), so whatever holds of every step is shown in these cases, without unfolding the step.
-/

namespace CellAsm.Machine

section

variable {machine last used : Machine} {mnemonic : Mnemonic} {act : Action} {behind : Nat}
  {cause : Fault.Cause} {address : UInt64}

/-! ## The machine that an action leaves -/

/-- The machine that an action leaves when it succeeds, where `behind` is the address behind the
instruction. -/
inductive Performs (machine : Machine) (behind : Nat) : Action → Machine → Prop
  | store {address value : UInt64} (h : address.toNat < machine.memory.size) :
      Performs machine behind (.store address value)
        ({ machine with memory := machine.memory.set address value h }.proceed behind).2
  | draw {address : UInt64} (h : address.toNat < machine.memory.size) :
      Performs machine behind (.draw address)
        (let drawn := machine.draws.next machine.config.maxRandom machine.drawn
        { machine with
            drawn := drawn.2, memory := machine.memory.set address drawn.1 h }.proceed behind).2
  | read {address word : UInt64} {item : InputItem} {input : List InputItem}
      (h : address.toNat < machine.memory.size) (hinput : machine.input = item :: input)
      (hword : item.word = .ok word) :
      Performs machine behind (.read address)
        ({ machine with
            input, memory := machine.memory.set address word h }.proceed behind).2
  | readEnd {address : UInt64} (h : address.toNat < machine.memory.size)
      (hinput : machine.input = []) :
      Performs machine behind (.read address)
        ({ machine with memory := machine.memory.set address 0 h }.proceed behind).2
  | pass {target : UInt64} : Performs machine behind (.jump false target) (machine.proceed behind).2
  | jump {target : UInt64} (h : target.toNat ≠ machine.ip) :
      Performs machine behind (.jump true target) (machine.proceed target.toNat).2
  | print {text : String} :
      Performs machine behind (.print text)
        ({ machine with
            output := machine.output ++ text
            pending := machine.pending ++ text }.proceed behind).2
  | halt : Performs machine behind .halt ({ machine with running := false }.proceed behind).2

/-- Why an action is refused, and the machine in which it is, where the item of the input or the
random number for the action has been used up. -/
inductive Refuses (machine : Machine) (mnemonic : Mnemonic) :
    Action → Fault.Cause → Machine → Prop
  | store {address value : UInt64} (h : machine.memory.size ≤ address.toNat) :
      Refuses machine mnemonic (.store address value) (.invalidAddress address) machine
  | draw {address : UInt64} (h : machine.memory.size ≤ address.toNat) :
      Refuses machine mnemonic (.draw address) (.invalidAddress address)
        { machine with
          drawn := (machine.draws.next machine.config.maxRandom machine.drawn).2 }
  | read {address word : UInt64} {item : InputItem} {input : List InputItem}
      (h : machine.memory.size ≤ address.toNat) (hinput : machine.input = item :: input)
      (hword : item.word = .ok word) :
      Refuses machine mnemonic (.read address) (.invalidAddress address) { machine with input }
  | readEnd {address : UInt64} (h : machine.memory.size ≤ address.toNat)
      (hinput : machine.input = []) :
      Refuses machine mnemonic (.read address) (.invalidAddress address) machine
  | readError {address : UInt64} {item : InputItem} {message : String} {input : List InputItem}
      (hinput : machine.input = item :: input) (hword : item.word = .error message) :
      Refuses machine mnemonic (.read address) (.inputFailed message) { machine with input }
  | jump {target : UInt64} (h : target.toNat = machine.ip) :
      Refuses machine mnemonic (.jump true target) (.infiniteLoop mnemonic target.toNat) machine

theorem perform_readEnd (h : machine.input = []) :
    machine.perform mnemonic behind (.read address) = machine.store behind address 0 := by
  simp only [perform, h]

section

variable {item : InputItem} {input : List InputItem}

theorem perform_read {word : UInt64} (h : machine.input = item :: input)
    (hword : item.word = .ok word) :
    machine.perform mnemonic behind (.read address)
      = { machine with input }.store behind address word := by
  simp only [perform, h, hword]

theorem perform_readError {message : String} (h : machine.input = item :: input)
    (hword : item.word = .error message) :
    machine.perform mnemonic behind (.read address)
      = { machine with input }.fail (.inputFailed message) := by
  simp only [perform, h, hword]

end

theorem Performs.perform_eq (h : Performs machine behind act last) (mnemonic : Mnemonic) :
    machine.perform mnemonic behind act = (.ok (), last) := by
  cases h with
  | store hcell | draw hcell => exact dif_pos hcell
  | read hcell hinput hword => exact (perform_read hinput hword).trans (dif_pos hcell)
  | readEnd hcell hinput => exact (perform_readEnd hinput).trans (dif_pos hcell)
  | jump hother => exact if_neg hother
  | pass | print | halt => rfl

theorem Refuses.perform_eq (h : Refuses machine mnemonic act cause used) (behind : Nat) :
    machine.perform mnemonic behind act = used.fail cause := by
  cases h with
  | store hcell | draw hcell => exact dif_neg (Nat.not_lt_of_le hcell)
  | read hcell hinput hword =>
      exact (perform_read hinput hword).trans (dif_neg (Nat.not_lt_of_le hcell))
  | readEnd hcell hinput => exact (perform_readEnd hinput).trans (dif_neg (Nat.not_lt_of_le hcell))
  | readError hinput hword => exact perform_readError hinput hword
  | jump hself => exact if_pos hself

/-- **An action is performed or refused**, whatever the machine is. -/
theorem performs_or_refuses (machine : Machine) (mnemonic : Mnemonic) (behind : Nat)
    (act : Action) :
    (∃ last, Performs machine behind act last) ∨
      ∃ cause used, Refuses machine mnemonic act cause used := by
  cases act with
  | store address value =>
      rcases Nat.lt_or_ge address.toNat machine.memory.size with hcell | hcell
      · exact .inl ⟨_, .store hcell⟩
      · exact .inr ⟨_, _, .store hcell⟩
  | draw address =>
      rcases Nat.lt_or_ge address.toNat machine.memory.size with hcell | hcell
      · exact .inl ⟨_, .draw hcell⟩
      · exact .inr ⟨_, _, .draw hcell⟩
  | read address =>
      cases hinput : machine.input with
      | nil =>
          rcases Nat.lt_or_ge address.toNat machine.memory.size with hcell | hcell
          · exact .inl ⟨_, .readEnd hcell hinput⟩
          · exact .inr ⟨_, _, .readEnd hcell hinput⟩
      | cons item input =>
          cases hword : item.word with
          | error message => exact .inr ⟨_, _, .readError hinput hword⟩
          | ok word =>
              rcases Nat.lt_or_ge address.toNat machine.memory.size with hcell | hcell
              · exact .inl ⟨_, .read hcell hinput hword⟩
              · exact .inr ⟨_, _, .read hcell hinput hword⟩
  | jump condition target =>
      cases condition with
      | false => exact .inl ⟨_, .pass⟩
      | true =>
          by_cases hself : target.toNat = machine.ip
          · exact .inr ⟨_, _, .jump hself⟩
          · exact .inl ⟨_, .jump hself⟩
  | print text => exact .inl ⟨_, .print⟩
  | halt => exact .inl ⟨_, .halt⟩

/-! ## The ends of a step -/

/-- The result of a step and the machine after it. -/
inductive Ends (machine : Machine) : Except Fault Unit × Machine → Prop
  /-- There is no instruction, or an operand of it cannot be read. -/
  | undecoded {cause : Fault.Cause} (h : machine.instruction = .error cause) :
      Ends machine (.error ⟨cause, machine.blame⟩, (machine.fail cause).2)
  | refused {mnemonic : Mnemonic} {act : Action} {cause : Fault.Cause} {used : Machine}
      (h : machine.instruction = .ok (mnemonic, act))
      (hrefuses : Refuses machine mnemonic act cause used) :
      Ends machine (.error ⟨cause, machine.blame⟩, (used.fail cause).2)
  | performed {mnemonic : Mnemonic} {act : Action} {last : Machine}
      (h : machine.instruction = .ok (mnemonic, act))
      (hperforms : Performs machine (machine.ip + 1 + mnemonic.arity) act last) :
      Ends machine (.ok (), last)

theorem step_of_instruction (h : machine.instruction = .ok (mnemonic, act)) :
    machine.step = machine.perform mnemonic (machine.ip + 1 + mnemonic.arity) act := by
  rw [step, h]

theorem step_of_instruction_error (h : machine.instruction = .error cause) :
    machine.step = machine.fail cause := by
  rw [step, h]

/-- A refused action leaves everything as it was but what it has used up. -/
theorem Refuses.same (h : Refuses machine mnemonic act cause used) :
    used = { machine with input := used.input, drawn := used.drawn } := by
  cases h <;> rfl

theorem Refuses.blame_eq (h : Refuses machine mnemonic act cause used) :
    used.blame = machine.blame := by
  rw [h.same]
  rfl

theorem Ends.step_eq {outcome : Except Fault Unit × Machine} (h : machine.Ends outcome) :
    machine.step = outcome := by
  cases h with
  | undecoded h => exact step_of_instruction_error h
  | refused h hrefuses =>
      rw [step_of_instruction h, hrefuses.perform_eq, fail, hrefuses.blame_eq]
  | performed h hperforms => exact (step_of_instruction h).trans (hperforms.perform_eq _)

/-- **Every step ends in one of the three ways.** -/
theorem ends_step (machine : Machine) : machine.Ends machine.step := by
  cases hinstruction : machine.instruction with
  | error cause =>
      have hends := Ends.undecoded hinstruction
      rwa [hends.step_eq]
  | ok found =>
      obtain ⟨mnemonic, act⟩ := found
      rcases machine.performs_or_refuses mnemonic (machine.ip + 1 + mnemonic.arity) act with
        ⟨last, hperforms⟩ | ⟨cause, used, hrefuses⟩
      · have hends := Ends.performed hinstruction hperforms
        rwa [hends.step_eq]
      · have hends := Ends.refused hinstruction hrefuses
        rwa [hends.step_eq]

/-- The ends of a step describe it: what it does is the one outcome that they allow. -/
theorem ends_iff {outcome : Except Fault Unit × Machine} :
    machine.Ends outcome ↔ machine.step = outcome := by
  constructor
  · exact Ends.step_eq
  · rintro rfl
    exact machine.ends_step

/-- **A step that succeeds has performed the action of its instruction.** -/
theorem exists_performs_of_step (h : machine.step = (.ok (), last)) :
    ∃ mnemonic act, machine.instruction = .ok (mnemonic, act) ∧
      Performs machine (machine.ip + 1 + mnemonic.arity) act last := by
  cases ends_iff.mpr h with
  | performed hinstruction hperforms => exact ⟨_, _, hinstruction, hperforms⟩

end

end CellAsm.Machine
