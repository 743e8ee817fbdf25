import CellAsm.Proofs.Machine.Execution
import CellAsm.Proofs.Machine.FailedStep

set_option autoImplicit false

/-! # Jumps to themselves

The machine refuses a jump whose target is its own address. It looks for this at the address that
it has remembered last; a step remembers its own address before it does anything else, so nothing
that was executed before has an influence (`step_eq_stepGuarded`). The check is exact: it refuses
precisely the taken jumps to themselves. And it is sound: a machine without the check would take
such a jump over and over and change nothing but its tick count, so it would never come to an end
(`loop_check_sound_and_exact`).
-/

namespace CellAsm

/-- Whether a jump with the given operands is taken; an operation that is no jump never is. -/
def Mnemonic.Taken (mnemonic : Mnemonic) (operands : List UInt64) : Prop :=
  let b := operands.getD 1 0
  let c := operands.getD 2 0
  match mnemonic with
  | .jmp => True
  | .jz => b = 0
  | .jeq => b = c
  | .jls => b < c
  | .jgt => c < b
  | _ => False

namespace Machine

section

variable {machine : Machine} {mnemonic : Mnemonic} {act : Action} {target : UInt64}
  {address : Nat}

/-! ## Taken jumps -/

/-- The instruction decodes, its operands can be read, and it is a jump that is taken to the
address. -/
def JumpsTo (machine : Machine) (address : Nat) : Prop :=
  ∃ op operands, machine.opcode = .ok op ∧ machine.operands op = .ok operands ∧
    op.mnemonic.Taken operands ∧ (operands.getD 0 0).toNat = address

/-- The action of an operation is to jump exactly if it is a jump that is taken. -/
theorem action_eq_jump_iff {memory : Memory} {values : List UInt64} :
    action memory mnemonic values = .ok (.jump true target) ↔
      mnemonic.Taken values ∧ values.getD 0 0 = target := by
  cases mnemonic with
  | jmp | jz | jeq | jls | jgt => simp [action, Mnemonic.Taken]
  | and | or | xor | not | add | sub | mov | random | halt | aprint | dprint | aread =>
      constructor
      · intro h
        -- a jump would be the action of an operation that is none
        exact absurd (isOf_of_action h) (by simp [Action.IsOf, Mnemonic.effect])
      · intro h
        exact h.1.elim

theorem jumpsTo_iff : machine.JumpsTo address ↔
    ∃ mnemonic target, machine.instruction = .ok (mnemonic, .jump true target) ∧
      target.toNat = address := by
  constructor
  · rintro ⟨op, values, hop, hvalues, htaken, rfl⟩
    have haction : action machine.memory op.mnemonic values
        = .ok (.jump true (values.getD 0 0)) := action_eq_jump_iff.mpr ⟨htaken, rfl⟩
    exact ⟨op.mnemonic, _, instruction_eq_ok_iff.mpr ⟨op, values, hop, hvalues, haction, rfl⟩, rfl⟩
  · rintro ⟨mnemonic, target, hinstruction, rfl⟩
    obtain ⟨op, values, hop, hvalues, haction, -⟩ := instruction_eq_ok_iff.mp hinstruction
    obtain ⟨htaken, rfl⟩ := action_eq_jump_iff.mp haction
    exact ⟨op, values, hop, hvalues, htaken, rfl⟩

/-! ## Steps with and without the check -/

/-- The machine at the beginning of a step: it remembers the address of the instruction. -/
def begun (machine : Machine) : Machine := { machine with lastIp := some machine.ip }

/-- The step of a machine that refuses a taken jump if `refuses` says so of the machine that has
begun the step and the target. -/
def stepGuarded (refuses : Machine → Nat → Bool) (machine : Machine) :
    Except Fault Unit × Machine :=
  match machine.instruction with
  | .error cause => machine.fail cause
  | .ok (mnemonic, .jump true target) =>
    if refuses machine.begun target.toNat then
      machine.fail (.infiniteLoop mnemonic target.toNat)
    else machine.proceed target.toNat
  | .ok (mnemonic, action) => machine.perform mnemonic (machine.ip + 1 + mnemonic.arity) action

/-- The step of a machine without the check. -/
def stepUnguarded (machine : Machine) : Except Fault Unit × Machine :=
  machine.stepGuarded fun _ _ => false

/-- The machine without the check after a number of steps. -/
def afterUnguarded (machine : Machine) : Nat → Machine
  | 0 => machine
  | n + 1 => (machine.afterUnguarded n).stepUnguarded.2

theorem stepGuarded_of_jump (h : machine.instruction = .ok (mnemonic, .jump true target))
    (refuses : Machine → Nat → Bool) :
    machine.stepGuarded refuses =
      if refuses machine.begun target.toNat then
        machine.fail (.infiniteLoop mnemonic target.toNat)
      else machine.proceed target.toNat := by
  rw [stepGuarded, h]

theorem step_of_jump (h : machine.instruction = .ok (mnemonic, .jump true target)) :
    machine.step =
      if target.toNat = machine.ip then machine.fail (.infiniteLoop mnemonic target.toNat)
      else machine.proceed target.toNat := by
  rw [step_of_instruction h]
  rfl

/-- Where no jump is taken, the step of the machine is the step without a check. -/
theorem stepGuarded_of_not_jumpsTo (h : ∀ address, ¬ machine.JumpsTo address)
    (refuses : Machine → Nat → Bool) : machine.stepGuarded refuses = machine.step := by
  unfold stepGuarded
  split
  · next cause hinstruction => rw [step_of_instruction_error hinstruction]
  · next mnemonic target hinstruction =>
      exact absurd (jumpsTo_iff.mpr ⟨mnemonic, target, hinstruction, rfl⟩) (h target.toNat)
  · next mnemonic action _ hinstruction => rw [step_of_instruction hinstruction]

/-- **The check looks at the address that the machine has remembered last**, which is its own,
whatever it has executed before. -/
theorem step_eq_stepGuarded (machine : Machine) :
    machine.step = machine.stepGuarded fun begun target => begun.lastIp == some target := by
  by_cases h : ∃ address, machine.JumpsTo address
  · obtain ⟨address, hjumps⟩ := h
    obtain ⟨mnemonic, target, hinstruction, -⟩ := jumpsTo_iff.mp hjumps
    have hremembered : target.toNat = machine.ip ↔
        (machine.begun.lastIp == some target.toNat) = true := by
      rw [beq_iff_eq, begun, Option.some.injEq]
      exact eq_comm
    rw [stepGuarded_of_jump hinstruction, step_of_jump hinstruction]
    exact if_congr hremembered rfl rfl
  · exact (stepGuarded_of_not_jumpsTo (not_exists.mp h) _).symm

/-! ## The check is exact -/

/-- **A step is refused exactly if it is a taken jump to its own address.** -/
theorem infiniteLoop_iff (machine : Machine) :
    (∃ fault, machine.step.1 = .error fault ∧ fault.code = .infiniteLoop) ↔
      machine.JumpsTo machine.ip := by
  rw [jumpsTo_iff]
  constructor
  · rintro ⟨fault, hfault, hcode⟩
    have hends := machine.ends_step
    generalize machine.step = outcome at hends hfault
    cases hends with
    -- what is not decoded is not a loop
    | undecoded hinstruction =>
        obtain rfl := Except.error.inj hfault
        have hcodes := code_of_undecoded hinstruction
        rw [show Fault.Cause.code _ = .infiniteLoop from hcode] at hcodes
        simp at hcodes
    | refused hinstruction hrefuses =>
        obtain rfl := Except.error.inj hfault
        cases hrefuses with
        | jump hself => exact ⟨_, _, hinstruction, hself⟩
        | store | draw | read | readEnd | readError => cases hcode
    | performed => cases hfault
  · rintro ⟨mnemonic, target, hinstruction, hself⟩
    refine ⟨⟨.infiniteLoop mnemonic target.toNat, machine.blame⟩, ?_, rfl⟩
    rw [step_of_jump hinstruction, if_pos hself]
    rfl

/-! ## The check is sound -/

/-- Without the check a jump to itself succeeds and moves nothing. -/
theorem stepUnguarded_of_jumpsTo (h : machine.JumpsTo machine.ip) :
    machine.stepUnguarded =
      (.ok (), { machine with lastIp := some machine.ip, ticks := machine.ticks + 1 }) := by
  obtain ⟨mnemonic, target, hinstruction, hself⟩ := jumpsTo_iff.mp h
  rw [stepUnguarded, stepGuarded_of_jump hinstruction, if_neg (by simp), proceed, hself]

/-- What a machine executes depends neither on its ticks nor on the address that it remembers. -/
theorem JumpsTo.of_same {later : Machine} {ticks : Nat} {lastIp : Option Nat}
    (hsame : later = { machine with ticks, lastIp }) (h : machine.JumpsTo machine.ip) :
    later.JumpsTo later.ip := by
  have hip : later.ip = machine.ip := by rw [hsame]
  have hinstruction : later.instruction = machine.instruction := by
    rw [hsame]
    exact instruction_congr rfl rfl rfl
  rw [hip, jumpsTo_iff, hinstruction]
  exact jumpsTo_iff.mp h

/-- A machine at a jump is not at an instruction that halts. -/
theorem JumpsTo.not_isAt_halt (h : machine.JumpsTo address) : ¬ machine.IsAt .halt := by
  obtain ⟨op, values, hop, -, htaken, -⟩ := h
  rintro ⟨op', hop', hhalt⟩
  have hsame : op = op' := Except.ok.inj (hop.symm.trans hop')
  rw [hsame, hhalt] at htaken
  exact htaken

/-- **Without the check the machine would stay where it is for ever**: after any number of steps
nothing is different but the ticks and the remembered address. -/
theorem afterUnguarded_of_jumpsTo (h : machine.JumpsTo machine.ip) (n : Nat) :
    machine.afterUnguarded n = { machine with
      ticks := machine.ticks + n
      lastIp := (machine.afterUnguarded n).lastIp } := by
  induction n with
  | zero => rfl
  | succ n ih =>
      rw [afterUnguarded, stepUnguarded_of_jumpsTo (h.of_same ih), ih]
      rfl

/-- Where no jump leads to itself, the check makes no difference. -/
theorem stepUnguarded_eq_step (h : ¬ machine.JumpsTo machine.ip) :
    machine.stepUnguarded = machine.step := by
  by_cases htaken : ∃ address, machine.JumpsTo address
  · obtain ⟨address, hjumps⟩ := htaken
    obtain ⟨mnemonic, target, hinstruction, rfl⟩ := jumpsTo_iff.mp hjumps
    have hother : target.toNat ≠ machine.ip := by
      intro hself
      exact h (hself ▸ hjumps)
    rw [step_of_jump hinstruction, if_neg hother, stepUnguarded, stepGuarded_of_jump hinstruction]
    rfl
  · exact stepGuarded_of_not_jumpsTo (not_exists.mp htaken) _

end

/-- **The loop check is exact and sound.** A step fails for an endless loop exactly if the
instruction decodes, its operands can be read, and it is a taken jump to its own address. On a
machine without the check, every step of such a machine succeeds and leads to the same machine up to
the ticks and the remembered address, so it never comes to an instruction that halts. In all other
states the machine takes the step that it would take without the check. -/
theorem loop_check_sound_and_exact (machine : Machine) :
    ((∃ fault, machine.step.1 = .error fault ∧ fault.code = .infiniteLoop) ↔
      machine.JumpsTo machine.ip) ∧
    (machine.JumpsTo machine.ip → ∀ n,
      let later := machine.afterUnguarded n
      later = { machine with ticks := machine.ticks + n, lastIp := later.lastIp } ∧
        later.stepUnguarded.1 = .ok () ∧ ¬ later.IsAt .halt) ∧
    (¬ machine.JumpsTo machine.ip → machine.stepUnguarded = machine.step) := by
  refine ⟨infiniteLoop_iff machine, ?_, stepUnguarded_eq_step⟩
  intro hjumps n later
  have hsame : later = { machine with ticks := machine.ticks + n, lastIp := later.lastIp } :=
    afterUnguarded_of_jumpsTo hjumps n
  have hlater : later.JumpsTo later.ip := hjumps.of_same hsame
  refine ⟨hsame, ?_, hlater.not_isAt_halt⟩
  rw [stepUnguarded_of_jumpsTo hlater]

namespace LoopCheck.Sample

/-- `MOV [0] 5`, `MOV [1] 6`, `JEQ [1] [0] 5`, `HALT`: the target of the jump at address 6 is in a
cell. -/
def code : Program where
  words := #[8, 0, 5, 8, 1, 6, 22, 1, 0, 5, 255]

/-- A machine that has loaded the program. -/
def machine : Machine := (create .default [] default).load code

/-- The machine at the jump. -/
def atJump : Machine := machine.step.2.step.2

end LoopCheck.Sample

open LoopCheck.Sample in
theorem loop_check_sound_and_exact_sample :
    atJump.JumpsTo 6 ∧ (∃ fault, atJump.step.1 = .error fault ∧ fault.code = .infiniteLoop) ∧
      (atJump.afterUnguarded 1000).ip = 6 ∧ (atJump.afterUnguarded 1000).running = true ∧
      ¬ (atJump.afterUnguarded 1000).IsAt .halt ∧ machine.stepUnguarded = machine.step := by
  have hip : atJump.ip = 6 := by decide +kernel
  have hfault : ∃ fault, atJump.step.1 = .error fault ∧ fault.code = .infiniteLoop := by
    refine ⟨⟨.infiniteLoop .jeq 6, none⟩, ?_, rfl⟩
    decide +kernel
  obtain ⟨hexact, hsound, -⟩ := loop_check_sound_and_exact atJump
  have hjumps : atJump.JumpsTo atJump.ip := hexact.mp hfault
  obtain ⟨hsame, -, hhalt⟩ := hsound hjumps 1000
  obtain ⟨hstart, -, hother⟩ := loop_check_sound_and_exact machine
  have hmoves : ¬ machine.JumpsTo machine.ip := by
    intro hself
    obtain ⟨fault, hfault, -⟩ := hstart.mpr hself
    have hok : machine.step.1 = .ok () := by decide +kernel
    rw [hok] at hfault
    cases hfault
  have hrunning : atJump.running = true := by decide +kernel
  have hstays : (atJump.afterUnguarded 1000).ip = atJump.ip := by rw [hsame]
  have hruns : (atJump.afterUnguarded 1000).running = atJump.running := by rw [hsame]
  exact ⟨hip ▸ hjumps, hfault, hstays.trans hip, hruns.trans hrunning, hhalt, hother hmoves⟩

end Machine

end CellAsm
