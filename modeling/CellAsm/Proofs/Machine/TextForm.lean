import CellAsm.Proofs.Machine.Host
import CellAsm.Proofs.Program.TextForm

set_option autoImplicit false

/-! # Running a program from its text form

The text form of a program keeps the words and loses the lines. The machine looks at lines only when
it blames one for a fault: a step of the machine without lines is the step of the machine, where the
fault has no line (`step_withoutLines`). Runs and slices are made of steps, so a host cannot tell
whether a program or its text form was loaded, except by the lines of faults
(`text_form_faithful`).
-/

namespace CellAsm

/-- The fault without its line. -/
def Fault.withoutLine (fault : Fault) : Fault := { fault with line := none }

/-- The words of the program, without the lines they come from. -/
def Program.withoutLines (program : Program) : Program := { words := program.words }

namespace Machine

/-- The machine with the words of its program, without the lines they come from. -/
def withoutLines (machine : Machine) : Machine :=
  { machine with program := machine.program.withoutLines }

/-- What is left of a result and the machine after it without lines. -/
def eraseLines {α : Type} (outcome : Except Fault α × Machine) : Except Fault α × Machine :=
  (outcome.1.mapError Fault.withoutLine, outcome.2.withoutLines)

/-! ## Steps -/

theorem blame_withoutLines (machine : Machine) : machine.withoutLines.blame = none := by
  unfold blame
  split
  · rfl
  · exact Option.bind_eq_none_iff.mpr fun _ _ => rfl

theorem fail_withoutLines (machine : Machine) (cause : Fault.Cause) :
    machine.withoutLines.fail cause = eraseLines (machine.fail cause) := by
  rw [fail, blame_withoutLines]
  rfl

theorem instruction_withoutLines (machine : Machine) :
    machine.withoutLines.instruction = machine.instruction :=
  instruction_congr rfl rfl rfl

theorem commutes_withoutLines : Commutes withoutLines where
  instruction_eq := instruction_withoutLines
  ip_eq _ := rfl
  performs h := by
    cases h with
    | store hcell => exact .store (by exact hcell)
    | draw hcell => exact .draw (by exact hcell)
    | read hcell hinput hword => exact .read (by exact hcell) hinput hword
    | readEnd hcell hinput => exact .readEnd (by exact hcell) hinput
    | pass => exact .pass
    | jump hother => exact .jump hother
    | print => exact .print
    | halt => exact .halt
  refuses h := by
    cases h with
    | store hcell => exact .store hcell
    | draw hcell => exact .draw hcell
    | read hcell hinput hword => exact .read hcell hinput hword
    | readEnd hcell hinput => exact .readEnd hcell hinput
    | readError hinput hword => exact .readError hinput hword
    | jump hself => exact .jump hself

/-- **Lines have no influence on a step** but for the fault it can end with. -/
theorem step_withoutLines (machine : Machine) :
    machine.withoutLines.step = eraseLines machine.step :=
  commutes_withoutLines.step_eq fail_withoutLines machine

/-! ## What a host sees -/

/-- The answer without the line of a fault. -/
def Answer.withoutLine : Answer → Answer
  | stepped result => stepped (result.mapError Fault.withoutLine)
  | ran result => ran (result.mapError Fault.withoutLine)
  | executed result => executed (result.mapError Fault.withoutLine)

/-- The observation without the line of a fault. -/
def Observation.withoutLine (observation : Observation) : Observation :=
  { observation with answer := observation.answer.withoutLine }

/-- A host sees of the lines only those of faults. -/
theorem hides_withoutLines : Hides withoutLines Fault.withoutLine where
  step_eq := step_withoutLines
  output_eq _ := rfl
  ticks_eq _ := rfl
  running_eq _ := rfl
  memory_eq _ := rfl
  pending_eq _ := rfl
  told_eq _ := rfl

theorem mapFault_withoutLine (observation : Observation) :
    observation.mapFault Fault.withoutLine = observation.withoutLine := by
  rcases observation with ⟨_ | _ | _, _, _, _, _⟩ <;> rfl

theorem observe_withoutLines (machine : Machine) (calls : List Call) :
    machine.withoutLines.observe calls
      = (machine.observe calls).map (List.map Observation.withoutLine) := by
  have hsame : Observation.mapFault Fault.withoutLine = Observation.withoutLine :=
    funext mapFault_withoutLine
  rw [hides_withoutLines.observe_eq, hsame]

/-- **The text form of a program is faithful.** It is read as a program with the same words, and for
every machine and any calls a host sees the same after loading it as after loading the program: the
answers, the output, the ticks, whether the machine runs, and its memory. Only the lines of faults
are missing. -/
theorem text_form_faithful (program : Program) :
    ∃ parsed, Program.ofText program.text = .ok parsed ∧ parsed.words = program.words ∧
      ∀ (machine : Machine) (calls : List Call),
        (machine.load parsed).observe calls
          = ((machine.load program).observe calls).map (List.map Observation.withoutLine) :=
  ⟨program.withoutLines, program.ofText_text, rfl, fun machine calls =>
    observe_withoutLines (machine.load program) calls⟩

end Machine

end CellAsm
