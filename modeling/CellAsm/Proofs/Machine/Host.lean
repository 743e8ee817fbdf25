import CellAsm.Proofs.Machine.Slices

set_option autoImplicit false

/-! # What a host sees

A host asks a machine for steps, runs and slices. What it sees after each call is the answer, the
output, the ticks, whether the machine runs, and its memory (`Observation`). A machine holds more
than this, and parts of it can be changed without the host noticing, unless by the faults that it is
told of (`Hides`). It is enough to show this for a step, and for a step it is enough to show it for
what an action performs or refuses (`Commutes.step_eq`): runs and slices are made of steps, so
whatever the host asks for, it sees the same (`Hides.observe_eq`).
-/

namespace CellAsm.Machine

/-- What a host asks a machine for. -/
inductive Call where
  | step
  /-- A run that is given up after `bound` steps. -/
  | run (bound : Nat)
  | execute (cycles : Nat)

/-- What a host is told. -/
inductive Answer where
  | stepped (result : Except Fault Unit)
  | ran (result : Except Fault String)
  | executed (result : Except Fault Event)

/-- The answer to a call and the machine after it; `none` if a run was given up. -/
def answer (machine : Machine) : Call → Option (Answer × Machine)
  | .step => some (machine.step.map .stepped id)
  | .run bound => (machine.run bound).map (·.map .ran id)
  | .execute cycles => some ((machine.execute cycles).map .executed id)

/-- What a host can see after a call. -/
structure Observation where
  answer : Answer
  output : String
  ticks : Nat
  running : Bool
  memory : Memory

/-- An answer, and what can be seen of the machine after it. -/
def Observation.of (outcome : Answer × Machine) : Observation where
  answer := outcome.1
  output := outcome.2.output
  ticks := outcome.2.ticks
  running := outcome.2.running
  memory := outcome.2.memory

/-- What a host sees after each of the calls; `none` if one of them is a run that was given up. -/
def observe (machine : Machine) : List Call → Option (List Observation)
  | [] => some []
  | call :: calls =>
    (machine.answer call).bind fun outcome =>
      (outcome.2.observe calls).map (.of outcome :: ·)

/-! ## Changes that a host does not see -/

/-- The answer with another fault in the place of each fault. -/
def Answer.mapFault (tell : Fault → Fault) : Answer → Answer
  | stepped result => stepped (result.mapError tell)
  | ran result => ran (result.mapError tell)
  | executed result => executed (result.mapError tell)

/-- The observation with another fault in the place of each fault. -/
def Observation.mapFault (tell : Fault → Fault) (observation : Observation) : Observation :=
  { observation with answer := observation.answer.mapFault tell }

/-- The outcome of a changed machine, if the change shows in the faults only. -/
def changed {α : Type} (change : Machine → Machine) (tell : Fault → Fault)
    (outcome : Except Fault α × Machine) : Except Fault α × Machine :=
  (outcome.1.mapError tell, change outcome.2)

/-- Changing a machine commutes with its actions: the changed machine decodes the same instruction,
and its action is performed or refused there as it is here. -/
structure Commutes (change : Machine → Machine) : Prop where
  instruction_eq : ∀ machine, (change machine).instruction = machine.instruction
  ip_eq : ∀ machine, (change machine).ip = machine.ip
  performs : ∀ {machine last : Machine} {behind : Nat} {act : Action},
    Performs machine behind act last → Performs (change machine) behind act (change last)
  refuses : ∀ {machine used : Machine} {mnemonic : Mnemonic} {act : Action} {cause : Fault.Cause},
    Refuses machine mnemonic act cause used →
      Refuses (change machine) mnemonic act cause (change used)

/-- Such a change commutes with steps, if it does with the way in which they fail. -/
theorem Commutes.step_eq {change : Machine → Machine} {tell : Fault → Fault} (h : Commutes change)
    (hfail : ∀ (machine : Machine) (cause : Fault.Cause),
      (change machine).fail cause = changed change tell (machine.fail cause))
    (machine : Machine) : (change machine).step = changed change tell machine.step := by
  have hsame := h.instruction_eq machine
  have hends := machine.ends_step
  generalize machine.step = outcome at hends ⊢
  cases hends with
  | undecoded hinstruction =>
      exact (step_of_instruction_error (hsame.trans hinstruction)).trans (hfail machine _)
  | refused hinstruction hrefuses =>
      rw [step_of_instruction (hsame.trans hinstruction), (h.refuses hrefuses).perform_eq, hfail,
        fail, hrefuses.blame_eq]
  | performed hinstruction hperforms =>
      rw [step_of_instruction (hsame.trans hinstruction), h.ip_eq,
        (h.performs hperforms).perform_eq]
      rfl

/-- Changing a machine shows in nothing but the faults, which are told in another way. -/
structure Hides (change : Machine → Machine) (tell : Fault → Fault) : Prop where
  step_eq : ∀ machine, (change machine).step = changed change tell machine.step
  output_eq : ∀ machine, (change machine).output = machine.output
  ticks_eq : ∀ machine, (change machine).ticks = machine.ticks
  running_eq : ∀ machine, (change machine).running = machine.running
  memory_eq : ∀ machine, (change machine).memory = machine.memory
  pending_eq : ∀ machine, (change machine).pending = machine.pending
  told_eq : ∀ machine, (change machine).told = change machine.told

namespace Hides

variable {change : Machine → Machine} {tell : Fault → Fault}

theorem run_of_stopped (h : Hides change tell) {machine : Machine}
    (hstopped : machine.running = false) (bound : Nat) :
    (change machine).run bound = (machine.run bound).map (changed change tell) := by
  have hsame : (change machine).running = false := (h.running_eq machine).trans hstopped
  rw [Machine.run_of_stopped hstopped, Machine.run_of_stopped hsame, h.output_eq, h.told_eq]
  rfl

theorem run_eq (h : Hides change tell) (bound : Nat) (machine : Machine) :
    (change machine).run bound = (machine.run bound).map (changed change tell) := by
  induction bound generalizing machine with
  | zero =>
      have hsame := h.running_eq machine
      cases hrunning : machine.running with
      | false => rw [h.run_of_stopped hrunning]
      | true => rw [run_zero hrunning, run_zero (hsame.trans hrunning)]; rfl
  | succ bound ih =>
      have hsame := h.running_eq machine
      have hstep' := h.step_eq machine
      cases hrunning : machine.running with
      | false => rw [h.run_of_stopped hrunning]
      | true =>
          rcases hstep : machine.step with ⟨fault | _, next⟩
          · rw [hstep] at hstep'
            rw [run_of_fault hrunning hstep, run_of_fault (hsame.trans hrunning) hstep']
            rfl
          · rw [hstep] at hstep'
            rw [run_succ hrunning hstep, run_succ (hsame.trans hrunning) hstep']
            exact ih next

theorem execute_eq (h : Hides change tell) (cycles : Nat) (machine : Machine) :
    (change machine).execute cycles = changed change tell (machine.execute cycles) := by
  induction cycles generalizing machine with
  | zero =>
      rw [execute_zero_eq_ite, execute_zero_eq_ite, h.running_eq]
      rfl
  | succ cycles ih =>
      rw [execute_succ_eq_ite, execute_succ_eq_ite, h.running_eq, h.step_eq]
      split
      · rcases machine.step with ⟨fault | _, next⟩
        · rfl
        · -- what is printed is the same, so both slices end here or both go on
          show (if (change next).pending = "" then (change next).execute cycles
              else (.ok (.print (change next).pending), (change next).told))
            = changed change tell (if next.pending = "" then next.execute cycles
              else (.ok (.print next.pending), next.told))
          rw [h.pending_eq, h.told_eq]
          split
          · exact ih next
          · rfl
      · rfl

theorem answer_eq (h : Hides change tell) (machine : Machine) (call : Call) :
    (change machine).answer call
      = (machine.answer call).map fun outcome =>
          (outcome.1.mapFault tell, change outcome.2) := by
  cases call with
  | step => rw [answer, h.step_eq]; rfl
  | run bound =>
      rw [answer, h.run_eq, answer, Option.map_map, Option.map_map]
      rfl
  | execute cycles => rw [answer, h.execute_eq]; rfl

theorem observation_eq (h : Hides change tell) (outcome : Answer × Machine) :
    Observation.of (outcome.1.mapFault tell, change outcome.2)
      = (Observation.of outcome).mapFault tell := by
  simp only [Observation.of, Observation.mapFault, h.output_eq, h.ticks_eq, h.running_eq,
    h.memory_eq]

/-- **A host sees the same of a changed machine**, up to the faults, whatever it asks for. -/
theorem observe_eq (h : Hides change tell) (machine : Machine) (calls : List Call) :
    (change machine).observe calls
      = (machine.observe calls).map (List.map (Observation.mapFault tell)) := by
  induction calls generalizing machine with
  | nil => rfl
  | cons call calls ih =>
      rw [observe, h.answer_eq, observe]
      cases machine.answer call with
      | none => rfl
      | some outcome =>
          show ((change outcome.2).observe calls).map _ = Option.map _ (Option.map _ _)
          rw [ih, h.observation_eq, Option.map_map, Option.map_map]
          rfl

end Hides

end CellAsm.Machine
