import CellAsm.Proofs.Machine.Step

set_option autoImplicit false

/-! # Runs of several steps

`Steps allowed n machine last` says that `n` successful steps lead from `machine` to `last`, each
of them from a machine that `allowed` admits: one that is running, or one that does not write to
a certain cell. Facts about a run follow from `step_changes` by induction over its steps.
-/

namespace CellAsm.Machine

/-- A number of successful steps from one machine to another, each from an allowed machine. -/
inductive Steps (allowed : Machine → Prop) : Nat → Machine → Machine → Prop
  | refl (machine : Machine) : Steps allowed 0 machine machine
  | cons {machine next last : Machine} {n : Nat} (hallowed : allowed machine)
      (hstep : machine.step = (.ok (), next)) (hrest : Steps allowed n next last) :
      Steps allowed (n + 1) machine last

namespace Steps

variable {allowed : Machine → Prop} {machine next last : Machine} {n m : Nat}

theorem single (hallowed : allowed machine) (hstep : machine.step = (.ok (), next)) :
    Steps allowed 1 machine next :=
  .cons hallowed hstep (.refl next)

theorem trans (h : Steps allowed n machine next) (h' : Steps allowed m next last) :
    Steps allowed (n + m) machine last := by
  induction h with
  | refl machine => rwa [Nat.zero_add]
  | cons hallowed hstep _ ih =>
      rw [Nat.add_right_comm]
      exact .cons hallowed hstep (ih h')

/-- What every step keeps is kept by a run. -/
theorem preserves {P : Machine → Prop}
    (hkeep : ∀ machine, allowed machine → P machine → P machine.step.2)
    (h : Steps allowed n machine last) (hP : P machine) : P last := by
  induction h with
  | refl machine => exact hP
  | cons hallowed hstep _ ih =>
      have hnext := hkeep _ hallowed hP
      rw [hstep] at hnext
      exact ih hnext

/-- The last of some steps, and the steps before it. -/
theorem exists_last (h : Steps allowed (n + 1) machine last) :
    ∃ before, Steps allowed n machine before ∧ allowed before ∧ before.step = (.ok (), last) := by
  induction n generalizing machine with
  | zero =>
      cases h with
      | cons hallowed hstep hrest =>
          cases hrest
          exact ⟨machine, .refl machine, hallowed, hstep⟩
  | succ n ih =>
      cases h with
      | cons hallowed hstep hrest =>
          obtain ⟨before, hbefore, hlast⟩ := ih hrest
          exact ⟨before, .cons hallowed hstep hbefore, hlast⟩

theorem program_eq (h : Steps allowed n machine last) : last.program = machine.program :=
  h.preserves (P := fun reached => reached.program = machine.program)
    (fun reached _ hP => (step_changes reached).program.trans hP) rfl

end Steps

/-- The machine after a number of steps, if each of them is allowed and succeeds. -/
def steps? (allowed : Machine → Prop) [DecidablePred allowed] : Nat → Machine → Option Machine
  | 0, machine => some machine
  | n + 1, machine =>
    if allowed machine then
      match machine.step with
      | (.ok (), next) => steps? allowed n next
      | (.error _, _) => none
    else none

theorem steps_of_steps? {allowed : Machine → Prop} [DecidablePred allowed] {n : Nat}
    {machine last : Machine} (h : machine.steps? allowed n = some last) :
    Steps allowed n machine last := by
  induction n generalizing machine with
  | zero =>
      obtain rfl := Option.some.inj h
      exact .refl machine
  | succ n ih =>
      rw [steps?] at h
      split at h
      · next hallowed =>
          rcases hstep : machine.step with ⟨fault | _, next⟩
          · rw [hstep] at h
            cases h
          · rw [hstep] at h
            exact .cons hallowed hstep (ih h)
      · cases h

end CellAsm.Machine
