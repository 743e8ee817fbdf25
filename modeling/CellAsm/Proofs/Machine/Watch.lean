import CellAsm.Proofs.Machine.Life

set_option autoImplicit false

/-! # Watching the events

A host that executes slices is told of prints by events, and it may also take single steps, which
tell it nothing. What a step prints stays pending, and the next slice that takes a step tells of it
together with its own prints. So the output is at any time what the host was told, followed by what
its own steps have printed since the last print event (`Watcher.accounts_afterAll`). A slice of a
machine that has stopped tells nothing more: if the host has taken the step that stopped the
machine, the text that was pending then is never told of (`told_is_output_iff`).
-/

namespace CellAsm.Machine

/-- What a host that watches the events can do next. -/
inductive Move where
  | step
  | slice (cycles : Nat)

/-- A machine and what a host knows that watches it. -/
structure Watcher where
  machine : Machine
  /-- The texts of the print events. -/
  told : List String := []
  /-- What the host's own steps have printed since the last print event. -/
  stepped : String := ""

namespace Watcher

/-- The host makes a move, whether or not it succeeds. -/
def after (watcher : Watcher) : Move → Watcher
  | .step =>
    { watcher with
      machine := watcher.machine.step.2
      stepped := watcher.stepped ++ watcher.machine.printedText }
  | .slice cycles =>
    let (outcome, next) := watcher.machine.execute cycles
    match Event.text? outcome with
    | some text => { machine := next, told := watcher.told ++ [text] }
    | none => { watcher with machine := next }

/-- The host makes moves one after the other. -/
def afterAll (watcher : Watcher) (moves : List Move) : Watcher := moves.foldl after watcher

end Watcher

section

variable {machine next : Machine}

/-! ## What a slice tells -/

/-- A slice tells of all that was printed and not told of before, or of nothing, in which case
nothing has been printed either. -/
inductive Tells (machine : Machine) : Except Fault Event × Machine → Prop where
  | all {text : String} {next : Machine} (hpending : next.pending = "")
      (houtput : ∀ told, machine.output = told ++ machine.pending → next.output = told ++ text) :
      Tells machine (.ok (.print text), next)
  | nothing {outcome : Except Fault Event} {next : Machine} (hsilent : Event.text? outcome = none)
      (houtput : next.output = machine.output) (hpending : next.pending = machine.pending) :
      Tells machine (outcome, next)

/-- A step that prints nothing makes no difference to what is told. -/
theorem Tells.of_same {slice : Except Fault Event × Machine} (h : next.Tells slice)
    (houtput : next.output = machine.output) (hpending : next.pending = machine.pending) :
    machine.Tells slice := by
  cases h with
  | all hnone hall =>
      refine .all hnone fun told htold => hall told ?_
      rw [houtput, hpending, htold]
  | nothing hsilent hsame hkept =>
      exact .nothing hsilent (hsame.trans houtput) (hkept.trans hpending)

/-- What a slice tells is what its steps and earlier ones have printed. -/
theorem tells_execute (machine : Machine) (cycles : Nat) :
    machine.Tells (machine.execute cycles) := by
  induction cycles generalizing machine with
  | zero =>
      rw [execute_zero_eq_ite]
      split
      · exact .nothing rfl rfl rfl
      · exact .nothing rfl rfl rfl
  | succ cycles ih =>
      have houtput : machine.step.2.output = machine.output ++ machine.printedText :=
        machine.step_changes.output
      have hpending := machine.pending_step
      rw [execute_succ_eq_ite]
      split
      · rcases hstep : machine.step with ⟨fault | _, next⟩
        · rw [hstep, printedText_of_fault hstep, String.append_empty] at houtput hpending
          exact .nothing rfl houtput hpending
        · rw [hstep] at houtput hpending
          by_cases hsilent : next.pending = ""
          · -- nothing was pending before, and the step has printed nothing
            have hempty : machine.pending = "" ∧ machine.printedText = "" :=
              String.append_eq_empty_iff.mp (hpending.symm.trans hsilent)
            rw [hempty.2, String.append_empty] at houtput hpending
            simp only [hsilent, if_true]
            exact (ih next).of_same houtput hpending
          · simp only [hsilent, if_false]
            refine .all rfl fun told htold => ?_
            calc next.output = machine.output ++ machine.printedText := houtput
              _ = told ++ (machine.pending ++ machine.printedText) := by
                rw [htold, String.append_assoc]
              _ = told ++ next.pending := by rw [hpending]
      · exact .nothing rfl rfl rfl

/-- A slice that begins with a running machine and ends with a stopped one leaves nothing
pending. -/
theorem pending_of_stopped {cycles : Nat} (hrunning : machine.running = true)
    (h : machine.execute cycles = (.ok .stopped, next)) : machine.pending = "" := by
  cases cycles with
  | zero =>
      rw [execute_zero_eq_ite, if_pos hrunning] at h
      cases h
  | succ cycles =>
      rw [execute_succ_eq_ite, if_pos hrunning] at h
      rcases hstep : machine.step with ⟨fault | _, reached⟩
      · rw [hstep] at h
        cases h
      · have hpending := machine.pending_step
        rw [hstep] at h hpending
        by_cases hsilent : reached.pending = ""
        · exact (String.append_eq_empty_iff.mp (hpending.symm.trans hsilent)).1
        · simp only [hsilent, if_false] at h
          cases h

/-! ## What a host knows -/

namespace Watcher

/-- The output is what the host was told and what its own steps have printed since then, which is
still pending. -/
structure Accounts (watcher : Watcher) : Prop where
  output : watcher.machine.output = String.join watcher.told ++ watcher.stepped
  pending : watcher.machine.pending = watcher.stepped

theorem accounts_load (machine : Machine) (program : Program) :
    Accounts { machine := machine.load program } :=
  ⟨rfl, rfl⟩

variable {watcher : Watcher}

/-- A move keeps the account. -/
theorem Accounts.after (h : watcher.Accounts) (move : Move) : (watcher.after move).Accounts := by
  cases move with
  | step =>
      have houtput : watcher.machine.step.2.output
          = watcher.machine.output ++ watcher.machine.printedText :=
        watcher.machine.step_changes.output
      have hpending := watcher.machine.pending_step
      rw [h.output, String.append_assoc] at houtput
      rw [h.pending] at hpending
      exact ⟨houtput, hpending⟩
  | slice cycles =>
      have htells := watcher.machine.tells_execute cycles
      rw [Watcher.after]
      -- a slice that ends with a print tells all that is pending; any other one prints nothing
      generalize watcher.machine.execute cycles = slice at htells
      cases htells with
      | @all text next hnone hall =>
          have houtput := hall (String.join watcher.told) (by rw [h.output, h.pending])
          refine ⟨?_, hnone⟩
          show next.output = String.join (watcher.told ++ [text]) ++ ""
          rw [houtput, String.join_append, String.append_empty]
          simp
      | @nothing outcome next hsilent hsame hkept =>
          simp only [hsilent]
          exact ⟨hsame.trans h.output, hkept.trans h.pending⟩

/-- **The output is accounted for after any moves of the host.** -/
theorem accounts_afterAll (h : watcher.Accounts) (moves : List Move) :
    (watcher.afterAll moves).Accounts := by
  induction moves generalizing watcher with
  | nil => exact h
  | cons move moves ih => exact ih (h.after move)

end Watcher

/-- **A host is told of the whole output when the machine stops, unless its own steps have printed
since the last print event.** A program is loaded, and the host takes steps and executes slices in
any order. The output is at any time what the print events told, followed by what the host's own
steps have printed since the last of them. When a slice says that the machine has stopped, nothing
is told after it: the events have told the whole output if and only if those steps have printed
nothing. This is so if the machine was still running when the slice began. -/
theorem told_is_output_iff (machine : Machine) (program : Program) (moves : List Move) :
    let watcher := Watcher.afterAll { machine := machine.load program } moves
    watcher.machine.output = String.join watcher.told ++ watcher.stepped ∧
    ∀ cycles next, watcher.machine.execute cycles = (.ok .stopped, next) →
      next.output = watcher.machine.output ∧
      (String.join watcher.told = next.output ↔ watcher.stepped = "") ∧
      (watcher.machine.running = true → watcher.stepped = "") := by
  intro watcher
  have haccounts : watcher.Accounts :=
    Watcher.accounts_afterAll (Watcher.accounts_load machine program) moves
  refine ⟨haccounts.output, ?_⟩
  intro cycles next hslice
  have htells := watcher.machine.tells_execute cycles
  rw [hslice] at htells
  cases htells with
  | nothing _ hsame _ =>
      refine ⟨hsame, ?_, ?_⟩
      · rw [hsame, haccounts.output]
        constructor
        · -- what was told is a beginning of the output; it is all of it if the rest is empty
          intro htold
          refine (String.append_right_inj (String.join watcher.told)).mp ?_
          rw [← htold, String.append_empty]
        · intro hnone
          rw [hnone, String.append_empty]
      · intro hrunning
        rw [← haccounts.pending]
        exact pending_of_stopped hrunning hslice

end

namespace Watch.Sample

/-- `APRINT 65`, `HALT`. -/
def printer : Program where
  words := #[33, 65, 255]

def host : Machine := create .default [] default

/-- The host that takes every step itself and asks for a slice at the end. -/
def stepping : Watcher :=
  Watcher.afterAll { machine := host.load printer } [.step, .step]

end Watch.Sample

open Watch.Sample in
theorem told_is_output_iff_sample :
    ∃ next, stepping.machine.execute 1 = (.ok .stopped, next) ∧ stepping.told = [] ∧
      stepping.stepped = "A" ∧ next.output = "A" ∧
      ¬ String.join stepping.told = next.output := by
  have hslice : (stepping.machine.execute 1).1 = .ok .stopped := by decide +kernel
  have hstepped : stepping.stepped = "A" := by decide +kernel
  have htold : stepping.told = [] := by decide +kernel
  have houtput : stepping.machine.output = "A" := by decide +kernel
  obtain ⟨-, hstops⟩ := told_is_output_iff host printer [.step, .step]
  obtain ⟨hsame, hiff, -⟩ := hstops 1 _ (Prod.ext hslice rfl)
  refine ⟨_, Prod.ext hslice rfl, htold, hstepped, hsame.trans houtput, ?_⟩
  intro hall
  have hnone : stepping.stepped = "" := hiff.mp hall
  rw [hstepped] at hnone
  exact absurd hnone (by decide)

end CellAsm.Machine
