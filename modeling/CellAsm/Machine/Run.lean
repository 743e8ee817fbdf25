import CellAsm.Machine

set_option autoImplicit false

/-! # Running a machine

A host either runs a machine to its end or executes it in slices and is told after each slice
whether the machine is still running, has printed something or has stopped. A slice ends early
when something was printed. A program may run for ever, so a run has a bound on its steps and
gives nothing when the bound is reached.
-/

namespace CellAsm

/-- What a host is told after a slice. -/
inductive Event where
  /-- The machine can go on. -/
  | running
  /-- The machine has printed a text. -/
  | print (text : String)
  /-- The machine does not run. -/
  | stopped
deriving DecidableEq

namespace Machine

/-- Steps until the machine stops, which gives the whole output, or has a fault; `none` if it
has done neither after `bound` steps. -/
def run (bound : Nat) (machine : Machine) : Option (Except Fault String × Machine) :=
  if machine.running then
    match bound with
    | 0 => none
    | bound + 1 =>
      match machine.step with
      | (.ok (), next) => run bound next
      | (.error fault, next) => some (.error fault, next)
  else some (.ok machine.output, { machine with pending := "" })

theorem run_zero_eq_ite (machine : Machine) :
    machine.run 0 =
      if machine.running then none
      else some (.ok machine.output, { machine with pending := "" }) := rfl

theorem run_succ_eq_ite (machine : Machine) (bound : Nat) :
    machine.run (bound + 1) =
      if machine.running then
        match machine.step with
        | (.ok (), next) => next.run bound
        | (.error fault, next) => some (.error fault, next)
      else some (.ok machine.output, { machine with pending := "" }) := rfl

/-- The event of a machine that has printed nothing. -/
def idleEvent (machine : Machine) : Event := if machine.running then .running else .stopped

/-- At most `cycles` steps, ending early when something is printed. -/
def execute (cycles : Nat) (machine : Machine) : Except Fault Event × Machine :=
  match cycles with
  | 0 => (.ok machine.idleEvent, machine)
  | cycles + 1 =>
    if machine.running then
      match machine.step with
      | (.error fault, next) => (.error fault, next)
      | (.ok (), next) =>
        if next.pending = "" then execute cycles next
        else (.ok (.print next.pending), { next with pending := "" })
    else (.ok .stopped, machine)

theorem execute_zero_eq_ite (machine : Machine) :
    machine.execute 0 = (.ok (if machine.running then .running else .stopped), machine) := rfl

theorem execute_succ_eq_ite (machine : Machine) (cycles : Nat) :
    machine.execute (cycles + 1) =
      if machine.running then
        match machine.step with
        | (.error fault, next) => (.error fault, next)
        | (.ok (), next) =>
          if next.pending = "" then next.execute cycles
          else (.ok (.print next.pending), { next with pending := "" })
      else (.ok .stopped, machine) := rfl

/-- The events of at most `count` slices of `cycles` steps each, and the machine after them. The
last event is the one that says that the machine stopped, or a fault. -/
def events (cycles : Nat) : Nat → Machine → List (Except Fault Event) × Machine
  | 0, machine => ([], machine)
  | count + 1, machine =>
    match machine.execute cycles with
    | (.ok .stopped, next) => ([.ok .stopped], next)
    | (.error fault, next) => ([.error fault], next)
    | (.ok event, next) =>
      let rest := events cycles count next
      (.ok event :: rest.1, rest.2)

end Machine

end CellAsm
