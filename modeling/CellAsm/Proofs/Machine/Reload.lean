import CellAsm.Proofs.Machine.Host
import CellAsm.Proofs.Machine.Life

set_option autoImplicit false

/-! # Loading another program

A machine can be used for one program after the other. Loading a program sets everything back that
an instruction or a fault can depend on, except the input that is still to be read and the random
numbers that are still to be drawn. So a host sees the same as on a new machine that is given this
input and these random numbers (`loading_forgets_past`): how often the old machine has drawn does
not show (`hides_havingDrawn`), and everything else is equal (`load_eq_havingDrawn`). A text with a
fault does not even touch the machine.
-/

namespace CellAsm

namespace Draws

/-! ## Random numbers that were drawn before -/

/-- The source behind its first positions. -/
def skip (draws : Draws) (count : Nat) : Draws where
  next bound i := ((draws.next bound (count + i)).1, (draws.next bound (count + i)).2 - count)
  next_fst_le bound i := draws.next_fst_le bound (count + i)
  le_next_snd bound i := Nat.le_sub_of_add_le' (draws.le_next_snd bound (count + i))

/-- The source behind the first positions of another one. -/
def behind (draws used : Draws) (count : Nat) : Draws where
  next bound i :=
    if i < count then used.next bound i
    else ((draws.next bound (i - count)).1, count + (draws.next bound (i - count)).2)
  next_fst_le bound i := by
    split
    · exact used.next_fst_le bound i
    · exact draws.next_fst_le bound (i - count)
  le_next_snd bound i := by
    split
    · exact used.le_next_snd bound i
    · exact Nat.sub_le_iff_le_add'.mp (draws.le_next_snd bound (i - count))

theorem next_behind (draws used : Draws) (count : Nat) (bound : UInt64) (position : Nat) :
    (draws.behind used count).next bound (count + position)
      = ((draws.next bound position).1, count + (draws.next bound position).2) := by
  have hlt : ¬ count + position < count := by omega
  simp only [behind, if_neg hlt, Nat.add_sub_cancel_left]

theorem behind_skip (draws : Draws) (count : Nat) :
    (draws.skip count).behind draws count = draws := by
  ext1
  funext bound i
  by_cases hlt : i < count
  · exact if_pos hlt
  · -- a draw ends behind the position where it begins, so nothing is cut off
    have hsum : count + (i - count) = i := by omega
    have hle : count ≤ (draws.next bound i).2 :=
      (Nat.le_of_not_lt hlt).trans (draws.le_next_snd bound i)
    refine (if_neg hlt).trans ?_
    simp only [skip, hsum, Nat.add_sub_cancel' hle]

end Draws

namespace Machine

/-! ## Random numbers drawn before -/

/-- The machine as if it had drawn up to the position `count` before. -/
def havingDrawn (used : Draws) (count : Nat) (machine : Machine) : Machine :=
  { machine with
    draws := machine.draws.behind used count
    drawn := count + machine.drawn }

section

variable (used : Draws) (count : Nat) (machine : Machine)

/-- The same number is drawn, and the position moves by as much. -/
theorem next_havingDrawn (bound : UInt64) :
    (machine.havingDrawn used count).draws.next bound (machine.havingDrawn used count).drawn
      = ((machine.draws.next bound machine.drawn).1,
        count + (machine.draws.next bound machine.drawn).2) :=
  machine.draws.next_behind used count bound machine.drawn

theorem commutes_havingDrawn : Commutes (havingDrawn used count) where
  instruction_eq _ := instruction_congr rfl rfl rfl
  ip_eq _ := rfl
  performs {machine _ behind _} h := by
    cases h with
    | store hcell => exact .store (by exact hcell)
    | @draw address hcell =>
        have hdraw : Performs (machine.havingDrawn used count) behind (.draw address) _ :=
          .draw (by exact hcell)
        simp only [next_havingDrawn] at hdraw
        exact hdraw
    | read hcell hinput hword => exact .read (by exact hcell) hinput hword
    | readEnd hcell hinput => exact .readEnd (by exact hcell) hinput
    | pass => exact .pass
    | jump hother => exact .jump hother
    | print => exact .print
    | halt => exact .halt
  refuses {machine _ mnemonic _ _} h := by
    cases h with
    | store hcell => exact .store hcell
    | @draw address hcell =>
        have hdraw : Refuses (machine.havingDrawn used count) mnemonic (.draw address) _ _ :=
          .draw hcell
        simp only [next_havingDrawn] at hdraw
        exact hdraw
    | read hcell hinput hword => exact .read hcell hinput hword
    | readEnd hcell hinput => exact .readEnd hcell hinput
    | readError hinput hword => exact .readError hinput hword
    | jump hself => exact .jump hself

/-- **A step depends on the random numbers that are still to be drawn** and not on those before
them. -/
theorem step_havingDrawn :
    (machine.havingDrawn used count).step
      = changed (havingDrawn used count) id machine.step :=
  (commutes_havingDrawn used count).step_eq (fun _ _ => rfl) machine

theorem hides_havingDrawn : Hides (havingDrawn used count) id where
  step_eq := step_havingDrawn used count
  output_eq _ := rfl
  ticks_eq _ := rfl
  running_eq _ := rfl
  memory_eq _ := rfl
  pending_eq _ := rfl
  told_eq _ := rfl

/-- A host cannot tell what was drawn before. -/
theorem observe_havingDrawn (calls : List Call) :
    (machine.havingDrawn used count).observe calls = machine.observe calls := by
  have hid : Observation.mapFault id = id := by
    funext observation
    rcases observation with ⟨⟨_ | _⟩ | ⟨_ | _⟩ | ⟨_ | _⟩, _, _, _, _⟩ <;> rfl
  rw [(hides_havingDrawn used count).observe_eq, hid, List.map_id_fun, Option.map_id]
  rfl

end

/-! ## The machines of an owner -/

/-- What a machine with the given parameters can have become: it was created, it was given other
input or random numbers, and it was asked for anything, whether or not that succeeded. -/
inductive Reachable (config : Config) : Machine → Prop
  | create (input : List InputItem) (draws : Draws) : Reachable config (create config input draws)
  | withInput {machine : Machine} (h : Reachable config machine) (input : List InputItem) :
      Reachable config { machine with input }
  | withDraws {machine : Machine} (h : Reachable config machine) (draws : Draws) :
      Reachable config { machine with draws, drawn := 0 }
  | after {machine next : Machine} {request : Request} (h : Reachable config machine)
      (hafter : machine.after request = some next) : Reachable config next

theorem Reachable.load {config : Config} {machine : Machine} (h : Reachable config machine)
    (program : Program) : Reachable config (machine.load program) := by
  have hafter : machine.after (.load program) = some (machine.load program) := rfl
  exact h.after hafter

theorem Reachable.step {config : Config} {machine : Machine} (h : Reachable config machine) :
    Reachable config machine.step.2 := by
  have hafter : machine.after (.call .step) = some machine.step.2 := rfl
  exact h.after hafter

/-- Whatever has become of a machine, it has a history that records its state. -/
theorem Reachable.exists_recorded {config : Config} {machine : Machine}
    (h : Reachable config machine) : ∃ past, Recorded config past machine := by
  induction h with
  | create input draws => exact ⟨[], .create config input draws⟩
  | withInput _ input ih =>
      obtain ⟨past, hpast⟩ := ih
      exact ⟨past, { hpast with }⟩
  | withDraws _ draws ih =>
      obtain ⟨past, hpast⟩ := ih
      exact ⟨past, { hpast with }⟩
  | after _ hafter ih =>
      obtain ⟨past, hpast⟩ := ih
      exact ⟨_, (passes_after hafter).recorded hpast⟩

/-! ## Loading -/

/-- The new machine that a machine is compared with: it has the parameters, and it is given the
input that is still to be read and the random numbers that are still to be drawn. -/
def fresh (machine : Machine) : Machine :=
  create machine.config machine.input (machine.draws.skip machine.drawn)

/-- Loading leaves nothing of a machine but what it has still to read and to draw. -/
theorem load_eq_havingDrawn {machine : Machine} (h : machine.memory.Fits machine.config)
    (program : Program) :
    machine.load program
      = (machine.fresh.load program).havingDrawn machine.draws machine.drawn := by
  have hmemory : machine.memory.clear = machine.fresh.memory.clear := by
    rw [h.clear_eq_blank]
    exact (Memory.fits_blank machine.config).clear_eq_blank.symm
  have hdraws : machine.draws
      = (machine.draws.skip machine.drawn).behind machine.draws machine.drawn :=
    (machine.draws.behind_skip machine.drawn).symm
  show ({ machine.load program with
    memory := machine.memory.clear
    draws := machine.draws } : Machine) = _
  rw [hmemory]
  conv_lhs => rw [hdraws]
  rfl

/-- **Loading forgets the past.** Whatever has become of a machine: if a text has a fault, entering
it leaves the machine as it is in every part. If it has none, entering it succeeds as it would on a
new machine with the same parameters, the same input still to be read and the same random numbers
still to be drawn; and whatever a host asks for after that, or after a program was loaded, it sees
what it would see of the new machine with the program. -/
theorem loading_forgets_past {config : Config} {machine : Machine}
    (h : Reachable config machine) :
    machine.config = config ∧
    (∀ files text fault next, machine.enter text files = (.error fault, next) →
      next = machine) ∧
    (∀ files text next, machine.enter text files = (.ok (), next) →
      ∃ program, machine.fresh.enter text files = (.ok (), machine.fresh.load program) ∧
        ∀ calls, next.observe calls = (machine.fresh.load program).observe calls) ∧
    ∀ program calls,
      (machine.load program).observe calls = (machine.fresh.load program).observe calls := by
  obtain ⟨past, hpast⟩ := h.exists_recorded
  have hfits : machine.memory.Fits machine.config := by
    rw [hpast.config_eq]
    exact hpast.fits
  have hload : ∀ program calls,
      (machine.load program).observe calls = (machine.fresh.load program).observe calls := by
    intro program calls
    rw [load_eq_havingDrawn hfits, observe_havingDrawn]
  refine ⟨hpast.config_eq, ?_, ?_, hload⟩
  · intro files text fault next hnext
    unfold enter at hnext
    split at hnext
    · cases hnext
    · exact (Prod.mk.inj hnext).2.symm
  · intro files text next hnext
    unfold enter at hnext
    split at hnext
    · next program hprogram =>
        obtain ⟨-, rfl⟩ := Prod.mk.inj hnext
        have hfresh : Assembler.assembleText machine.fresh.config text files = .ok program :=
          hprogram
        exact ⟨program, by rw [enter, hfresh], hload program⟩
    · cases hnext

namespace Reload.Sample

/-- `AREAD [0]`, `RANDOM [1]`, `DPRINT [0]`, `JMP 6`: it reads, draws and prints, and then it fails
at a jump to itself. -/
def reader : Program where
  words := #[36, 0, 9, 1, 34, 0, 15, 6]

/-- `AREAD [2]`, `DPRINT [2]`, `DPRINT [1]`, `RANDOM [0]`, `HALT`. -/
def printer : Program where
  words := #[36, 2, 34, 2, 34, 1, 9, 0, 255]

def parameters : Config := Config.default.withMemorySize 3

def start : Machine := create parameters [.ok 'A', .ok 'B'] default

/-- The machine after the fault, with its print not yet told to the host. -/
def machine : Machine := (start.load reader).step.2.step.2.step.2.step.2

theorem reachable_machine : Reachable parameters machine :=
  ((Reachable.create _ _).load reader).step.step.step.step

end Reload.Sample

open Reload.Sample in
theorem loading_forgets_past_sample :
    Reachable parameters machine ∧ machine.output = "65" ∧ machine.pending = "65" ∧
      machine.drawn = 1 ∧ machine.input = [.ok 'B'] ∧
      ((machine.load printer).observe [.run 100, .step]
        = (machine.fresh.load printer).observe [.run 100, .step]) ∧
      ((machine.load printer).run 100).map (fun ended => ended.2.output) = some "660" := by
  obtain ⟨-, -, -, hload⟩ := loading_forgets_past reachable_machine
  refine ⟨reachable_machine, ?_, ?_, ?_, ?_, hload printer _, ?_⟩
  · decide +kernel
  · decide +kernel
  · decide +kernel
  · rfl
  · decide +kernel

end Machine

end CellAsm
