import CellAsm.Machine.Run
import CellAsm.Proofs.Machine.Steps

set_option autoImplicit false

/-! # Slices of a run

A host that executes a machine in slices sees the same run as one that runs it to its end. The
lengths of the slices, the budgets, decide when the host is told of the prints, but not what is
computed: both hosts walk along the same machines, of which the first forgets the text that it
has been told of (`told`). A slice is a part of that walk (`exists_walk_of_execute`), so are
slices one after the other (`exists_walk_of_slices`), and the main statement
(`slices_agree_with_run`) compares the end of the walk with the end of the run.
-/

namespace CellAsm

/-! ## Slices with a budget of their own -/

namespace Event

/-- Whether a host stops after this outcome: the machine has stopped or there was a fault. -/
def endsRun : Except Fault Event → Bool
  | .ok .stopped => true
  | .ok _ => false
  | .error _ => true

/-- The text of a print event. -/
def text? : Except Fault Event → Option String
  | .ok (.print text) => some text
  | _ => none

/-- The texts of the print events among outcomes. -/
def texts (outcomes : List (Except Fault Event)) : List String := outcomes.filterMap text?

/-- The outcome with which a host stopped, if the last outcome is one that makes it stop. -/
def ending? (outcomes : List (Except Fault Event)) : Option (Except Fault Event) :=
  outcomes.getLast?.filter endsRun

/-- A host has come to the end of the run: the machine has stopped or there was a fault. -/
def Ended (outcomes : List (Except Fault Event)) : Prop := (ending? outcomes).isSome

theorem endsRun_of_ending? {outcomes : List (Except Fault Event)}
    {outcome : Except Fault Event} (h : ending? outcomes = some outcome) :
    endsRun outcome = true :=
  (Option.filter_eq_some_iff.mp h).2

theorem ending?_singleton {outcome : Except Fault Event} (h : endsRun outcome = true) :
    ending? [outcome] = some outcome := by
  simp [ending?, h]

theorem ending?_cons {outcome : Except Fault Event} (h : endsRun outcome = false)
    (outcomes : List (Except Fault Event)) : ending? (outcome :: outcomes) = ending? outcomes := by
  cases outcomes with
  | nil => simp [ending?, h]
  | cons next outcomes => rw [ending?, ending?, List.getLast?_cons_cons]

theorem texts_cons (outcome : Except Fault Event) (outcomes : List (Except Fault Event)) :
    texts (outcome :: outcomes) = texts [outcome] ++ texts outcomes :=
  List.filterMap_append (l := [outcome])

end Event

namespace Machine

/-- The outcomes of slices with the given budgets and the machine after them. The host stops
when the machine has stopped or there was a fault. -/
def slices : List Nat → Machine → List (Except Fault Event) × Machine
  | [], machine => ([], machine)
  | cycles :: budgets, machine =>
    let (outcome, next) := machine.execute cycles
    if Event.endsRun outcome then ([outcome], next)
    else
      let rest := slices budgets next
      (outcome :: rest.1, rest.2)

theorem slices_of_endsRun {cycles : Nat} {machine next : Machine}
    {outcome : Except Fault Event} (h : machine.execute cycles = (outcome, next))
    (hends : Event.endsRun outcome = true) (budgets : List Nat) :
    machine.slices (cycles :: budgets) = ([outcome], next) := by
  rw [slices, h]
  exact if_pos hends

theorem slices_of_not_endsRun {cycles : Nat} {machine next : Machine}
    {outcome : Except Fault Event} (h : machine.execute cycles = (outcome, next))
    (hends : Event.endsRun outcome = false) (budgets : List Nat) :
    machine.slices (cycles :: budgets)
      = (outcome :: (next.slices budgets).1, (next.slices budgets).2) := by
  rw [slices, h]
  exact if_neg (by simp [hends])

/-- The events of equal slices are those of slices with equal budgets. -/
theorem events_eq_slices (cycles count : Nat) (machine : Machine) :
    machine.events cycles count = machine.slices (List.replicate count cycles) := by
  induction count generalizing machine with
  | zero => rfl
  | succ count ih =>
      rw [List.replicate_succ, events, slices]
      rcases machine.execute cycles with ⟨_ | _ | text | _, next⟩
      · rfl
      · simp [Event.endsRun, ih]
      · simp [Event.endsRun, ih]
      · rfl

/-! ## The walk of a run -/

/-- The texts of the print instructions that a run of at most `bound` steps executes. -/
def printed : Nat → Machine → List String
  | 0, _ => []
  | bound + 1, machine =>
    if machine.running then
      match machine.step with
      | (.ok (), next) => machine.printing?.toList ++ printed bound next
      | (.error _, _) => []
    else []

/-- Steps of a machine that runs. -/
abbrev Walk : Nat → Machine → Machine → Prop := Steps fun machine => machine.running = true

/-- The machine after the host has been told of everything that was printed. -/
abbrev told (machine : Machine) : Machine := machine.withPending ""

section

variable {machine next last : Machine} {n : Nat}

theorem printed_succ_eq_ite (machine : Machine) (bound : Nat) :
    machine.printed (bound + 1) =
      if machine.running then
        match machine.step with
        | (.ok (), next) => machine.printing?.toList ++ next.printed bound
        | (.error _, _) => []
      else [] := rfl

theorem run_succ (hrunning : machine.running = true) (hstep : machine.step = (.ok (), next))
    (bound : Nat) : machine.run (bound + 1) = next.run bound := by
  rw [run_succ_eq_ite, if_pos hrunning, hstep]

theorem printed_succ (hrunning : machine.running = true) (hstep : machine.step = (.ok (), next))
    (bound : Nat) :
    machine.printed (bound + 1) = machine.printing?.toList ++ next.printed bound := by
  rw [printed_succ_eq_ite, if_pos hrunning, hstep]

theorem run_of_stopped (h : machine.running = false) (bound : Nat) :
    machine.run bound = some (.ok machine.output, machine.told) := by
  cases bound with
  | zero => rw [run_zero_eq_ite, if_neg (by simp [h])]; rfl
  | succ bound => rw [run_succ_eq_ite, if_neg (by simp [h])]; rfl

theorem printed_of_stopped (h : machine.running = false) (bound : Nat) :
    machine.printed bound = [] := by
  cases bound with
  | zero => rfl
  | succ bound => rw [printed_succ_eq_ite, if_neg (by simp [h])]

theorem run_zero (hrunning : machine.running = true) : machine.run 0 = none := by
  rw [run_zero_eq_ite, if_pos hrunning]

theorem run_of_fault {fault : Fault} (hrunning : machine.running = true)
    (hstep : machine.step = (.error fault, next)) (bound : Nat) :
    machine.run (bound + 1) = some (.error fault, next) := by
  rw [run_succ_eq_ite, if_pos hrunning, hstep]

theorem printed_of_fault {fault : Fault} (hstep : machine.step = (.error fault, next))
    (bound : Nat) : machine.printed bound = [] := by
  cases bound with
  | zero => rfl
  | succ bound =>
      rw [printed_succ_eq_ite, hstep]
      exact ite_self []

namespace Walk

theorem run_eq (h : Walk n machine last) (bound : Nat) :
    machine.run (n + bound) = last.run bound := by
  induction h with
  | refl machine => rw [Nat.zero_add]
  | cons hrunning hstep _ ih => rw [Nat.add_right_comm, run_succ hrunning hstep, ih]

theorem printed_eq (h : Walk n machine last) (bound : Nat) :
    machine.printed (n + bound) = machine.printed n ++ last.printed bound := by
  induction h with
  | refl machine => rw [Nat.zero_add]; rfl
  | cons hrunning hstep _ ih =>
      rw [Nat.add_right_comm, printed_succ hrunning hstep, printed_succ hrunning hstep, ih,
        List.append_assoc]

/-- The output grows by the texts printed. -/
theorem output_eq (h : Walk n machine last) :
    last.output = machine.output ++ String.join (machine.printed n) := by
  induction h with
  | refl machine => exact (String.append_empty).symm
  | @cons machine next last n hrunning hstep _ ih =>
      have houtput := (step_changes machine).output
      rw [hstep] at houtput
      rw [printed_succ hrunning hstep, String.join_append, ← String.append_assoc, ih, houtput]
      cases machine.printing? with
      | none => simp
      | some text => simp

/-- A run does not end before the walk does. -/
theorem run_eq_none (h : Walk n machine last) {bound : Nat} (hlt : bound < n) :
    machine.run bound = none := by
  induction h generalizing bound with
  | refl machine => omega
  | cons hrunning hstep _ ih =>
      cases bound with
      | zero => exact run_zero hrunning
      | succ bound =>
          rw [run_succ hrunning hstep]
          exact ih (by omega)

end Walk

/-- A run that has ended in a number of steps stays the same with more of them. -/
theorem run_add {bound : Nat} {ended : Except Fault String × Machine}
    (h : machine.run bound = some ended) (more : Nat) :
    machine.run (bound + more) = some ended ∧
      machine.printed (bound + more) = machine.printed bound := by
  -- it has ended before the bound is reached, so the bound has no part in it
  induction bound generalizing machine with
  | zero =>
      cases hrunning : machine.running with
      | false =>
          rw [run_of_stopped hrunning] at h ⊢
          exact ⟨h, printed_of_stopped hrunning _⟩
      | true =>
          rw [run_zero hrunning] at h
          cases h
  | succ bound ih =>
      rw [Nat.add_right_comm]
      cases hrunning : machine.running with
      | false =>
          rw [run_of_stopped hrunning] at h ⊢
          rw [printed_of_stopped hrunning, printed_of_stopped hrunning]
          exact ⟨h, rfl⟩
      | true =>
          rcases hstep : machine.step with ⟨fault | _, next⟩
          · rw [run_of_fault hrunning hstep] at h ⊢
            rw [printed_of_fault hstep, printed_of_fault hstep]
            exact ⟨h, rfl⟩
          · rw [run_succ hrunning hstep] at h ⊢
            obtain ⟨hrun, hprinted⟩ := ih h
            rw [printed_succ hrunning hstep, printed_succ hrunning hstep, hprinted]
            exact ⟨hrun, rfl⟩

/-- What an outcome tells of the last machine of a walk, and the machine it leaves behind. -/
def Leaves (last : Machine) : Except Fault Event → Machine → Prop
  | .ok .stopped, next => last.running = false ∧ next = last.told
  | .ok _, next => next = last.told
  | .error fault, next =>
    last.running = true ∧ last.step.1 = .error fault ∧ next = last.step.2.told

theorem Leaves.of_not_endsRun {outcome : Except Fault Event} (h : Leaves last outcome next)
    (hends : Event.endsRun outcome = false) : next = last.told := by
  rcases outcome with fault | _ | text | _
  · cases hends
  · exact h
  · exact h
  · cases hends

theorem step_told (machine : Machine) :
    machine.told.step = (machine.step.1, machine.step.2.withPending machine.printedText) := by
  rw [step_withPending, String.empty_append]

theorem execute_of_stopped (h : machine.running = false) (cycles : Nat) :
    machine.told.execute cycles = (.ok .stopped, machine.told) := by
  cases cycles with
  | zero => rw [execute_zero_eq_ite, running_withPending, if_neg (by simp [h])]
  | succ cycles => rw [execute_succ_eq_ite, running_withPending, if_neg (by simp [h])]

theorem execute_zero (hrunning : machine.running = true) :
    machine.told.execute 0 = (.ok .running, machine.told) := by
  rw [execute_zero_eq_ite, running_withPending, if_pos hrunning]

theorem execute_of_fault {fault : Fault} (hrunning : machine.running = true)
    (hstep : machine.step = (.error fault, next)) (cycles : Nat) :
    machine.told.execute (cycles + 1)
      = (.error fault, next.withPending machine.printedText) := by
  rw [execute_succ_eq_ite, running_withPending, if_pos hrunning, step_told, hstep]

/-- A step that prints nothing is followed by the rest of the slice. -/
theorem execute_of_silent (hrunning : machine.running = true)
    (hstep : machine.step = (.ok (), next)) (hprinting : machine.printing? = none)
    (cycles : Nat) :
    machine.told.execute (cycles + 1) = next.told.execute cycles := by
  have hsilent : machine.printedText = "" := printedText_eq_empty_iff.mpr hprinting
  rw [execute_succ_eq_ite, running_withPending, if_pos hrunning, step_told, hstep, hsilent]
  exact if_pos rfl

/-- A step that prints ends the slice. -/
theorem execute_of_print {text : String} (hrunning : machine.running = true)
    (hstep : machine.step = (.ok (), next)) (hprinting : machine.printing? = some text)
    (cycles : Nat) :
    machine.told.execute (cycles + 1) = (.ok (.print text), next.told) := by
  have htext : machine.printedText = text := by rw [printedText, hprinting, Option.getD_some]
  rw [execute_succ_eq_ite, running_withPending, if_pos hrunning, step_told, hstep, htext]
  exact if_neg (ne_empty_of_printing? hprinting)

/-- An instruction that fails prints nothing. -/
theorem printedText_of_fault {fault : Fault} (hstep : machine.step = (.error fault, next)) :
    machine.printedText = "" := by
  cases ends_iff.mpr hstep with
  | undecoded h => exact printedText_of_instruction_error h
  | refused h hrefuses => rw [printedText_of_instruction h, hrefuses.text?_eq, Option.getD_none]

/-- A slice walks along the run up to the first print, and tells of it. -/
theorem exists_walk_of_execute (cycles : Nat) (machine : Machine) :
    ∃ n last, Walk n machine last ∧
      Event.texts [(machine.told.execute cycles).1] = machine.printed n ∧
      Leaves last (machine.told.execute cycles).1 (machine.told.execute cycles).2 ∧
      (0 < cycles → Event.endsRun (machine.told.execute cycles).1 = false → 0 < n) := by
  induction cycles generalizing machine with
  | zero =>
      cases hrunning : machine.running with
      | false =>
          rw [execute_of_stopped hrunning]
          exact ⟨0, machine, .refl machine, rfl, ⟨hrunning, rfl⟩, by omega⟩
      | true =>
          rw [execute_zero hrunning]
          exact ⟨0, machine, .refl machine, rfl, rfl, by omega⟩
  | succ cycles ih =>
      cases hrunning : machine.running with
      | false =>
          rw [execute_of_stopped hrunning]
          exact ⟨0, machine, .refl machine, rfl, ⟨hrunning, rfl⟩, by simp [Event.endsRun]⟩
      | true =>
          rcases hstep : machine.step with ⟨fault | _, next⟩
          -- a fault ends the slice at the machine that is about to fail
          · rw [execute_of_fault hrunning hstep, printedText_of_fault hstep]
            exact ⟨0, machine, .refl machine, rfl, ⟨hrunning, by rw [hstep], by rw [hstep]⟩,
              by simp [Event.endsRun]⟩
          · cases hprinting : machine.printing? with
            | none =>
                -- The slice goes on, so its outcome is the one of the rest.
                rw [execute_of_silent hrunning hstep hprinting]
                obtain ⟨n, last, hwalk, htexts, hleaves, -⟩ := ih next
                refine ⟨n + 1, last, .cons hrunning hstep hwalk, ?_, hleaves, by omega⟩
                rw [htexts, printed_succ hrunning hstep, hprinting]
                rfl
            | some text =>
                rw [execute_of_print hrunning hstep hprinting]
                refine ⟨1, next, .single hrunning hstep, ?_, rfl, by omega⟩
                rw [printed_succ hrunning hstep, hprinting]
                rfl

/-- Slices one after the other walk along the run. If the host has not come to its end, every
slice has taken at least one step. -/
theorem exists_walk_of_slices (budgets : List Nat) (machine : Machine) :
    ∃ n last, Walk n machine last ∧
      Event.texts (machine.told.slices budgets).1 = machine.printed n ∧
      (∀ outcome, Event.ending? (machine.told.slices budgets).1 = some outcome →
        Leaves last outcome (machine.told.slices budgets).2) ∧
      ((∀ cycles ∈ budgets, 0 < cycles) → ¬ Event.Ended (machine.told.slices budgets).1 →
        budgets.length ≤ n) := by
  induction budgets generalizing machine with
  | nil =>
      refine ⟨0, machine, .refl machine, rfl, ?_, by simp⟩
      intro outcome h
      cases h
  | cons cycles budgets ih =>
      obtain ⟨n, next, hwalk, htexts, hleaves, hpositive⟩ := exists_walk_of_execute cycles machine
      rcases hslice : machine.told.execute cycles with ⟨outcome, after⟩
      rw [hslice] at htexts hleaves hpositive
      cases hends : Event.endsRun outcome with
      -- nothing is run after the end, so the later budgets do not matter
      | true =>
          rw [slices_of_endsRun hslice hends]
          have hending := Event.ending?_singleton hends
          refine ⟨n, next, hwalk, htexts, ?_, ?_⟩
          · intro outcome' h
            obtain rfl : outcome = outcome' := Option.some.inj (hending.symm.trans h)
            exact hleaves
          · intro _ hgoes
            exact absurd (by rw [Event.Ended, hending]; rfl) hgoes
      | false =>
          -- the next slice begins where the walk of this one has come to
          obtain rfl : after = next.told := hleaves.of_not_endsRun hends
          rw [slices_of_not_endsRun hslice hends]
          obtain ⟨n', last, hwalk', htexts', hleaves', hcount⟩ := ih next
          refine ⟨n + n', last, hwalk.trans hwalk', ?_, ?_, ?_⟩
          · rw [Event.texts_cons, htexts, htexts', hwalk.printed_eq]
          · intro outcome' h
            rw [Event.ending?_cons hends] at h
            exact hleaves' outcome' h
          · intro hbudgets hgoes
            obtain ⟨hcycles, hbudgets⟩ := List.forall_mem_cons.mp hbudgets
            rw [Event.Ended, Event.ending?_cons hends] at hgoes
            have hfirst := hpositive hcycles hends
            have hrest := hcount hbudgets hgoes
            rw [List.length_cons]
            omega

/-- The run ends where the slices end. -/
theorem Leaves.run_eq {outcome : Except Fault Event} (h : Leaves last outcome next)
    (hends : Event.endsRun outcome = true) :
    last.printed 1 = [] ∧ ∃ result final, last.run 1 = some (result, final) ∧
      outcome = result.map (fun _ => .stopped) ∧ next = final.told ∧
      final.output = last.output := by
  rcases outcome with fault | _ | text | _
  · obtain ⟨hrunning, hfault, rfl⟩ := h
    have hstep : last.step = (.error fault, last.step.2) := by rw [← hfault]
    have houtput : last.step.2.output = last.output ++ last.printedText := (step_changes last).output
    rw [printedText_of_fault hstep, String.append_empty] at houtput
    exact ⟨printed_of_fault hstep 1,
      .error fault, last.step.2, run_of_fault hrunning hstep 0, rfl, rfl, houtput⟩
  · cases hends
  · cases hends
  · obtain ⟨hstopped, rfl⟩ := h
    exact ⟨printed_of_stopped hstopped 1,
      .ok last.output, last.told, run_of_stopped hstopped _, rfl, rfl, rfl⟩

/-! ## The main statement -/

/-- What slices have in common with the run: they come to the same end, leave the same machine
behind (up to the text that is still to be told, which is none) and print the same texts, which
make up the output. -/
structure AgreesWith (slices : List (Except Fault Event) × Machine)
    (run : Except Fault String × Machine) (texts : List String) : Prop where
  ending : Event.ending? slices.1 = some (run.1.map fun _ => .stopped)
  machine : slices.2 = run.2.told
  texts : Event.texts slices.1 = texts
  output : String.join (Event.texts slices.1) = slices.2.output

/-- Slices that have ended agree with the run of some length. -/
theorem exists_run_of_ended (machine : Machine) {budgets : List Nat}
    (hempty : machine.output = "") (h : Event.Ended (machine.told.slices budgets).1) :
    ∃ bound ended, machine.run bound = some ended ∧
      AgreesWith (machine.told.slices budgets) ended (machine.printed bound) := by
  obtain ⟨n, last, hwalk, htexts, hleaves, -⟩ := exists_walk_of_slices budgets machine
  obtain ⟨outcome, hending⟩ := Option.isSome_iff_exists.mp h
  obtain ⟨hprinted, result, final, hrun, rfl, hfinal, houtput⟩ :=
    (hleaves outcome hending).run_eq (Event.endsRun_of_ending? hending)
  have hsame : machine.printed (n + 1) = machine.printed n := by
    rw [hwalk.printed_eq, hprinted, List.append_nil]
  have hend : machine.run (n + 1) = some (result, final) := by rw [hwalk.run_eq, hrun]
  refine ⟨n + 1, (result, final), hend, hending, hfinal, htexts.trans hsame.symm, ?_⟩
  calc String.join (Event.texts (machine.told.slices budgets).1)
      = machine.output ++ String.join (machine.printed n) := by
        rw [htexts, hempty, String.empty_append]
    _ = last.output := hwalk.output_eq.symm
    _ = (machine.told.slices budgets).2.output := by rw [hfinal, output_withPending, houtput]

/-- Slices come to an end when the run does: each of them that is not the last takes a step. -/
theorem ended_of_run (machine : Machine) {budgets : List Nat} {bound : Nat}
    {ended : Except Fault String × Machine} (hrun : machine.run bound = some ended)
    (hpositive : ∀ cycles ∈ budgets, 0 < cycles) (hlong : bound < budgets.length) :
    Event.Ended (machine.told.slices budgets).1 := by
  obtain ⟨n, last, hwalk, -, -, hcount⟩ := exists_walk_of_slices budgets machine
  by_contra hgoes
  have hlt : bound < n := Nat.lt_of_lt_of_le hlong (hcount hpositive hgoes)
  rw [hwalk.run_eq_none hlt] at hrun
  cases hrun

/-- **Slices agree with the run, whatever their lengths.** After a program was loaded, slices
that end do so only if the run ends; and if the run ends, slices of positive lengths come to an
end too, leave the same machine with the same fault, and print one text for each print
instruction of the run, which make up the output. -/
theorem slices_agree_with_run (machine : Machine) (program : Program) :
    let start := machine.load program
    (∀ budgets, Event.Ended (start.slices budgets).1 → ∃ bound, (start.run bound).isSome) ∧
    ∀ bound ended, start.run bound = some ended →
      (∀ budgets, (∀ cycles ∈ budgets, 0 < cycles) → bound < budgets.length →
        Event.Ended (start.slices budgets).1) ∧
      ∀ budgets, Event.Ended (start.slices budgets).1 →
        AgreesWith (start.slices budgets) ended (start.printed bound) := by
  intro start
  -- Loading leaves nothing to be told, so the slices begin with a machine that has been told.
  have htold : start.told = start := rfl
  have hempty : start.output = "" := rfl
  refine ⟨?_, ?_⟩
  · intro budgets h
    obtain ⟨bound, ended, hrun, -⟩ := exists_run_of_ended start hempty h
    exact ⟨bound, by rw [hrun]; rfl⟩
  · intro bound ended hrun
    refine ⟨fun budgets => ended_of_run start hrun, ?_⟩
    intro budgets h
    obtain ⟨bound', ended', hrun', hagrees⟩ := exists_run_of_ended start hempty h
    -- Both bounds are long enough, so they give the same end and the same texts.
    obtain ⟨hlong, htexts⟩ := run_add hrun bound'
    obtain ⟨hlong', htexts'⟩ := run_add hrun' bound
    rw [Nat.add_comm] at hlong' htexts'
    obtain rfl : ended = ended' := Option.some.inj (hlong.symm.trans hlong')
    rw [← htexts, htexts']
    exact hagrees

end

namespace Slices.Sample

/-- `DPRINT 1`, `MOV [0] 0`, `APRINT 65`, `HALT`. -/
def printer : Program where
  words := #[35, 1, 8, 0, 0, 33, 65, 255]

def host : Machine := .create .default [] default

end Slices.Sample

open Slices.Sample in
theorem slices_agree_with_run_sample :
    let start := host.load printer
    (start.run 4).isSome ∧ start.printed 4 = ["1", "A"] ∧
      ∀ ended, start.run 4 = some ended →
        AgreesWith (start.slices [100, 1, 100, 100, 100]) ended ["1", "A"] := by
  intro start
  have hrun : (start.run 4).isSome := by decide +kernel
  have hprinted : start.printed 4 = ["1", "A"] := by decide +kernel
  refine ⟨hrun, hprinted, ?_⟩
  intro ended h
  obtain ⟨hended, hagrees⟩ := (slices_agree_with_run host printer).2 4 ended h
  rw [← hprinted]
  exact hagrees _ (hended _ (by decide) (by decide))

end Machine

end CellAsm
