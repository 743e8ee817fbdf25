import CellAsm.Proofs.Machine.Cells
import CellAsm.Proofs.Machine.Slices
import CellAsm.Proofs.Machine.TextForm
import Mathlib.Data.List.DropRight

set_option autoImplicit false

/-! # The life of a machine

A machine is created once. After that its owner loads programs and enters texts, and lets it step,
run or execute slices, in any order and whether or not a request succeeds. What happens to the
machine in the course of this are moments: a program is loaded, or a step is taken. The moments of a
life are its history, and the state of the machine is what the history records (`Recorded`): each
kind of moment adds to the record (`Recorded.load`, `Recorded.step`, `Recorded.told`), every request
is a sequence of moments (`passes_after`), and so is a life.
-/

namespace CellAsm

/-! ## Histories -/

/-- What happens to a machine at once. -/
inductive Moment where
  /-- A program is loaded. -/
  | loaded (program : Program)
  /-- A step is taken; it ends with the result and prints the text. -/
  | stepped (result : Except Fault Unit) (text : String)

namespace Moment

def program? : Moment → Option Program
  | loaded program => some program
  | stepped _ _ => none

def isStep : Moment → Bool
  | loaded _ => false
  | stepped _ _ => true

/-- Whether the moment is a step that succeeds. -/
def isSuccess : Moment → Bool
  | loaded _ => false
  | stepped result _ => result.isOk

/-- The text that is printed. -/
def text : Moment → String
  | loaded _ => ""
  | stepped _ text => text

end Moment

/-- What has happened to a machine since it was created, in order. -/
abbrev History := List Moment

namespace History

/-- The program that was loaded last. A machine without one has the empty program. -/
def program (history : History) : Program :=
  (history.filterMap Moment.program?).getLast?.getD {}

/-- What has happened since a program was loaded last, or since the beginning. -/
def sinceLoad (history : History) : History := history.rtakeWhile Moment.isStep

variable {history : History}

theorem program_snoc_loaded (history : History) (program : Program) :
    History.program (history ++ [.loaded program]) = program := by
  simp [History.program, Moment.program?]

theorem sinceLoad_snoc_loaded (history : History) (program : Program) :
    History.sinceLoad (history ++ [.loaded program]) = [] :=
  List.rtakeWhile_concat_neg _ _ _ (by simp [Moment.isStep])

/-- Steps do not load a program. -/
theorem program_append_steps {steps : History} (h : ∀ moment ∈ steps, moment.isStep = true) :
    History.program (history ++ steps) = history.program := by
  have hnone : steps.filterMap Moment.program? = [] := by
    refine List.filterMap_eq_nil_iff.mpr fun moment hmoment => ?_
    cases moment with
    | loaded program => exact absurd (h _ hmoment) (by simp [Moment.isStep])
    | stepped result text => rfl
  rw [program, program, List.filterMap_append, hnone, List.append_nil]

theorem sinceLoad_append_steps {steps : History} (h : ∀ moment ∈ steps, moment.isStep = true) :
    History.sinceLoad (history ++ steps) = history.sinceLoad ++ steps := by
  induction steps using List.reverseRecOn with
  | nil => rw [List.append_nil, List.append_nil]
  | append_singleton steps moment ih =>
      rw [List.forall_mem_append, List.forall_mem_singleton] at h
      rw [← List.append_assoc, sinceLoad, List.rtakeWhile_concat_pos _ _ _ h.2, ← List.append_assoc,
        ← ih h.1, sinceLoad]

end History

/-! ## The range of cells -/

namespace Memory

/-- No cell holds more than fits it. -/
def InRange (memory : Memory) : Prop := ∀ word ∈ memory.cells, word ≤ memory.mask

theorem inRange_replicate (count : Nat) (mask : UInt64) :
    InRange ⟨Array.replicate count 0, mask⟩ := by
  intro word hword
  obtain ⟨-, rfl⟩ := Array.mem_replicate.mp hword
  exact UInt64.le_iff_toNat_le.mpr (Nat.zero_le _)

variable {memory : Memory}

/-- Whatever is stored, the bits above the word size are lost. -/
theorem InRange.set (h : memory.InRange) (address value : UInt64)
    (haddress : address.toNat < memory.size) : (memory.set address value haddress).InRange := by
  intro word hword
  rcases Array.mem_or_eq_of_mem_set (w := haddress) hword with hold | rfl
  · exact h word hold
  · have hle : (value &&& memory.mask).toNat ≤ memory.mask.toNat := by
      rw [UInt64.toNat_and]
      exact Nat.and_le_right
    exact UInt64.le_iff_toNat_le.mpr hle

end Memory

namespace Machine

variable {config : Config} {machine next last : Machine} {past : History}

/-! ## What a step counts and tells -/

/-- An outcome counts as one tick if it is a success. -/
def Counts (machine : Machine) (outcome : Except Fault Unit × Machine) : Prop :=
  outcome.2.ticks = machine.ticks + if outcome.1.isOk then 1 else 0

/-- **A step counts if it succeeds.** -/
theorem counts_step (machine : Machine) : machine.Counts machine.step := by
  have hends := machine.ends_step
  generalize machine.step = outcome at hends ⊢
  cases hends with
  | undecoded h => rfl
  | refused h hrefuses =>
      rw [hrefuses.same]
      rfl
  | performed h hperforms => cases hperforms <;> rfl

/-- What a step prints is still to be told. -/
theorem pending_step (machine : Machine) :
    machine.step.2.pending = machine.pending ++ machine.printedText :=
  congrArg (fun outcome => outcome.2.pending) (step_withPending machine machine.pending)

/-! ## What a history records -/

/-- What the history of a machine says about its state. -/
structure Recorded (config : Config) (history : History) (machine : Machine) : Prop where
  config_eq : machine.config = config
  /-- The memory has the number of cells and the word size that were asked for. -/
  fits : machine.memory.Fits config
  /-- No cell holds more than the word size allows. -/
  cells_le : ∀ word ∈ machine.memory.cells, word ≤ config.wordMask
  /-- The program is the one that was loaded last. -/
  program_eq : machine.program = history.program
  /-- The output is what the steps since then have printed. -/
  output_eq : machine.output = String.join (history.sinceLoad.map Moment.text)
  /-- The text that is still to be told is the end of the output. -/
  pending_suffix : ∃ told, machine.output = told ++ machine.pending
  /-- The ticks are the successful steps since then. -/
  ticks_eq : machine.ticks = history.sinceLoad.countP Moment.isSuccess

/-- The moment at which a machine takes a step. -/
abbrev stepMoment (machine : Machine) : Moment := .stepped machine.step.1 machine.printedText

namespace Recorded

theorem create (config : Config) (input : List InputItem) (draws : Draws) :
    Recorded config [] (create config input draws) where
  config_eq := rfl
  fits := fits_create config input draws
  cells_le := Memory.inRange_replicate config.memorySize config.wordMask
  program_eq := rfl
  output_eq := rfl
  pending_suffix := ⟨"", rfl⟩
  ticks_eq := rfl

theorem inRange (h : Recorded config past machine) : machine.memory.InRange := by
  rw [Memory.InRange, h.fits.mask]
  exact h.cells_le

theorem load (h : Recorded config past machine) (program : Program) :
    Recorded config (past ++ [.loaded program]) (machine.load program) where
  config_eq := h.config_eq
  fits := fits_load h.fits program
  cells_le := by
    rw [← h.fits.mask]
    exact Memory.inRange_replicate machine.memory.size machine.memory.mask
  program_eq := (past.program_snoc_loaded program).symm
  output_eq := by rw [past.sinceLoad_snoc_loaded]; rfl
  pending_suffix := ⟨"", rfl⟩
  ticks_eq := by rw [past.sinceLoad_snoc_loaded]; rfl

theorem step (h : Recorded config past machine) :
    Recorded config (past ++ [stepMoment machine]) machine.step.2 := by
  have hsteps : ∀ moment ∈ [stepMoment machine], moment.isStep = true := by simp [Moment.isStep]
  have hchanges := machine.step_changes
  have houtput : machine.step.2.output = machine.output ++ machine.printedText := hchanges.output
  have hfits : machine.step.2.memory.Fits config := fits_step h.fits
  -- at most one cell is stored to, and it is cut to the word size
  have hcells : machine.step.2.memory.InRange := by
    rcases hchanges.memory with hsame | ⟨address, value, haddress, -, hset⟩
    · rw [hsame]
      exact h.inRange
    · rw [hset]
      exact h.inRange.set address value haddress
  refine ⟨hchanges.config.trans h.config_eq, hfits, hfits.mask ▸ hcells, ?_, ?_, ?_, ?_⟩
  · rw [History.program_append_steps hsteps, hchanges.program, h.program_eq]
  · rw [History.sinceLoad_append_steps hsteps, houtput, h.output_eq, List.map_append,
      String.join_append]
    simp [Moment.text]
  · obtain ⟨told, htold⟩ := h.pending_suffix
    exact ⟨told, by rw [houtput, htold, pending_step, String.append_assoc]⟩
  · have hcount : [stepMoment machine].countP Moment.isSuccess
        = if machine.step.1.isOk then 1 else 0 := List.countP_singleton
    rw [History.sinceLoad_append_steps hsteps, List.countP_append, hcount, ← h.ticks_eq]
    exact machine.counts_step

/-- Telling the host what was printed is not recorded. -/
theorem told (h : Recorded config past machine) : Recorded config past machine.told where
  config_eq := h.config_eq
  fits := h.fits
  cells_le := h.cells_le
  program_eq := h.program_eq
  output_eq := h.output_eq
  pending_suffix := ⟨machine.output, String.append_empty.symm⟩
  ticks_eq := h.ticks_eq

end Recorded

/-! ## What an owner asks for -/

/-- What the owner of a machine can ask it for. -/
inductive Request where
  | load (program : Program)
  | enter (files : Files) (text : String)
  | call (call : Call)

/-- The machine after a request, whether or not it succeeded; `none` if a run was given up. -/
def after (machine : Machine) : Request → Option Machine
  | .load program => some (machine.load program)
  | .enter files text => some (machine.enter text files).2
  | .call call => (machine.answer call).map Prod.snd

/-- The machine after requests one after the other. -/
def live (machine : Machine) (requests : List Request) : Option Machine :=
  requests.foldlM after machine

/-! ## The history of requests -/

/-- The steps of a machine that runs, at most `bound` of them. They end with a fault, or when the
machine after a step is one that makes it return. -/
def stepsUntil (returns : Machine → Bool) : Nat → Machine → History
  | 0, _ => []
  | bound + 1, machine =>
    if machine.running then
      stepMoment machine ::
        match machine.step with
        | (.ok (), next) => if returns next then [] else stepsUntil returns bound next
        | (.error _, _) => []
    else []

/-- What happens in the course of a request. A run returns when the machine stops, a slice also when
there is something to tell. -/
def moments (machine : Machine) : Request → History
  | .load program => [.loaded program]
  | .enter files text =>
    match Assembler.assembleText machine.config text files with
    | .ok program => [.loaded program]
    | .error _ => []
  | .call .step => [stepMoment machine]
  | .call (.run bound) => machine.stepsUntil (fun _ => false) bound
  | .call (.execute cycles) => machine.stepsUntil (fun next => next.pending ≠ "") cycles

/-- What happens in the course of requests. -/
def history (machine : Machine) : List Request → History
  | [] => []
  | request :: requests =>
    machine.moments request ++ (machine.after request).elim [] fun next => next.history requests

/-- From one machine the moments lead to another one; in between a host may be told of prints. -/
inductive Passes : Machine → History → Machine → Prop
  | refl (machine : Machine) : Passes machine [] machine
  | load {machine last : Machine} {moments : History} (program : Program)
      (h : Passes (machine.load program) moments last) :
      Passes machine (.loaded program :: moments) last
  | step {machine last : Machine} {moments : History} (h : Passes machine.step.2 moments last) :
      Passes machine (stepMoment machine :: moments) last
  | tell {machine last : Machine} {moments : History} (h : Passes machine.told moments last) :
      Passes machine moments last

namespace Passes

theorem trans {first second : History} (h : Passes machine first next)
    (h' : Passes next second last) : Passes machine (first ++ second) last := by
  induction h with
  | refl machine => exact h'
  | load program _ ih => exact .load program (ih h')
  | step _ ih => exact .step (ih h')
  | tell _ ih => exact .tell (ih h')

theorem told (machine : Machine) : Passes machine [] machine.told := .tell (.refl machine.told)

/-- What every moment keeps is kept. -/
theorem preserves {P : Machine → Prop} {moments : History}
    (hload : ∀ (machine : Machine) program, P machine → P (machine.load program))
    (hstep : ∀ machine, P machine → P machine.step.2)
    (htold : ∀ machine, P machine → P machine.told)
    (h : Passes machine moments last) (hP : P machine) : P last := by
  induction h with
  | refl machine => exact hP
  | load program _ ih => exact ih (hload _ program hP)
  | step _ ih => exact ih (hstep _ hP)
  | tell _ ih => exact ih (htold _ hP)

/-- The moments that lead to a machine are added to what is recorded. -/
theorem recorded {moments : History} (h : Passes machine moments last)
    (hrecorded : Recorded config past machine) : Recorded config (past ++ moments) last := by
  induction h generalizing past with
  | refl machine => rwa [List.append_nil]
  | load program _ ih =>
      rw [← List.singleton_append, ← List.append_assoc]
      exact ih (hrecorded.load program)
  | step _ ih =>
      rw [← List.singleton_append, ← List.append_assoc]
      exact ih hrecorded.step
  | tell _ ih => exact ih hrecorded.told

end Passes

/-! ### Requests are sequences of moments -/

theorem passes_run {bound : Nat} {result : Except Fault String}
    (h : machine.run bound = some (result, last)) :
    Passes machine (machine.stepsUntil (fun _ => false) bound) last := by
  -- a run tells what was printed when it returns, which is not a moment
  induction bound generalizing machine with
  | zero =>
      rw [run_zero_eq_ite] at h
      split at h
      · cases h
      · obtain ⟨-, rfl⟩ := Prod.mk.inj (Option.some.inj h)
        exact .told machine
  | succ bound ih =>
      rw [run_succ_eq_ite] at h
      rw [stepsUntil]
      split at h
      · next hrunning =>
          rw [if_pos hrunning]
          refine .step ?_
          rcases hstep : machine.step with ⟨fault | _, next⟩
          · rw [hstep] at h
            obtain ⟨-, rfl⟩ := Prod.mk.inj (Option.some.inj h)
            exact .refl _
          · rw [hstep] at h
            exact ih h
      · next hstopped =>
          rw [if_neg hstopped]
          obtain ⟨-, rfl⟩ := Prod.mk.inj (Option.some.inj h)
          exact .told machine

theorem passes_execute (cycles : Nat) (machine : Machine) :
    Passes machine (machine.stepsUntil (fun next => next.pending ≠ "") cycles)
      (machine.execute cycles).2 := by
  induction cycles generalizing machine with
  | zero => exact .refl machine
  | succ cycles ih =>
      rw [execute_succ_eq_ite, stepsUntil]
      split
      · refine .step ?_
        rcases machine.step with ⟨fault | _, next⟩
        · exact .refl next
        · by_cases hsilent : next.pending = ""
          · simp only [hsilent, if_true, ne_eq, not_true_eq_false, decide_false, Bool.false_eq_true,
              if_false]
            exact ih next
          · simp only [hsilent, if_false, ne_eq, not_false_eq_true, decide_true, if_true]
            exact .told next
      · exact .refl machine

/-- **A request is the sequence of its moments.** -/
theorem passes_after {request : Request} (h : machine.after request = some last) :
    Passes machine (machine.moments request) last := by
  cases request with
  | load program =>
      obtain rfl := Option.some.inj h
      exact .load program (.refl _)
  | enter files text =>
      obtain rfl := Option.some.inj h
      rw [enter, moments]
      cases Assembler.assembleText machine.config text files with
      | ok program => exact .load program (.refl _)
      | error fault => exact .refl machine
  | call call =>
      obtain ⟨⟨answer, reached⟩, hanswer, rfl⟩ := Option.map_eq_some_iff.mp h
      cases call with
      | step =>
          obtain ⟨-, rfl⟩ := Prod.mk.inj (Option.some.inj hanswer)
          exact .step (.refl _)
      | run bound =>
          obtain ⟨⟨result, ended⟩, hrun, hended⟩ := Option.map_eq_some_iff.mp hanswer
          obtain ⟨-, rfl⟩ := Prod.mk.inj hended
          exact passes_run hrun
      | execute cycles =>
          obtain ⟨-, rfl⟩ := Prod.mk.inj (Option.some.inj hanswer)
          exact passes_execute cycles machine

theorem passes_live {requests : List Request} (h : machine.live requests = some last) :
    Passes machine (machine.history requests) last := by
  induction requests generalizing machine with
  | nil =>
      obtain rfl := Option.some.inj h
      exact .refl machine
  | cons request requests ih =>
      obtain ⟨next, hnext, hlive⟩ := Option.bind_eq_some_iff.mp h
      rw [history, hnext]
      exact (passes_after hnext).trans (ih hlive)

/-- **The state of a machine is what its history records**, whatever has been asked of it since it
was created. Later requests in the course of which nothing is loaded leave the program and add to
the output. -/
theorem recorded_of_live (config : Config) (input : List InputItem) (draws : Draws)
    {requests : List Request} {last : Machine}
    (h : (create config input draws).live requests = some last) :
    Recorded config ((create config input draws).history requests) last ∧
      ∀ more later, last.live more = some later →
        (∀ moment ∈ last.history more, moment.isStep = true) →
        later.program = last.program ∧ ∃ text, later.output = last.output ++ text := by
  have hlast := (passes_live h).recorded (.create config input draws)
  rw [List.nil_append] at hlast
  refine ⟨hlast, ?_⟩
  intro more later hmore hsteps
  have hlater := (passes_live hmore).recorded hlast
  refine ⟨?_, String.join ((last.history more).map Moment.text), ?_⟩
  · rw [hlater.program_eq, History.program_append_steps hsteps, hlast.program_eq]
  · rw [hlater.output_eq, History.sinceLoad_append_steps hsteps, List.map_append,
      String.join_append, hlast.output_eq]

namespace Life.Sample

/-- `MOV [0] 300`, `SUB [1] 1`, `DPRINT [0]`, `HALT`. -/
def printer : Program where
  words := #[8, 0, 300, 13, 1, 1, 34, 0, 255]

def host : Machine := .create .default [] default

/-- A step without a program fails; of the steps behind the load the last one fails, because it is
taken behind the end of the program. -/
def requests : List Request :=
  [.call .step, .load printer, .call .step, .call (.execute 100), .call (.run 100), .call .step]

end Life.Sample

open Life.Sample in
theorem recorded_of_live_sample :
    ∃ last, host.live requests = some last ∧ last.program = printer ∧ last.output = "44" ∧
      last.ticks = 4 ∧ (∀ word ∈ last.memory.cells, word ≤ Config.default.wordMask) ∧
      ∃ later, last.live [.call .step] = some later ∧ later.program = printer ∧
        ∃ text, later.output = "44" ++ text := by
  have hlive : (host.live requests).isSome = true := by decide +kernel
  obtain ⟨last, hlast⟩ := Option.isSome_iff_exists.mp hlive
  obtain ⟨hrecorded, hmore⟩ := recorded_of_live .default [] default hlast
  have hprogram : History.program (host.history requests) = printer := by decide +kernel
  have houtput : String.join ((host.history requests).sinceLoad.map Moment.text) = "44" := by
    decide +kernel
  have hticks : (host.history requests).sinceLoad.countP Moment.isSuccess = 4 := by decide +kernel
  obtain ⟨hkept, hgrown⟩ := hmore [.call .step] _ rfl (by simp [history, moments, after, answer,
    Moment.isStep])
  refine ⟨last, hlast, hrecorded.program_eq.trans hprogram, hrecorded.output_eq.trans houtput,
    hrecorded.ticks_eq.trans hticks, hrecorded.cells_le, _, rfl, ?_, ?_⟩
  · rw [hkept]
    exact hrecorded.program_eq.trans hprogram
  · rwa [hrecorded.output_eq.trans houtput] at hgrown

end Machine

end CellAsm
