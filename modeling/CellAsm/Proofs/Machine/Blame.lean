import CellAsm.Proofs.Machine.Steps
import CellAsm.Proofs.Program.Covering

set_option autoImplicit false

/-! # Which line is blamed

A fault is blamed on the line of the instruction at the instruction pointer. Behind the end of the
program there is none, and the machine blames the instruction that it began before: it notes the
address of every instruction that it begins (`notes_step`). In a run without faults this is the
instruction that ran off the end of the program or jumped behind it, so whatever a program does,
its first fault is blamed on the line of the source that is at fault
(`fault_blames_source_line`).
-/

namespace CellAsm.Machine

section

variable {machine last : Machine} {fault : Fault}

/-! ## What a step notes -/

/-- An outcome of a step from an address: the address is noted, and a fault has the line that is to
be blamed. -/
structure Notes (address : Nat) (blamed : Option Line) (outcome : Except Fault Unit × Machine) :
    Prop where
  lastIp : outcome.2.lastIp = some address
  line : ∀ fault, outcome.1 = .error fault → fault.line = blamed

/-- **Every step notes where it begins**, whether or not it succeeds. -/
theorem notes_step (machine : Machine) : Notes machine.ip machine.blame machine.step := by
  have hfails : ∀ {cause : Fault.Cause} {fault : Fault},
      (.error ⟨cause, machine.blame⟩ : Except Fault Unit) = .error fault →
        fault.line = machine.blame := by
    intro cause fault hfault
    obtain rfl := Except.error.inj hfault
    rfl
  have hends := machine.ends_step
  generalize machine.step = outcome at hends ⊢
  cases hends with
  | undecoded h => exact ⟨rfl, fun _ => hfails⟩
  | refused h hrefuses =>
      refine ⟨?_, fun _ => hfails⟩
      rw [hrefuses.same]
      rfl
  | performed h hperforms => exact ⟨by cases hperforms <;> rfl, fun _ hfault => nomatch hfault⟩

/-- Only an instruction inside the program can succeed. -/
theorem ip_lt_size_of_step (h : machine.step.1 = .ok ()) : machine.ip < machine.program.size := by
  by_contra hlt
  have hmissing := instruction_of_size_le (Nat.le_of_not_lt hlt)
  rw [step_of_instruction_error hmissing] at h
  cases h

/-! ## The line to blame -/

theorem blame_of_lt (h : machine.ip < machine.program.size) :
    machine.blame = machine.program.lineFor machine.ip := by
  rw [blame, if_pos h]
  rfl

theorem blame_of_size_le (h : machine.program.size ≤ machine.ip) :
    machine.blame = machine.lastIp.bind machine.program.lineFor := by
  rw [blame, if_neg (Nat.not_lt_of_le h)]
  rfl

variable {listing : Listing}

/-- Inside the program the fault has the line of the instruction at the instruction pointer. -/
theorem exists_line_inside (hprogram : machine.program = .ofListing listing)
    (hfault : machine.step.1 = .error fault) (hlt : machine.ip < listing.size) :
    ∃ entry, listing.Covers machine.ip entry ∧ fault.line = some entry.1 := by
  obtain ⟨entry, hcovers⟩ := Listing.exists_covers hlt
  have hinside : machine.ip < machine.program.size := by
    rwa [hprogram, Program.size_ofListing]
  refine ⟨entry, hcovers, ?_⟩
  rw [machine.notes_step.line fault hfault, blame_of_lt hinside, hprogram,
    Program.lineFor_of_covers hcovers]

/-- Behind the program it has the line of the instruction that led there. -/
theorem exists_line_behind {before : Machine} (hprogram : before.program = .ofListing listing)
    (hstep : before.step = (.ok (), last)) (hfault : last.step.1 = .error fault)
    (hle : listing.size ≤ last.ip) :
    ∃ entry, listing.Covers before.ip entry ∧ fault.line = some entry.1 := by
  have hkept : last.program = before.program := by
    have hchanges := before.step_changes.program
    rwa [hstep] at hchanges
  have hlastIp : last.lastIp = some before.ip := by
    have hnoted := before.notes_step.lastIp
    rwa [hstep] at hnoted
  have hlt : before.ip < listing.size := by
    have hinside : before.ip < before.program.size := ip_lt_size_of_step (by rw [hstep])
    rwa [hprogram, Program.size_ofListing] at hinside
  have hbehind : last.program.size ≤ last.ip := by
    rwa [hkept, hprogram, Program.size_ofListing]
  obtain ⟨entry, hcovers⟩ := Listing.exists_covers hlt
  refine ⟨entry, hcovers, ?_⟩
  rw [last.notes_step.line fault hfault, blame_of_size_le hbehind, hlastIp, hkept, hprogram]
  exact Program.lineFor_of_covers hcovers

/-- **A fault is blamed on the line of the source where it arises.** Lines that codegen accepts
spell a listing. Whatever machine loads the program, if it fails after `n` successful steps: inside
the program the fault has the line of the instruction whose words contain the instruction pointer;
behind the end it has the line of the instruction that the last of these steps executed; and it has
no line only if the program is empty. -/
theorem fault_blames_source_line {lines : List Line} {program : Program}
    (h : Program.ofLines lines = .ok program) :
    ∃ listing, Listing.IsSpelled lines listing ∧ program = .ofListing listing ∧
      ∀ (machine : Machine) (n : Nat) (last : Machine) (fault : Fault),
        Steps (fun _ => True) n (machine.load program) last → last.step.1 = .error fault →
        (last.ip < program.size →
          ∃ entry, listing.Covers last.ip entry ∧ fault.line = some entry.1) ∧
        (program.size ≤ last.ip → 0 < n →
          ∃ before entry, Steps (fun _ => True) (n - 1) (machine.load program) before ∧
            before.step = (.ok (), last) ∧ listing.Covers before.ip entry ∧
            fault.line = some entry.1) ∧
        (fault.line = none ↔ program.size = 0) := by
  obtain ⟨listing, hlisting, rfl⟩ := Success.map_iff.mp h
  refine ⟨listing, Listing.ofLines_eq_ok_iff.mp hlisting, rfl, ?_⟩
  intro machine n last fault hsteps hfault
  rw [Program.size_ofListing]
  have hprogram : last.program = .ofListing listing := hsteps.program_eq
  have hinside := exists_line_inside hprogram hfault
  have hbehind : listing.size ≤ last.ip → 0 < n →
      ∃ before entry, Steps (fun _ => True) (n - 1) (machine.load (.ofListing listing)) before ∧
        before.step = (.ok (), last) ∧ listing.Covers before.ip entry ∧
        fault.line = some entry.1 := by
    intro hle hpos
    obtain ⟨m, rfl⟩ := Nat.exists_eq_add_of_le' hpos
    obtain ⟨before, hbefore, -, hstep⟩ := hsteps.exists_last
    obtain ⟨entry, hentry⟩ := exists_line_behind hbefore.program_eq hstep hfault hle
    exact ⟨before, entry, hbefore, hstep, hentry⟩
  refine ⟨hinside, hbehind, ?_⟩
  constructor
  · intro hnone
    by_contra hne
    have hsome : ∃ line, fault.line = some line := by
      by_cases hlt : last.ip < listing.size
      · obtain ⟨entry, -, hline⟩ := hinside hlt
        exact ⟨entry.1, hline⟩
      · -- without a step the machine is at address 0, which is inside
        have hpos : 0 < n := by
          by_contra hzero
          obtain rfl : n = 0 := by omega
          cases hsteps
          exact hlt (Nat.pos_of_ne_zero hne)
        obtain ⟨before, entry, -, -, -, hline⟩ := hbehind (Nat.le_of_not_lt hlt) hpos
        exact ⟨entry.1, hline⟩
    obtain ⟨line, hline⟩ := hsome
    rw [hnone] at hline
    cases hline
  · intro hempty
    obtain rfl := Listing.size_eq_zero_iff.mp hempty
    have hle : last.program.size ≤ last.ip := by
      rw [hprogram, Program.size_ofListing, hempty]
      exact Nat.zero_le _
    rw [last.notes_step.line fault hfault, blame_of_size_le hle, hprogram]
    exact Option.bind_eq_none_iff.mpr fun address _ => Program.lineFor_of_size_le (Nat.zero_le _)

end

namespace Blame.Sample

/-- The first jump leads into the second instruction, whose operands are the words of another jump,
which leads behind the end. -/
def lines : List Line := Line.ofText "sample" "JMP 3\nMOV [15] 100\nHALT"

def line (number : Nat) (source : String) : Line := ⟨number, "sample", source, source⟩

def jumper : Program where
  words := #[15, 3, 8, 15, 100, 255]
  origins := [(0, line 1 "JMP 3"), (2, line 2 "MOV [15] 100"), (5, line 3 "HALT")]

def host : Machine := create .default [] default

def failing : Machine := (host.load jumper).step.2.step.2

theorem steps_failing : Steps (fun _ => True) 2 (host.load jumper) failing := by
  have hfirst : (host.load jumper).step.1 = .ok () := by decide +kernel
  have hsecond : (host.load jumper).step.2.step.1 = .ok () := by decide +kernel
  refine .cons trivial (Prod.ext hfirst rfl) (.single trivial ?_)
  exact Prod.ext hsecond rfl

end Blame.Sample

open Blame.Sample in
theorem fault_blames_source_line_sample :
    Program.ofLines lines = .ok jumper ∧ Steps (fun _ => True) 2 (host.load jumper) failing ∧
      failing.step.1 = .error ⟨.missingHalt 100, some (line 2 "MOV [15] 100")⟩ ∧
      ∃ (listing : Listing) (before : Machine) (entry : Line × Instruction),
        Listing.IsSpelled lines listing ∧ jumper = .ofListing listing ∧
        before.step = (.ok (), failing) ∧ listing.Covers before.ip entry ∧
        entry.1 = line 2 "MOV [15] 100" := by
  have hprogram : Program.ofLines lines = .ok jumper := by decide +kernel
  have hfault : failing.step.1 = .error ⟨.missingHalt 100, some (line 2 "MOV [15] 100")⟩ := by
    decide +kernel
  have hbehind : jumper.size ≤ failing.ip := by decide +kernel
  obtain ⟨listing, hspelled, hlisting, hblames⟩ := fault_blames_source_line hprogram
  obtain ⟨-, hled, -⟩ := hblames host 2 failing _ steps_failing hfault
  obtain ⟨before, entry, -, hstep, hcovers, hline⟩ := hled hbehind (by decide)
  exact ⟨hprogram, steps_failing, hfault, listing, before, entry, hspelled, hlisting, hstep,
    hcovers, (Option.some.inj hline).symm⟩

end CellAsm.Machine
