import CellAsm.Proofs.Machine.Blame
import CellAsm.Proofs.Machine.FailedStep

set_option autoImplicit false

/-! # Trying a failed step again

A failed step leaves the instruction pointer where it is, so the next step tries the same
instruction. Unless it reads input it fails for the same cause, however often it is tried: apart
from the random numbers that were drawn, the machine is the one that failed before
(`SameAttempt.exists_step_eq_fail`). The line that is blamed can be another one, since the failed
step has become the step before. Inside the program this makes no difference. Behind the end the
first fault is blamed on the instruction that led there and every later one on the last instruction
of the program, so the fault is the same only if both stand in one line
(`retry_repeats_fault_iff`).
-/

namespace CellAsm.Machine

section

variable {machine again : Machine} {mnemonic : Mnemonic} {act : Action} {fault : Fault}

/-! ## One more attempt -/

/-- Two machines are about to execute the same instruction on the same memory. -/
structure SameAttempt (machine again : Machine) : Prop where
  program_eq : again.program = machine.program
  memory_eq : again.memory = machine.memory
  ip_eq : again.ip = machine.ip

theorem SameAttempt.refl (machine : Machine) : SameAttempt machine machine := ⟨rfl, rfl, rfl⟩

/-- An action that is refused without reading input is refused again for the same cause. -/
theorem Refuses.exists_again {cause : Fault.Cause} {used : Machine}
    (h : Refuses machine mnemonic act cause used) (hsame : SameAttempt machine again)
    (hinstruction : machine.instruction = .ok (mnemonic, act)) (hread : ¬ machine.IsAt .aread) :
    ∃ drawn, Refuses again mnemonic act cause { again with drawn } := by
  have hsize : again.memory.size = machine.memory.size := by rw [hsame.memory_eq]
  cases h with
  | store hcell => exact ⟨again.drawn, .store (hsize.trans_le hcell)⟩
  | draw hcell => exact ⟨_, .draw (hsize.trans_le hcell)⟩
  | read | readEnd | readError =>
      obtain rfl : mnemonic = .aread := isOf_of_instruction hinstruction
      exact absurd (isAt_of_instruction hinstruction) hread
  | jump hself => exact ⟨again.drawn, .jump (hself.trans hsame.ip_eq.symm)⟩

/-- **A step that fails without reading input fails again for the same cause**, and leaves
everything as it is but the random numbers that are used up. -/
theorem SameAttempt.exists_step_eq_fail (hsame : SameAttempt machine again)
    (hread : ¬ machine.IsAt .aread) (h : machine.step.1 = .error fault) :
    ∃ drawn, again.step = { again with drawn }.fail fault.cause := by
  have hinstruction : again.instruction = machine.instruction :=
    instruction_congr (by rw [hsame.program_eq]) hsame.memory_eq hsame.ip_eq
  have hends := machine.ends_step
  generalize machine.step = outcome at hends h
  cases hends with
  | undecoded hfound =>
      obtain rfl := Except.error.inj h
      exact ⟨again.drawn, step_of_instruction_error (hinstruction.trans hfound)⟩
  | refused hfound hrefuses =>
      obtain rfl := Except.error.inj h
      obtain ⟨drawn, hagain⟩ := hrefuses.exists_again hsame hfound hread
      refine ⟨drawn, ?_⟩
      rw [step_of_instruction (hinstruction.trans hfound), hagain.perform_eq]
  | performed => cases h

/-! ## Any number of attempts -/

/-- However often a failing step is tried, the next attempt is the same one, and from the first
retry on the instruction has become the one that was begun last. -/
theorem sameAttempt_afterSteps (hread : ¬ machine.IsAt .aread)
    (h : machine.step.1 = .error fault) (k : Nat) :
    SameAttempt machine (machine.afterSteps k) ∧
      (0 < k → (machine.afterSteps k).lastIp = some machine.ip) := by
  induction k with
  | zero => exact ⟨.refl machine, fun hpos => absurd hpos (Nat.lt_irrefl 0)⟩
  | succ k ih =>
      obtain ⟨hsame, -⟩ := ih
      obtain ⟨drawn, hstep⟩ := hsame.exists_step_eq_fail hread h
      rw [afterSteps, hstep]
      exact ⟨⟨hsame.program_eq, hsame.memory_eq, hsame.ip_eq⟩,
        fun _ => congrArg some hsame.ip_eq⟩

/-- Every retry fails for the same cause and is blamed on the instruction that is tried, or behind
the end on the last one. -/
theorem step_afterSteps (hread : ¬ machine.IsAt .aread) (h : machine.step.1 = .error fault)
    {k : Nat} (hpos : 0 < k) :
    (machine.afterSteps k).step.1
      = .error ⟨fault.cause, machine.program.lineFor machine.ip⟩ := by
  obtain ⟨hsame, hlastIp⟩ := sameAttempt_afterSteps hread h k
  obtain ⟨drawn, hstep⟩ := hsame.exists_step_eq_fail hread h
  have hblame : (machine.afterSteps k).blame = machine.program.lineFor machine.ip := by
    by_cases hlt : (machine.afterSteps k).ip < (machine.afterSteps k).program.size
    · rw [blame_of_lt hlt, hsame.program_eq, hsame.ip_eq]
    · rw [blame_of_size_le (Nat.le_of_not_lt hlt), hlastIp hpos, hsame.program_eq]
      rfl
  rw [hstep, ← hblame]
  rfl

/-- **A retry reports the same fault, unless the program was left from another line than its
last.** Lines that codegen accepts spell a listing. Whatever machine loads the program and whatever
steps it takes, if a step fails and its instruction reads no input, every retry fails for the same
cause. Inside the program it also has the same line; behind the end it has the line of the last
instruction. So the retries report the same fault if and only if the machine is inside the program
or the instruction that was begun before stands in the line of the last instruction. -/
theorem retry_repeats_fault_iff {lines : List Line} {program : Program}
    (h : Program.ofLines lines = .ok program) :
    ∃ listing, Listing.IsSpelled lines listing ∧ program = .ofListing listing ∧
      ∀ (machine : Machine) (n : Nat) (fault : Fault),
        let reached := (machine.load program).afterSteps n
        reached.step.1 = .error fault → ¬ reached.IsAt .aread →
        (∀ k, 0 < k → (reached.afterSteps k).step.1 = .error ⟨fault.cause,
          if reached.ip < program.size then fault.line else listing.getLast?.map Prod.fst⟩) ∧
        ((∀ k, (reached.afterSteps k).step.1 = .error fault) ↔
          reached.ip < program.size ∨
            reached.lastIp.bind program.lineFor = listing.getLast?.map Prod.fst) := by
  obtain ⟨listing, hlisting, rfl⟩ := Success.map_iff.mp h
  refine ⟨listing, Listing.ofLines_eq_ok_iff.mp hlisting, rfl, ?_⟩
  intro machine n fault reached hfault hread
  have hprogram : reached.program = .ofListing listing := program_afterSteps _ n
  have hline : fault.line = reached.blame := reached.notes_step.line fault hfault
  have hretry : ∀ k, 0 < k → (reached.afterSteps k).step.1 = .error ⟨fault.cause,
      if reached.ip < (Program.ofListing listing).size then fault.line
      else listing.getLast?.map Prod.fst⟩ := by
    intro k hpos
    rw [step_afterSteps hread hfault hpos, hprogram]
    split
    · next hlt => rw [hline, blame_of_lt (by rwa [hprogram]), hprogram]
    · next hlt =>
        rw [Program.size_ofListing] at hlt
        rw [Program.lineFor_of_size_le (Nat.le_of_not_lt hlt)]
  refine ⟨hretry, ?_⟩
  by_cases hlt : reached.ip < (Program.ofListing listing).size
  · refine iff_of_true (fun k => ?_) (.inl hlt)
    rcases Nat.eq_zero_or_pos k with rfl | hpos
    · exact hfault
    · rw [hretry k hpos, if_pos hlt]
  · -- behind the end the first fault is the odd one out, if there is one
    have hfirst : fault.line = reached.lastIp.bind (Program.ofListing listing).lineFor := by
      rw [hline, blame_of_size_le (by rw [hprogram]; exact Nat.le_of_not_lt hlt), hprogram]
    rw [or_iff_right hlt, ← hfirst]
    constructor
    · intro hall
      have hsame := (hretry 1 Nat.one_pos).symm.trans (hall 1)
      rw [if_neg hlt] at hsame
      exact (congrArg Fault.line (Except.error.inj hsame)).symm
    · intro hlast k
      rcases Nat.eq_zero_or_pos k with rfl | hpos
      · exact hfault
      · rw [hretry k hpos, if_neg hlt, ← hlast]

end

namespace Retry.Sample

/-- The first line leads behind the end, and it is not the last line. -/
def lines : List Line := Line.ofText "sample" "JMP 100\nHALT"

def line (number : Nat) (source : String) : Line := ⟨number, "sample", source, source⟩

def leaving : Program where
  words := #[15, 100, 255]
  origins := [(0, line 1 "JMP 100"), (2, line 2 "HALT")]

def host : Machine := create .default [] default

def reached : Machine := (host.load leaving).afterSteps 1

end Retry.Sample

open Retry.Sample in
theorem retry_repeats_fault_iff_sample :
    Program.ofLines lines = .ok leaving ∧ ¬ reached.IsAt .aread ∧
      reached.step.1 = .error ⟨.missingHalt 100, some (line 1 "JMP 100")⟩ ∧
      (∀ k, 0 < k → (reached.afterSteps k).step.1
        = .error ⟨.missingHalt 100, some (line 2 "HALT")⟩) ∧
      ¬ ∀ k, (reached.afterSteps k).step.1
        = .error ⟨.missingHalt 100, some (line 1 "JMP 100")⟩ := by
  have hprogram : Program.ofLines lines = .ok leaving := by decide +kernel
  have hfault : reached.step.1 = .error ⟨.missingHalt 100, some (line 1 "JMP 100")⟩ := by
    decide +kernel
  have hread : ¬ reached.IsAt .aread := by
    rintro ⟨op, hop, -⟩
    have hmissing : reached.opcode = .error (.missingHalt 100) := by rfl
    rw [hmissing] at hop
    cases hop
  have hbehind : ¬ reached.ip < leaving.size := by decide +kernel
  have hlast : leaving.lineFor 100 = some (line 2 "HALT") := by decide +kernel
  have hled : reached.lastIp.bind leaving.lineFor = some (line 1 "JMP 100") := by decide +kernel
  obtain ⟨listing, -, hlisting, hretries⟩ := retry_repeats_fault_iff hprogram
  have hlistingLast : listing.getLast?.map Prod.fst = some (line 2 "HALT") := by
    have hsize : listing.size ≤ 100 := by
      rw [← Program.size_ofListing, ← hlisting]
      decide
    rw [← Program.lineFor_of_size_le hsize, ← hlisting, hlast]
  obtain ⟨hretry, hsame⟩ := hretries host 1 _ hfault hread
  refine ⟨hprogram, hread, hfault, ?_, ?_⟩
  · intro k hpos
    have hline := hretry k hpos
    change (reached.afterSteps k).step.1
      = .error ⟨_, if reached.ip < leaving.size then _ else _⟩ at hline
    rw [hline, if_neg hbehind, hlistingLast]
  · intro hall
    rcases hsame.mp hall with hlt | hline
    · exact hbehind hlt
    · rw [hlistingLast] at hline
      exact absurd (hled.symm.trans hline) (by decide)

end CellAsm.Machine
