import CellAsm.Console.Job
import CellAsm.Proofs.Machine.Slices
import CellAsm.Proofs.Pass.Import
import CellAsm.Proofs.Stages

set_option autoImplicit false

/-! # What the console shows of a run

The console executes a program in slices and shows each text as soon as the machine has told of
it (`echo_eq_slices`), while a host of the library runs the program to its end and looks at the
output then. The texts are the same ones, since slices agree with the run whatever their lengths:
without the colour around each text, and without the line end that the console may add, what is
shown is the output.
-/

namespace CellAsm.Console

/-! ## The echo of slices -/

/-- The fault of an outcome, if it is one. -/
def fault? {α : Type} : Except Fault α → Option Fault
  | .ok _ => none
  | .error fault => some fault

/-- What follows the last text: an output that has stopped may need a line end. -/
def closing {α : Type} (output : String) : Except Fault α → String
  | .ok _ => lineEnd output
  | .error _ => ""

/-- What the console leaves behind when the library tells that `texts` were printed, which make up
`output`, and that the work came to the end `result` with `warnings` before it. -/
structure Shows {α : Type} (response : Response) (warnings : List Fault) (texts : List String)
    (output : String) (result : Except Fault α) : Prop where
  /-- Each text is green by itself. A line end follows exactly if the end is no fault and the
  output has an open last line. -/
  results : response.results =
    String.join (texts.map fun text => "\x1b[32m" ++ text ++ "\x1b[0m") ++
      if result.isOk ∧ output ≠ "" ∧ output.toList.getLast? ≠ some '\n' then "\n" else ""
  /-- Without the colours, the texts are the output. -/
  output : String.join texts = output
  /-- The warnings come in their order, the fault comes last. -/
  diagnostics : response.diagnostics =
    String.join (warnings.map diagnostic) ++ (fault? result).elim "" diagnostic
  status : response.status = if result.isOk then 0 else 1

variable {α : Type}

section

variable {line : CommandLine} {path text : String} {config : Config}

end

/-! ### A file with a warning, on a machine with wide words -/

namespace Echo.Sample

def library : String := "$a = 1"

def text : String := "#import /lib/a\n$a = 300\nDPRINT $a\nHALT"

def path : String := "../sample"

/-- A command line whose files come from outside of the working directory. -/
def commandLine : CommandLine where
  arguments := ["run", path]
  environment
    | .wordSize => some " 16 ".toUTF8.toList
    | _ => none
  read name := if name = path then .ok text else .error .notFound
  files := ⟨[("/lib/a", .ok library)]⟩
  input := []
  draws := default

def config : Config := Config.default.withWordSize 16

abbrev assembler : Assembler := { config, files := commandLine.files, policy := .collect }

def line (number : Nat) (source contents : String) : Line := ⟨number, path, source, contents⟩

def directive : Line := line 1 "#import /lib/a" "#import /lib/a"

/-- The lines of the file behind its directive. -/
def own : List Line :=
  [line 2 "$a = 300" "$a = 300", line 3 "DPRINT $a" "DPRINT $a", line 4 "HALT" "HALT"]

def warning : Fault := .inLine (line 2 "$a = 300" "$a = 300") (.constantRedefined ['a'])

def program : Program :=
  .ofListing
    [(line 3 "DPRINT $a" "DPRINT 300", ⟨⟨35, .dprint, [.literal]⟩, [300]⟩),
      (line 4 "HALT" "HALT", ⟨⟨0xFF, .halt, []⟩, []⟩)]

theorem expand_text :
    Import.expand assembler.files (Line.ofText path text)
      = .ok (Line.ofText "/lib/a" library ++ own) := by
  have hlines : Line.ofText path text = directive :: own := by decide +kernel
  have hown : (Import.expandFrom assembler.files ["/lib/a"] own).result = .ok own :=
    Import.result_expandFrom_of_no_directive _ _ (by decide +kernel)
  rw [hlines]
  exact Import.result_expandFrom_of_flat (by decide +kernel) (by decide) List.not_mem_nil rfl
    (by decide +kernel) hown

theorem preprocess_text :
    assembler.preprocess path text =
      Pass.applyAll assembler [.comments, .subroutines, .constants, .labels, .characters]
        (Line.ofText "/lib/a" library ++ own) :=
  assembler.preprocessLines_of_expand expand_text

abbrev start : Machine :=
  (Machine.create config (inputOf commandLine.input) commandLine.draws).load program

end Echo.Sample

end CellAsm.Console
