import CellAsm.Console.Job

set_option autoImplicit false

/-! # The command line program

The program reads the arguments, the environment and the files of a real working directory and
hands them to the library. Standard input is read only when a running program asks for it, so the
machine is looked at after every single step; how long the slices are does not show.
-/

namespace CellAsm.Console

/-- The words for a failed system call. -/
def systemMessage : IO.Error → String
  | .alreadyExists _ code details | .invalidArgument _ code details
  | .permissionDenied _ code details | .resourceExhausted _ code details
  | .inappropriateType _ code details | .noSuchThing _ code details
  | .interrupted _ code details | .noFileOrDirectory _ code details
  | .otherError code details | .resourceBusy code details | .resourceVanished code details
  | .unsupportedOperation code details | .hardwareFault code details
  | .unsatisfiedConstraints code details | .illegalOperation code details
  | .protocolError code details | .timeExpired code details =>
    details ++ " (os error " ++ String.ofList (Text.decimal code.toNat) ++ ")"
  | .unexpectedEof => "unexpected end of file"
  | .userError message => message

/-- The text of a file, or the reason why there is none. -/
def readSystemFile (path : String) : IO (Except ReadFault String) := do
  try
    let bytes ← IO.FS.readBinFile path
    return textOf bytes.toList
  catch
    | .noFileOrDirectory .. => return .error .notFound
    | e => return .error (.failed (systemMessage e))

/-- Reads the files at `paths` and those that they import, except the ones that were read
before. -/
partial def gather (files : Files) : List String → IO Files
  | [] => return files
  | path :: paths => do
    if files.entries.any (·.1 == path) then gather files paths
    else
      let entry ← readSystemFile path
      let further :=
        match entry with
        | .ok text => directives text
        | .error _ => []
      gather ⟨files.entries ++ [(path, entry)]⟩ (further ++ paths)

/-- Gives a machine that is about to read a character the next byte of standard input. -/
def feed (machine : Machine) : IO Machine := do
  match machine.instruction, machine.input with
  | .ok (_, .read _), [] =>
    let bytes ← (← IO.getStdin).read 1
    return { machine with input := inputOf bytes.toList }
  | _, _ => return machine

/-- Runs a machine, showing what it prints at once. Gives the fault that ended the run. -/
partial def interact (machine : Machine) : IO (Option Fault) := do
  match react ((← feed machine).execute 1) with
  | .goOn text next =>
    IO.print text
    (← IO.getStdout).flush
    interact next
  | .finish text fault =>
    IO.print text
    return fault

/-- Writes a response and gives its exit status. -/
def deliver (response : Response) : IO UInt32 := do
  IO.print response.results
  IO.eprint response.diagnostics
  return response.status.toUInt32

/-- The job that the arguments and the system give. -/
def prepareFromSystem (arguments : List String) : IO (Except Fault Job) := do
  let word ← IO.getEnv Setting.wordSize.variableName
  let memory ← IO.getEnv Setting.memorySize.variableName
  let random ← IO.getEnv Setting.maxRandom.variableName
  let environment : Environment := fun setting =>
    let value? :=
      match setting with
      | .wordSize => word
      | .memorySize => memory
      | .maxRandom => random
    value?.map fun value => value.toUTF8.toList
  let entry ←
    match Command.ofArguments arguments with
    | .ok command => readSystemFile command.path
    | .error _ => pure (.error .notFound)
  return Job.prepare arguments environment fun _ => entry

/-- Runs the program of a job. The warnings are shown before it begins. -/
def runJob (job : Job) (assembler : Assembler) : IO UInt32 := do
  let seed ← IO.rand 0 (UInt64.size - 1)
  let report := job.start assembler [] (.seeded seed.toUInt64)
  match report.result with
  | .error fault => deliver (respondWith report.warnings "" (some fault))
  | .ok machine =>
    IO.eprint (respondWith report.warnings "" none).diagnostics
    deliver (respondWith [] "" (← interact machine))

end CellAsm.Console

open CellAsm CellAsm.Console in
/-- Carries out the command that the arguments make. -/
def main (arguments : List String) : IO UInt32 := do
  match ← prepareFromSystem arguments with
  | .error fault => deliver (respondWith [] "" (some fault))
  | .ok job =>
    let assembler := job.assembler (← gather {} (directives job.text))
    match job.command.task with
    | .run => runJob job assembler
    | _ => deliver (job.answer assembler)
