import CellAsm.Config.Environment
import CellAsm.Console.Rendering
import CellAsm.Text.Encoding

set_option autoImplicit false

/-! # Command lines

A command names a file and what is to be done with it: run the program, assemble it, or only
preprocess it. Arguments are looked at first, then the environment, then the file. Everything
that a command shows goes either to the results or to the diagnostics, and a fault makes the
exit status 1. Files come from anywhere: how a path is read and what can be imported is given with
the command line.
-/

namespace CellAsm

/-- What is to be done with a file. -/
inductive Task where
  | run
  | assemble
  | preprocess
deriving DecidableEq

/-- A task and the path of the file. -/
structure Command where
  task : Task
  path : String
deriving DecidableEq

namespace Command

/-- Reads the arguments of the command line. A path alone means that the file is to be run. -/
def ofArguments : List String → Except Fault Command
  | [path] => .ok ⟨.run, path⟩
  | ["run", path] => .ok ⟨.run, path⟩
  | ["asm", path] => .ok ⟨.assemble, path⟩
  | ["pp", path] => .ok ⟨.preprocess, path⟩
  | _ => .error ⟨.usage, none⟩

end Command

/-- What the response to a command depends on. -/
structure CommandLine where
  arguments : List String
  environment : Environment
  /-- The text of the file at a path, or why it cannot be read. -/
  read : String → Except ReadFault String
  /-- What the import directives of the file find, and those of the files that it imports. -/
  files : Files
  /-- The bytes of the standard input. -/
  input : List UInt8
  /-- The random numbers of this run. -/
  draws : Draws

/-- What a command leaves behind. -/
structure Response where
  /-- The text of the results. -/
  results : String
  /-- The text of the diagnostics. -/
  diagnostics : String
  /-- The exit status. -/
  status : Nat
deriving DecidableEq

namespace Console

/-! ## Running programs -/

/-- The number of steps between two looks at the machine. -/
def slice : Nat := 5000

/-- The input of a machine that reads from bytes: each byte is a character of its own. -/
def inputOf (bytes : List UInt8) : List InputItem :=
  bytes.map fun byte => .ok (Char.ofNat byte.toNat)

/-- What the console does when it has looked at a machine: it shows a text, and goes on or ends. -/
inductive Reaction where
  | goOn (text : String) (next : Machine)
  | finish (text : String) (fault : Option Fault)

/-- The reaction to a slice. What was printed is shown at once. -/
def react : Except Fault Event × Machine → Reaction
  | (.ok .running, next) => .goOn "" next
  | (.ok (.print text), next) => .goOn (printed text) next
  | (.ok .stopped, next) => .finish (lineEnd next.output) none
  | (.error fault, _) => .finish "" (some fault)

/-- Runs a machine and echoes what it prints after `shown`. Gives everything shown and the
fault that ended the run, if one did; `none` if `bound` slices were not enough. -/
def echo (bound : Nat) (shown : String) (machine : Machine) : Option (String × Option Fault) :=
  match bound with
  | 0 => none
  | bound + 1 =>
    match react (machine.execute slice) with
    | .goOn text next => echo bound (shown ++ text) next
    | .finish text fault => some (shown ++ text, fault)

/-! ## Jobs -/

/-- The file that a command works on. -/
structure Job where
  command : Command
  config : Config
  text : String

namespace Job

/-- What has to be known before any work, in the order in which faults are found. -/
def prepare (arguments : List String) (environment : Environment)
    (read : String → Except ReadFault String) : Except Fault Job := do
  let command ← Command.ofArguments arguments
  let config ← environment.config
  match read command.path with
  | .ok text => .ok ⟨command, config, text⟩
  | .error fault => .error ⟨fault.cause command.path, none⟩

/-- The assembler for a job. Warnings are reported and do not end the work. -/
def assembler (job : Job) (files : Files) : Assembler :=
  { config := job.config, files, policy := .collect }

/-- The machine with the program of a job. -/
def start (job : Job) (assembler : Assembler) (input : List InputItem) (draws : Draws) :
    Report Machine := do
  let program ← assembler.assemble job.command.path job.text
  return (Machine.create job.config input draws).load program

end Job

/-! ## Responses -/

/-- The response that shows results, then what a finished work reports. -/
def respondWith (warnings : List Fault) (results : String) (fault : Option Fault) : Response where
  results
  diagnostics := String.join ((warnings ++ fault.toList).map diagnostic)
  status := if fault.isSome then 1 else 0

/-- The response that shows what an assembler reports. -/
def respondTo {α : Type} (shown : α → String) (report : Report α) : Response :=
  match report.result with
  | .ok a => respondWith report.warnings (shown a) none
  | .error fault => respondWith report.warnings "" (some fault)

/-- The response to a job that runs no program. -/
def Job.answer (job : Job) (assembler : Assembler) : Response :=
  match job.command.task with
  | .preprocess => respondTo listed (assembler.preprocess job.command.path job.text)
  | _ =>
    respondTo (fun program => program.text ++ "\n")
      (assembler.assemble job.command.path job.text)

/-- The response to a job that runs a program; `none` if it runs longer than `bound` slices. -/
def Job.run (bound : Nat) (job : Job) (assembler : Assembler) (input : List InputItem)
    (draws : Draws) : Option Response :=
  let report := job.start assembler input draws
  match report.result with
  | .ok machine =>
    (echo bound "" machine).map fun shown => respondWith report.warnings shown.1 shown.2
  | .error fault => some (respondWith report.warnings "" (some fault))

end Console

/-- The response to a command line; `none` if a program runs longer than `bound` slices. -/
def CommandLine.respond (bound : Nat) (line : CommandLine) : Option Response :=
  match Console.Job.prepare line.arguments line.environment line.read with
  | .error fault => some (Console.respondWith [] "" (some fault))
  | .ok job =>
    let assembler := job.assembler line.files
    match job.command.task with
    | .run => job.run bound assembler (Console.inputOf line.input) line.draws
    | _ => some (job.answer assembler)

/-! ## Files of bytes -/

namespace Console

/-- The text that bytes read from a file encode. -/
def textOf (bytes : List UInt8) : Except ReadFault String :=
  match Text.decode? bytes with
  | some text => .ok (String.ofList text)
  | none => .error (.failed "stream did not contain valid UTF-8")

/-- The paths of the import directives in a text. -/
def directives (text : String) : List String := (Line.ofText "" text).filterMap Import.path?

end Console

end CellAsm
