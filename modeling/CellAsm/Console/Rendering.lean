import CellAsm.Machine.Run
import CellAsm.Program.Hex

set_option autoImplicit false

/-! # What the console shows

Printed text and diagnostics are coloured by escape sequences, so that a terminal tells them
apart. A diagnostic is the severity and the message of a fault, followed by the line as it was
typed if the fault has one.
-/

namespace CellAsm.Console

/-- A text in a style, which is the parameter of the escape sequence that turns it on. -/
def painted (style text : String) : String := "\x1b[" ++ style ++ "m" ++ text ++ "\x1b[0m"

/-- Output of a running program is green. -/
def printed (text : String) : String := painted "32" text

/-- Warnings are yellow and everything worse is bold red. -/
def style : Fault.Severity → String
  | .warning => "33"
  | .syntaxError | .fatal => "1;31"

/-- The diagnostic of a fault; the source line is dimmed. -/
def diagnostic (fault : Fault) : String :=
  let severity := fault.code.severity
  let source :=
    match fault.line with
    | some line => "    " ++ painted "2" line.source ++ "\n"
    | none => ""
  painted (style severity) (severity.name ++ ": " ++ fault.message) ++ "\n" ++ source

/-- What is written when a program has stopped: output that does not end its last line gets a
line end. -/
def lineEnd (output : String) : String :=
  match output.toList.getLast? with
  | none | some '\n' => ""
  | some _ => "\n"

/-- The contents of lines, each with a line end. -/
def listed (lines : List Line) : String :=
  String.join (lines.map fun line => line.contents ++ "\n")

end CellAsm.Console
