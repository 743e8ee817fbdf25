import CellAsm.Config
import CellAsm.Pass.Character
import CellAsm.Pass.Comment
import CellAsm.Pass.Constant
import CellAsm.Pass.Import
import CellAsm.Pass.Label
import CellAsm.Pass.Subroutine
import CellAsm.Program

set_option autoImplicit false

/-! # The assembler

A source text becomes a program in six passes over its lines and a last step that encodes the
instructions. The order of the passes matters: comments go before anything is read as a
directive, and labels can be counted only when subroutines and constants are gone. The assembler
holds what the passes depend on and nothing that they change, so texts assembled one after the
other do not influence each other.
-/

namespace CellAsm

/-- What assembling depends on besides the text. -/
structure Assembler where
  config : Config := .default
  files : Files := {}
  policy : Policy := .strict

/-- A pass over the lines of a program. -/
inductive Pass where
  | imports
  | comments
  | subroutines
  | constants
  | labels
  | characters
deriving DecidableEq

namespace Pass

/-- The passes in the order in which a program goes through them. -/
def order : List Pass := [imports, comments, subroutines, constants, labels, characters]

/-- One pass, from a fresh start. -/
def apply (assembler : Assembler) : Pass → List Line → Report (List Line)
  | imports, lines => .ofExcept (Import.expand assembler.files lines)
  | comments, lines => pure (Comment.remove lines)
  | subroutines, lines => .ofExcept (Subroutine.expand lines)
  | constants, lines => Constant.replace assembler.policy assembler.config.memorySize lines
  | labels, lines => .ofExcept (Label.replace lines)
  | characters, lines => .ofExcept (Character.replace lines)

/-- Passes one after the other, each on the lines that the one before it left. -/
def applyAll (assembler : Assembler) : List Pass → List Line → Report (List Line)
  | [], lines => pure lines
  | pass :: passes, lines => do
    let lines ← pass.apply assembler lines
    applyAll assembler passes lines

/-- The reports of passes one after the other, up to the first one that fails. -/
def stages (assembler : Assembler) : List Pass → List Line → List (Report (List Line))
  | [], _ => []
  | pass :: passes, lines =>
    let report := pass.apply assembler lines
    match report.result with
    | .ok next => report :: stages assembler passes next
    | .error _ => [report]

end Pass

namespace Assembler

/-- The lines of instructions that the given lines stand for. -/
def preprocessLines (assembler : Assembler) (lines : List Line) : Report (List Line) :=
  Pass.applyAll assembler Pass.order lines

/-- The lines of instructions that a text stands for. -/
def preprocess (assembler : Assembler) (file text : String) : Report (List Line) :=
  assembler.preprocessLines (Line.ofText file text)

/-- The program that a text stands for. -/
def assemble (assembler : Assembler) (file text : String) : Report Program := do
  let lines ← assembler.preprocess file text
  Program.ofLines lines

/-- The name of a text that does not come from a file. -/
def unnamed : String := "<source>"

/-- The program that a text on its own stands for, where warnings count as faults. -/
def assembleText (config : Config) (text : String) (files : Files := {}) : Except Fault Program :=
  (({ config, files } : Assembler).assemble unnamed text).result

end Assembler

end CellAsm
