import CellAsm.Console.Command
import CellAsm.Library
import CellAsm.Main
import CellAsm.Proofs.Comments
import CellAsm.Proofs.Console.Echo
import CellAsm.Proofs.Constant.Allocation
import CellAsm.Proofs.FixedPoint
import CellAsm.Proofs.Import.Worklist
import CellAsm.Proofs.Label.Resolution
import CellAsm.Proofs.Library.Program
import CellAsm.Proofs.Machine.Accesses
import CellAsm.Proofs.Machine.Arithmetic
import CellAsm.Proofs.Machine.Checked
import CellAsm.Proofs.Machine.Life
import CellAsm.Proofs.Machine.LoopCheck
import CellAsm.Proofs.Machine.Reload
import CellAsm.Proofs.Machine.Retry
import CellAsm.Proofs.Machine.Slices
import CellAsm.Proofs.Machine.TextForm
import CellAsm.Proofs.Machine.Truncation
import CellAsm.Proofs.Machine.Watch
import CellAsm.Proofs.Pass.CharacterLiteral
import CellAsm.Proofs.Program.ControlFlow
import CellAsm.Proofs.Program.Disassembly
import CellAsm.Proofs.Program.Grammar
import CellAsm.Proofs.Program.HexGrammar
import CellAsm.Proofs.Program.LabelAddress
import CellAsm.Proofs.Program.SourceMap
import CellAsm.Proofs.Provenance
import CellAsm.Proofs.Subroutine.Grammar
import CellAsm.Proofs.Subroutine.Return
import CellAsm.Proofs.Warnings
