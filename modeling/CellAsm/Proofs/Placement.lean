import CellAsm.Proofs.Program.Layout
import CellAsm.Proofs.Stages
import CellAsm.Proofs.Subroutine.Cells

set_option autoImplicit false

/-! # The place of a line in the program

An `Assembly` is a successful assembly with what its stages leave; a text assembles exactly when
there is one (`Assembler.assemble_eq_ok_iff_exists_assembly`). In a plain program with subroutines
that was assembled under the strict policy, every line of the source has a place: the program is
the code of what comes before the line, the code of the line, and the code of what comes after it
(`Assembly.exists_placement`).
-/

namespace CellAsm

/-- A successful assembly with what its stages leave. -/
structure Assembly (assembler : Assembler) (file text : String) where
  /-- The lines after imports. -/
  imported : List Line
  /-- The subroutines that are declared. -/
  table : Subroutine.Table
  /-- The lines after the expansion of subroutines. -/
  expanded : List Line
  /-- The lines in front of the label pass. -/
  prepared : List Line
  labels : Label.Table
  listing : Listing
  imports : Import.expand assembler.files (Line.ofText file text) = .ok imported
  declares : Subroutine.declare [] (Comment.remove imported) = .ok table
  expands : Subroutine.expand (Comment.remove imported) = .ok expanded
  substitutes : (Constant.replace assembler.policy assembler.config.memorySize expanded).result
    = .ok prepared
  enters : ({} : Label.Table).enterLines prepared = .ok labels
  generates : labels.Generates prepared listing

namespace Assembly

variable {assembler : Assembler} {file text : String}

/-- The lines that have code, without comments. -/
def source (assembly : Assembly assembler file text) : List Line := Comment.remove assembly.imported

/-- The program of an assembly. -/
def program (assembly : Assembly assembler file text) : Program := .ofListing assembly.listing

/-- No line after imports holds an apostrophe. -/
def IsPlain (assembly : Assembly assembler file text) : Prop :=
  ∀ line ∈ assembly.imported, line.IsPlain

end Assembly

/-- **A text assembles to a program exactly when there is an assembly with that program.** -/
theorem Assembler.assemble_eq_ok_iff_exists_assembly {assembler : Assembler} {file text : String}
    {program : Program} :
    (assembler.assemble file text).result = .ok program ↔
      ∃ assembly : Assembly assembler file text, assembly.program = program := by
  rw [assemble_eq_ok_iff]
  constructor
  · rintro ⟨prepared, labels, listing, hprepared, henters, hgenerates, rfl⟩
    obtain ⟨imported, expanded, himports, hexpands, hsubstitutes⟩ := prepared_eq_ok_iff.mp hprepared
    obtain ⟨table, hdeclares, -⟩ := Subroutine.expand_eq_ok hexpands
    exact ⟨⟨imported, table, expanded, prepared, labels, listing, himports, hdeclares, hexpands,
      hsubstitutes, henters, hgenerates⟩, rfl⟩
  · rintro ⟨assembly, rfl⟩
    exact ⟨assembly.prepared, assembly.labels, assembly.listing,
      prepared_eq_ok_iff.mpr ⟨assembly.imported, assembly.expanded, assembly.imports,
        assembly.expands, assembly.substitutes⟩, assembly.enters, assembly.generates, rfl⟩

namespace Assembly

variable {assembler : Assembler} {file text : String}

/-- The place of a line of the source: what the line is expanded to, the constants in front of
it, and the code of what comes before the line, of the line, and of what comes after it. -/
structure Placement (assembly : Assembly assembler file text) (before : List Line) (line : Line)
    (after : List Line) where
  /-- The number of calls before the line. -/
  calls : Nat
  linesBefore : List Line
  lines : List Line
  constants : Constant.Table
  codeBefore : Listing
  code : Listing
  codeAfter : Listing
  expandsBefore : Subroutine.Expands assembly.table 0 before calls linesBefore
  expands : ∃ next, Subroutine.ExpandsLine assembly.table calls line lines next
  compilesBefore : Compiles assembly.labels assembler.config.memorySize 0 {}
    (Subroutine.preamble assembly.table.maxArity ++ linesBefore) constants codeBefore
  compiles : ∃ last, Compiles assembly.labels assembler.config.memorySize codeBefore.size constants
    lines last code
  listing : assembly.listing = codeBefore ++ code ++ codeAfter

namespace Placement

variable {assembly : Assembly assembler file text} {before after : List Line} {line : Line}

/-- The address of the first word that is generated for the line. -/
def address (place : assembly.Placement before line after) : Nat := place.codeBefore.size

/-- The address after the last word that is generated for the line. -/
def next (place : assembly.Placement before line after) : Nat := place.address + place.code.size

/-- The shared cells are known in front of the line. -/
theorem shares (place : assembly.Placement before line after) :
    Subroutine.Shares place.constants assembly.table.maxArity assembler.config.memorySize := by
  obtain ⟨constants, front, back, hpreamble, hbefore, -⟩ := place.compilesBefore.append_inv
  exact (Subroutine.shares_of_compiles hpreamble).2.of_compiles hbefore

/-- The code of a line stands at its address. -/
theorem hasAt (place : assembly.Placement before line after) :
    assembly.program.HasAt place.address place.code.words := by
  rw [program, place.listing]
  exact Program.hasAt_ofListing _ _ _

/-- The first line of the source is at address 0. -/
theorem address_of_nil (place : assembly.Placement [] line after) : place.address = 0 := by
  obtain ⟨_, _, _, _, codeBefore, _, _, hnothing, _, hbefore, _, _⟩ := place
  cases hnothing
  rw [List.append_nil] at hbefore
  show codeBefore.size = 0
  rw [(Subroutine.shares_of_compiles hbefore).1]
  rfl

end Placement

/-- A plain program that was assembled under the strict policy is the code of its expanded
lines. -/
theorem compiles (assembly : Assembly assembler file text) (hstrict : assembler.policy = .strict)
    (hplain : ∀ line ∈ assembly.expanded, line.IsPlain) :
    ∃ last, Compiles assembly.labels assembler.config.memorySize 0 {} assembly.expanded last
      assembly.listing := by
  have hsubstitutes := assembly.substitutes
  rw [hstrict] at hsubstitutes
  obtain ⟨last, hlast⟩ := Constant.substitutes_of_replaceFrom hsubstitutes
  exact ⟨last, Constant.Table.isPlain_empty, hplain, assembly.prepared, hlast, assembly.generates,
    .of_enterLines assembly.enters⟩

/-- **Every line of the source has a place in the program.** -/
theorem exists_placement (assembly : Assembly assembler file text)
    (hstrict : assembler.policy = .strict) (hplain : assembly.IsPlain)
    (hdeclared : assembly.table ≠ []) {before after : List Line} {line : Line}
    (hsource : assembly.source = before ++ line :: after) :
    Nonempty (assembly.Placement before line after) := by
  obtain ⟨table, htable, hexpanded⟩ := Subroutine.expand_eq_ok assembly.expands
  obtain rfl : assembly.table = table := Except.ok.inj (assembly.declares.symm.trans htable)
  obtain ⟨hnil, -⟩ | ⟨-, total, body, hbody, hexpanded⟩ := hexpanded
  · exact absurd hnil hdeclared
  obtain ⟨last, hcompiles⟩ := assembly.compiles hstrict
    (Subroutine.isPlain_of_expand assembly.expands (Comment.isPlain_remove hplain))
  -- cut the expansion around the line, then the code where the expansion is cut;
  -- the preamble goes with the lines before
  rw [show Comment.remove assembly.imported = _ from hsource] at hbody
  obtain ⟨calls, next, linesBefore, lines, linesAfter, hbefore, hline, hafter, rfl⟩ := hbody.split
  rw [hexpanded, ← List.append_assoc, ← List.append_assoc] at hcompiles
  obtain ⟨_, front, codeAfter, hfront, hcodeAfter, hlisting⟩ := hcompiles.append_inv
  obtain ⟨constants, codeBefore, code, hcodeBefore, hcode, rfl⟩ := hfront.append_inv
  rw [Nat.zero_add] at hcode
  exact ⟨⟨calls, linesBefore, lines, constants, codeBefore, code, codeAfter, hbefore, ⟨_, hline⟩,
    hcodeBefore, ⟨_, hcode⟩, hlisting⟩⟩

end Assembly

end CellAsm
