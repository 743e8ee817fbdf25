import CellAsm.Proofs.Provenance.Passes
import CellAsm.Proofs.Stages

set_option autoImplicit false

/-! # Provenance survives the pipeline

Whatever the passes make of a line, it can still be found in the text that was typed. The lines that
are left at the end come from the lines that imports put together, in the same order, and from
nothing that subroutines put in front of them (`Assembler.Traces`). A fault of any pass or of the
encoding has a line. It stands in the text or in a file that was read, except that there can be too
few cells for the lines in front of a program with subroutines (`provenance_survives`).
-/

namespace CellAsm

namespace Assembler

/-- The paths that the imports of a text read, up to the first fault. -/
def opened (assembler : Assembler) (file text : String) : List String :=
  (Import.expandFrom assembler.files [] (Line.ofText file text)).opened

/-- The line stands in the text or in a file that an import reads. -/
def IsRead (assembler : Assembler) (file text : String) (line : Line) : Prop :=
  line.StandsIn file text ∨
    ∃ path ∈ assembler.opened file text, ∃ imported, assembler.files.read path = .ok imported ∧
      line.StandsIn path imported

/-- The line is one of those that subroutines put in front of the program. -/
def IsGenerated (assembler : Assembler) (file text : String) (line : Line) : Prop :=
  ∃ imported, Import.expand assembler.files (Line.ofText file text) = .ok imported ∧
    line ∈ Subroutine.front (Comment.remove imported)

/-- Where the lines come from that a text is preprocessed to, when its imports put the lines
`imported` together. -/
structure Traces (assembler : Assembler) (file text : String) (imported lines : List Line) :
    Prop where
  isRead : ∀ line ∈ lines, assembler.IsRead file text line
  /-- The lines name the lines of the imports that they come from in ascending order. -/
  positions : ∃ positions : List Nat, positions.Pairwise (· ≤ ·) ∧
    List.Forall₂ (fun line p => ∃ source, imported[p]? = some source ∧ line.origin = source.origin)
      lines positions
  /-- What subroutines put in front of the program leaves nothing: the lines are made of those
  behind it alone. -/
  behindFront : ∃ body table kept,
    Subroutine.expand (Comment.remove imported)
      = .ok (Subroutine.front (Comment.remove imported) ++ body) ∧
    (Constant.replaceFrom assembler.policy assembler.config.memorySize table body).result
      = .ok kept ∧
    (Label.replace kept >>= Character.replace) = .ok lines

variable {assembler : Assembler} {file text : String}

theorem isRead_of_descends {lines sources : List Line} (h : Descends lines sources)
    (hsources : ∀ source ∈ sources, assembler.IsRead file text source) :
    ∀ line ∈ lines, assembler.IsRead file text line := by
  intro line hline
  obtain ⟨source, hsource, horigin⟩ := h.exists_source_of_mem hline
  rcases hsources source hsource with hstands | ⟨path, hpath, imported, hread, hstands⟩
  · exact .inl (hstands.of_origin_eq horigin)
  · exact .inr ⟨path, hpath, imported, hread, hstands.of_origin_eq horigin⟩

/-- Imports keep and blame lines that they read. -/
theorem isRead_of_expand (assembler : Assembler) (file text : String) :
    (∀ imported, Import.expand assembler.files (Line.ofText file text) = .ok imported →
      ∀ line ∈ imported, assembler.IsRead file text line) ∧
      Blames (assembler.IsRead file text)
        (Import.expand assembler.files (Line.ofText file text)) :=
  Import.forall_of_expandFrom (fun _ hline => .inl (Line.standsIn_of_mem_ofText hline))
    fun path hpath imported hread _ hline =>
      .inr ⟨path, hpath, imported, hread, Line.standsIn_of_mem_ofText hline⟩

theorem preprocess_eq (assembler : Assembler) (file text : String) :
    assembler.preprocess file text = (do
      let imported ← Report.ofExcept (Import.expand assembler.files (Line.ofText file text))
      let expanded ← Report.ofExcept (Subroutine.expand (Comment.remove imported))
      let replaced ← Constant.replace assembler.policy assembler.config.memorySize expanded
      let kept ← Report.ofExcept (Label.replace replaced)
      Report.ofExcept (Character.replace kept)) := by
  simp only [preprocess, preprocessLines, Pass.order, Pass.applyAll, Pass.apply, pure_bind,
    bind_pure]

theorem exists_traces_of_preprocess {lines : List Line}
    (h : (assembler.preprocess file text).result = .ok lines) :
    ∃ imported, Import.expand assembler.files (Line.ofText file text) = .ok imported ∧
      assembler.Traces file text imported lines := by
  obtain ⟨prepared, kept, hprepared, hkept, hlines⟩ := preprocess_eq_ok_iff.mp h
  obtain ⟨imported, expanded, himported, hexpanded, hprepared⟩ := prepared_eq_ok_iff.mp hprepared
  obtain ⟨body, rfl, hbody⟩ := Subroutine.exists_body_of_expand hexpanded
  obtain ⟨table, hreplaced⟩ := Subroutine.exists_table_of_front hprepared
  have hdescends : Descends lines imported :=
    (Character.descends_of_replace hlines).trans <| (Label.descends_of_replace hkept).trans <|
      (Constant.descends_of_replaceFrom hreplaced).trans <|
        hbody.trans (Comment.descends_remove imported)
  refine ⟨imported, himported, ?_, hdescends.exists_positions, ?_⟩
  · exact isRead_of_descends hdescends ((isRead_of_expand assembler file text).1 imported himported)
  · exact ⟨body, table, prepared, hexpanded, hreplaced, Success.bind_iff.mpr ⟨kept, hkept, hlines⟩⟩

/-- A pass blames a line that the passes before it have left. -/
theorem blames_preprocess (assembler : Assembler) (file text : String) :
    Blames (fun line => assembler.IsRead file text line ∨ assembler.IsGenerated file text line)
      (assembler.preprocess file text).result := by
  obtain ⟨hkept, himports⟩ := isRead_of_expand assembler file text
  rw [preprocess_eq]
  refine .andThen (himports.mono fun _ => .inl) fun imported himported => ?_
  have hremoved : ∀ line ∈ Comment.remove imported, assembler.IsRead file text line :=
    isRead_of_descends (Comment.descends_remove imported) (hkept imported himported)
  refine .andThen (Subroutine.blames_expand fun line hline => .inl (hremoved line hline))
    fun expanded hexpanded => ?_
  obtain ⟨body, rfl, hdescends⟩ := Subroutine.exists_body_of_expand hexpanded
  have hbody := isRead_of_descends hdescends hremoved
  refine .andThen (Constant.blames_replaceFrom ?_) fun replaced hreplaced => ?_
  · refine List.forall_mem_append.mpr ⟨fun line hline => ?_, fun line hline => ?_⟩
    · exact .inr ⟨imported, himported, hline⟩
    · exact .inl (hbody line hline)
  -- only here the lines in front of the program are gone
  obtain ⟨table, hreplaced⟩ := Subroutine.exists_table_of_front hreplaced
  have hreplaced := isRead_of_descends (Constant.descends_of_replaceFrom hreplaced) hbody
  refine .andThen (Label.blames_replace fun line hline => .inl (hreplaced line hline))
    fun kept hkept => ?_
  have hkept := isRead_of_descends (Label.descends_of_replace hkept) hreplaced
  exact Character.blames_replace fun line hline => .inl (hkept line hline)

theorem blames_assemble (assembler : Assembler) (file text : String) :
    Blames (fun line => assembler.IsRead file text line ∨ assembler.IsGenerated file text line)
      (assembler.assemble file text).result := by
  refine .andThen (blames_preprocess assembler file text) fun lines hlines => ?_
  obtain ⟨imported, -, htraces⟩ := exists_traces_of_preprocess hlines
  exact .map (Listing.blames_ofLines fun line hline => .inl (htraces.isRead line hline)) _

end Assembler

/-- **Provenance survives the pipeline.** For every text, all files, every configuration and every
policy: the lines that a text is preprocessed to come from the lines that its imports put together,
in their order, and none of them from a line that subroutines put in front of the program.
Each stands in the text or in an imported file, as the line with its number. A fault of
preprocessing or assembling has a line, and this line stands in the text or in a file that was read,
unless it is one of those in front of a program with subroutines. -/
theorem provenance_survives (assembler : Assembler) (file text : String) :
    (∀ lines, (assembler.preprocess file text).result = .ok lines →
      ∃ imported, Import.expand assembler.files (Line.ofText file text) = .ok imported ∧
        assembler.Traces file text imported lines) ∧
      ∀ fault, (assembler.preprocess file text).result = .error fault ∨
          (assembler.assemble file text).result = .error fault →
        ∃ line, (assembler.IsRead file text line ∨ assembler.IsGenerated file text line) ∧
          fault.line = some line := by
  refine ⟨fun lines h => Assembler.exists_traces_of_preprocess h, fun fault h => ?_⟩
  rcases h with h | h
  · exact Assembler.blames_preprocess assembler file text fault h
  · exact Assembler.blames_assemble assembler file text fault h

/-! ### A fault in an imported file -/

namespace Provenance.Sample

def text : String := "#import lib\nHALT"

def library : String := "; adds nothing yet\nADD [0]"

def assembler : Assembler := { files := ⟨[("lib", .ok library)]⟩ }

def line (number : Nat) (file source : String) : Line := ⟨number, file, source, source⟩

/-- The lines that imports put together. -/
def imported : List Line :=
  [line 1 "lib" "; adds nothing yet", line 2 "lib" "ADD [0]", line 2 "sample" "HALT"]

def lines : List Line := [line 2 "lib" "ADD [0]", line 2 "sample" "HALT"]

theorem preprocess_text : (assembler.preprocess "sample" text).result = .ok lines := by
  refine Assembler.preprocess_eq_ok_iff.mpr ⟨lines, lines, ?_, by decide +kernel, by decide +kernel⟩
  refine Assembler.prepared_eq_ok_iff.mpr
    ⟨imported, lines, ?_, by decide +kernel, by decide +kernel⟩
  have hlines : Line.ofText "sample" text
      = [line 1 "sample" "#import lib", line 2 "sample" "HALT"] := by
    decide +kernel
  have hfile : Line.ofText "lib" library
      = [line 1 "lib" "; adds nothing yet", line 2 "lib" "ADD [0]"] := by
    decide +kernel
  have hrest : (Import.expandFrom assembler.files ["lib"] [line 2 "sample" "HALT"]).result
      = .ok [line 2 "sample" "HALT"] :=
    Import.result_expandFrom_of_no_directive _ _ (by decide +kernel)
  have himport : (Import.expandFrom assembler.files []
      [line 1 "sample" "#import lib", line 2 "sample" "HALT"]).result
        = .ok (Line.ofText "lib" library ++ [line 2 "sample" "HALT"]) :=
    Import.result_expandFrom_of_flat (by decide +kernel) (by decide) (by decide) rfl
      (by rw [hfile]; decide +kernel) hrest
  rw [hfile] at himport
  rw [Import.expand, hlines]
  exact himport

/-- The fault of an operation without its second operand. -/
def fault : Fault := .inLine (line 2 "lib" "ADD [0]") (.missingOperands .add)

theorem assemble_text : (assembler.assemble "sample" text).result = .error fault :=
  Failure.andThen_iff.mpr (.inr ⟨lines, preprocess_text, by decide +kernel⟩)

end Provenance.Sample

open Provenance.Sample in
theorem provenance_survives_sample :
    (∃ imported, assembler.Traces "sample" text imported lines) ∧
      ∃ line, (assembler.IsRead "sample" text line ∨ assembler.IsGenerated "sample" text line) ∧
        fault.line = some line := by
  obtain ⟨htraces, hblames⟩ := provenance_survives assembler "sample" text
  obtain ⟨imported, -, htraces⟩ := htraces lines preprocess_text
  exact ⟨⟨imported, htraces⟩, hblames fault (.inr assemble_text)⟩

end CellAsm
