import CellAsm.Assembler
import CellAsm.Proofs.Program.Generation

set_option autoImplicit false

/-! # The stages of a successful assembly

A text assembles exactly when every pass succeeds on what the pass before it left. The passes in
front of the labels prepare the lines (`prepared_eq_ok_iff`); then the table of labels is filled,
and the lines generate the instructions of the program (`assemble_eq_ok_iff`). The theorems about
assembled programs start here.
-/

namespace CellAsm

namespace Assembler

/-- The second pass goes on with what the imports expand to. -/
theorem preprocessLines_of_expand (assembler : Assembler) {lines imported : List Line}
    (h : Import.expand assembler.files lines = .ok imported) :
    assembler.preprocessLines lines =
      Pass.applyAll assembler [.comments, .subroutines, .constants, .labels, .characters]
        imported := by
  have hfirst : Pass.apply assembler .imports lines = ⟨[], .ok imported⟩ :=
    congrArg Report.ofExcept h
  exact congrArg (· >>= _) hfirst

/-- The lines of a text in front of the label pass. -/
def prepared (assembler : Assembler) (file text : String) : Report (List Line) :=
  Pass.applyAll assembler [.imports, .comments, .subroutines, .constants] (Line.ofText file text)

variable {assembler : Assembler} {file text : String}

theorem prepared_eq_ok_iff {lines : List Line} :
    (assembler.prepared file text).result = .ok lines ↔
      ∃ imported expanded, Import.expand assembler.files (Line.ofText file text) = .ok imported ∧
        Subroutine.expand (Comment.remove imported) = .ok expanded ∧
        (Constant.replace assembler.policy assembler.config.memorySize expanded).result
          = .ok lines := by
  simp only [prepared, Pass.applyAll, Pass.apply, Report.bind_eq, Success.andThen_iff,
    Report.ofExcept, Report.pure_eq, Except.ok.injEq]
  constructor
  · rintro ⟨imported, himported, _, rfl, expanded, hexpanded, _, hlines, rfl⟩
    exact ⟨imported, expanded, himported, hexpanded, hlines⟩
  · rintro ⟨imported, expanded, himported, hexpanded, hlines⟩
    exact ⟨imported, himported, _, rfl, expanded, hexpanded, lines, hlines, rfl⟩

theorem preprocess_eq_ok_iff {coded : List Line} :
    (assembler.preprocess file text).result = .ok coded ↔
      ∃ lines kept, (assembler.prepared file text).result = .ok lines ∧
        Label.replace lines = .ok kept ∧ Character.replace kept = .ok coded := by
  simp only [preprocess, preprocessLines, prepared, Pass.order, Pass.applyAll, Pass.apply,
    Report.bind_eq, Success.andThen_iff, Report.ofExcept, Report.pure_eq, Except.ok.injEq]
  constructor
  · rintro ⟨i, hi, c, rfl, s, hs, lines, hlines, kept, hkept, _, hcoded, rfl⟩
    exact ⟨lines, kept, ⟨i, hi, _, rfl, s, hs, lines, hlines, rfl⟩, hkept, hcoded⟩
  · rintro ⟨lines, kept, ⟨i, hi, c, rfl, s, hs, _, hlines, rfl⟩, hkept, hcoded⟩
    exact ⟨i, hi, _, rfl, s, hs, _, hlines, kept, hkept, coded, hcoded, rfl⟩

/-- **A text assembles when its lines can be prepared, their labels can be entered and the lines
generate the program.** -/
theorem assemble_eq_ok_iff {program : Program} :
    (assembler.assemble file text).result = .ok program ↔
      ∃ lines labels listing, (assembler.prepared file text).result = .ok lines ∧
        ({} : Label.Table).enterLines lines = .ok labels ∧ labels.Generates lines listing ∧
        program = .ofListing listing := by
  rw [assemble, Report.bind_eq, Success.andThen_iff]
  constructor
  · rintro ⟨coded, hcoded, hprogram⟩
    obtain ⟨lines, kept, hlines, hkept, hcoded⟩ := preprocess_eq_ok_iff.mp hcoded
    obtain ⟨labels, hlabels, hkept⟩ := Success.bind_iff.mp hkept
    obtain ⟨listing, hlisting, rfl⟩ := Success.map_iff.mp hprogram
    exact ⟨lines, labels, listing, hlines, hlabels, ⟨kept, coded, hkept, hcoded, hlisting⟩, rfl⟩
  · rintro ⟨lines, labels, listing, hlines, hlabels, ⟨kept, coded, hkept, hcoded, hlisting⟩, rfl⟩
    refine ⟨coded, preprocess_eq_ok_iff.mpr ⟨lines, kept, hlines, ?_, hcoded⟩, ?_⟩
    · exact Success.bind_iff.mpr ⟨labels, hlabels, hkept⟩
    · exact Success.map_iff.mpr ⟨listing, hlisting, rfl⟩

end Assembler

end CellAsm
