import CellAsm.Console.Rendering
import CellAsm.Proofs.Program.Unmarked
import CellAsm.Proofs.Stages
import CellAsm.Proofs.Text.PhysicalLines

set_option autoImplicit false

/-! # What the preprocessor writes assembles to the same program

The last passes leave joined tokens (`Assembler.isJoined_of_preprocess`), and joined tokens that
spell instructions are settled lines. So the lines of an assembled program can be written to a
text, and any assembler finds them again in it, changes nothing and generates the same words
(`preprocess_fixed_point`).
-/

namespace CellAsm

/-! ## The lines that the preprocessor leaves -/

/-- The label pass leaves joined tokens, and no line without tokens. -/
theorem Label.Table.isJoined_of_replaceLines {table : Table} {lines kept : List Line}
    (h : table.replaceLines lines = .ok kept) : ∀ line ∈ kept, line.IsJoined := by
  induction lines generalizing kept with
  | nil =>
      obtain rfl := Except.ok.inj h
      simp
  | cons line lines ih =>
      obtain ⟨tokens, htokens, h⟩ := Success.bind_iff.mp h
      obtain ⟨rest, hrest, h⟩ := Success.bind_iff.mp h
      obtain rfl := Success.pure_iff.mp h
      have hproper := isProper_of_mem_kept (Success.check_iff.mp htokens)
      split
      · exact ih hrest
      · next hne =>
        refine List.forall_mem_cons.mpr ⟨⟨tokens, hne, hproper, ?_⟩, ih hrest⟩
        exact Line.toList_contents_withContents line _

namespace Character

/-- The literal pass leaves a line of tokens as joined tokens. -/
theorem isJoined_of_replaceLine {line coded : Line} (hline : line.IsJoined)
    (h : replaceLine line = .ok coded) : coded.IsJoined := by
  obtain ⟨tokens, hne, hproper, hcontents⟩ := hline
  obtain ⟨codes, hforall, rfl⟩ := replaceLine_eq_ok_iff.mp h
  refine ⟨codes, ?_, ?_, Line.toList_contents_withContents line _⟩
  · -- the first token begins with a character that is no blank, and so does what it becomes
    rintro rfl
    obtain ⟨token, rest, rfl⟩ := List.exists_cons_of_ne_nil hne
    obtain ⟨c, token, rfl, hc⟩ := (hproper _ List.mem_cons_self).exists_cons
    obtain ⟨s, hs⟩ : ∃ s, line.contents.toList = c :: s := by
      rw [hcontents, ← List.head?_eq_some_iff, Token.head?_join_cons (hproper _ List.mem_cons_self)]
      rfl
    obtain ⟨d, rest, hspaces, hd⟩ := exists_cons_of_replaceSpaces hc s
    obtain ⟨found, hfound, -⟩ := Token.exists_mem_scan_of_mem
      (show d ∈ replaceSpaces line.contents.toList by rw [hs, hspaces]; exact List.mem_cons_self) hd
    rw [List.forall₂_nil_right_iff.mp hforall] at hfound
    cases hfound
  · exact isProper_of_mem_codes (fun _ => Token.isProper_of_mem_scan) hforall

end Character

namespace Assembler

variable {assembler : Assembler} {file text : String} {lines : List Line}

theorem isJoined_of_preprocess (h : (assembler.preprocess file text).result = .ok lines) :
    ∀ line ∈ lines, line.IsJoined := by
  obtain ⟨prepared, kept, -, hkept, hlines⟩ := preprocess_eq_ok_iff.mp h
  obtain ⟨table, -, hkept⟩ := Success.bind_iff.mp hkept
  intro line hline
  obtain ⟨source, hsource, hline⟩ := Success.exists_source_of_mapM hlines hline
  have hjoined := Label.Table.isJoined_of_replaceLines hkept source hsource
  exact Character.isJoined_of_replaceLine hjoined hline

/-- The lines of an assembled program are settled. -/
theorem isSettled_of_preprocess (h : (assembler.preprocess file text).result = .ok lines)
    {listing : Listing} (hlisting : Listing.IsSpelled lines listing) :
    ∀ line ∈ lines, line.IsSettled := by
  intro line hline
  obtain ⟨instructions, hspells⟩ := hlisting.exists_spells line hline
  exact Line.isSettled_of_spells (isJoined_of_preprocess h line hline) hspells

end Assembler

/-! ## Settled lines in a text -/

namespace Line

theorem IsSettled.isPhysical {line : Line} (h : line.IsSettled) :
    Text.IsPhysical line.contents.toList := by
  rw [h.joined]
  exact Text.isPhysical_join fun token htoken => (h.tokens token htoken).blankless

end Line

section

variable {lines : List Line}

/-- Settled lines are found again in the text that separates them by line feeds and in the text
that ends each of them by a line feed. -/
theorem physicalLines_of_settled (h : ∀ line ∈ lines, line.IsSettled) {written : String}
    (hwritten : written ∈ ["\n".intercalate (lines.map Line.contents), Console.listed lines]) :
    Text.physicalLines written.toList = lines.map fun line => line.contents.toList := by
  have hphysical : ∀ text ∈ lines.map fun line => line.contents.toList, Text.IsPhysical text :=
    List.forall_mem_map.mpr fun line hline => (h line hline).isPhysical
  have hne : ∀ text ∈ lines.map fun line => line.contents.toList, text ≠ [] :=
    List.forall_mem_map.mpr fun line hline => (h line hline).contents_ne_nil
  simp only [List.mem_cons, List.not_mem_nil, or_false] at hwritten
  rcases hwritten with rfl | rfl
  · rw [String.toList_intercalate, List.map_map]
    exact Text.physicalLines_separated hphysical hne
  · have hlisted : (Console.listed lines).toList
        = (lines.map fun line => line.contents.toList).flatMap (· ++ ['\n']) := by
      have h := Text.toList_join_ended (lines.map Line.contents)
      rwa [List.map_map, List.map_map] at h
    rw [hlisted, Text.physicalLines_ended hphysical]

theorem map_contents_ofText {written : String} (file : String)
    (h : Text.physicalLines written.toList = lines.map fun line => line.contents.toList) :
    (Line.ofText file written).map Line.contents = lines.map Line.contents := by
  rw [Line.ofText, Line.map_contents_numberedFrom, h, List.map_map]
  exact List.map_congr_left fun line _ => String.ofList_toList

/-- Lines with the contents of settled lines are settled. -/
theorem isSettled_of_map_contents {lines' : List Line} (h : ∀ line ∈ lines, line.IsSettled)
    (hcontents : lines'.map Line.contents = lines.map Line.contents) :
    ∀ line ∈ lines', line.IsSettled := by
  intro line' hline'
  obtain ⟨line, hline, heq⟩ : ∃ line ∈ lines, line.contents = line'.contents := by
    rw [← List.mem_map, ← hcontents]
    exact List.mem_map_of_mem hline'
  exact (h line hline).congr heq.symm

end

/-- **What the preprocessor writes for an assembled program is a fixed point**: any assembler, with
other parameters, files and policy and under any file name, finds the same contents in it without
a warning, and assembles it to the same words. The lines may be separated or ended by line
feeds. -/
theorem preprocess_fixed_point {assembler : Assembler} {file text : String} {program : Program}
    (h : (assembler.assemble file text).result = .ok program) :
    ∃ lines, (assembler.preprocess file text).result = .ok lines ∧
      ∀ written ∈ ["\n".intercalate (lines.map Line.contents), Console.listed lines],
        ∀ (again : Assembler) (file' : String),
          (∃ lines', again.preprocess file' written = ⟨[], .ok lines'⟩ ∧
            lines'.map Line.contents = lines.map Line.contents) ∧
          ∃ program', again.assemble file' written = ⟨[], .ok program'⟩ ∧
            program'.words = program.words := by
  rw [Assembler.assemble, Report.bind_eq, Success.andThen_iff] at h
  obtain ⟨lines, hlines, hprogram⟩ := h
  obtain ⟨listing, hlisting, rfl⟩ := Success.map_iff.mp hprogram
  have hspelled := Listing.ofLines_eq_ok_iff.mp hlisting
  have hsettled := Assembler.isSettled_of_preprocess hlines hspelled
  refine ⟨lines, hlines, fun written hwritten again file' => ?_⟩
  have hcontents := map_contents_ofText file' (physicalLines_of_settled hsettled hwritten)
  have hpreprocess : again.preprocess file' written = ⟨[], .ok (Line.ofText file' written)⟩ :=
    Pass.applyAll_of_settled again Pass.order (isSettled_of_map_contents hsettled hcontents)
  obtain ⟨listing', hspelled', hwords⟩ := hspelled.exists_of_contents hcontents
  refine ⟨⟨_, hpreprocess, hcontents⟩, .ofListing listing', ?_, ?_⟩
  · have hprogram' : Program.ofLines (Line.ofText file' written) = .ok (.ofListing listing') :=
      Success.map_iff.mpr ⟨listing', Listing.ofLines_eq_ok_iff.mpr hspelled', rfl⟩
    rw [Assembler.assemble, hpreprocess, Report.bind_eq, Report.andThen_ok, hprogram']
    rfl
  · rw [← Array.toList_inj, Program.toList_words_ofListing, Program.toList_words_ofListing, hwords]

/-! ### A label, a literal and a comment -/

namespace FixedPoint.Sample

def text : String := "loop: APRINT ' ' ; a space\n\nJMP :loop"

def line (number : Nat) (source contents : String) : Line := ⟨number, "sample", source, contents⟩

/-- The lines after comments and before labels. -/
def lines : List Line :=
  [line 1 "loop: APRINT ' ' ; a space" "loop: APRINT ' '", line 3 "JMP :loop" "JMP :loop"]

def listing : Listing :=
  [(line 1 "loop: APRINT ' ' ; a space" "APRINT 32", ⟨⟨0x21, .aprint, [.literal]⟩, [32]⟩),
    (line 3 "JMP :loop" "JMP 0", ⟨⟨0x0F, .jmp, [.literal]⟩, [0]⟩)]

theorem assemble_text :
    (({} : Assembler).assemble "sample" text).result = .ok (.ofListing listing) := by
  refine Assembler.assemble_eq_ok_iff.mpr
    ⟨lines, ⟨[("loop".toList, 0)], 5⟩, listing, ?_, ?_, ?_, rfl⟩
  · refine Assembler.prepared_eq_ok_iff.mpr ⟨Line.ofText "sample" text, lines, ?_, ?_, ?_⟩
    · exact Import.expand_of_no_directive _ (by decide +kernel)
    · decide +kernel
    · decide +kernel
  · decide +kernel
  · refine ⟨[line 1 "loop: APRINT ' ' ; a space" "APRINT ' '", line 3 "JMP :loop" "JMP 0"],
      listing.map Prod.fst, ?_, ?_, ?_⟩
    · decide +kernel
    · decide +kernel
    · decide +kernel

end FixedPoint.Sample

open FixedPoint.Sample in
theorem preprocess_fixed_point_sample :
    (({} : Assembler).assemble "sample" text).result = .ok (.ofListing listing) ∧
      ∃ lines, (({} : Assembler).preprocess "sample" text).result = .ok lines ∧
        ∃ program, ({ policy := .collect } : Assembler).assemble "again" (Console.listed lines)
          = ⟨[], .ok program⟩ ∧ program.words = #[0x21, 32, 0x0F, 0] := by
  refine ⟨assemble_text, ?_⟩
  obtain ⟨lines, hlines, hagain⟩ := preprocess_fixed_point assemble_text
  obtain ⟨-, program, hprogram, hwords⟩ :=
    hagain (Console.listed lines) (by simp) { policy := .collect } "again"
  exact ⟨lines, hlines, program, hprogram, hwords⟩

end CellAsm
