import CellAsm.Proofs.Pass.Import
import CellAsm.Proofs.Program.Emission
import CellAsm.Proofs.Stages

set_option autoImplicit false

/-! # Labels agree with the addresses of the program

A program is the words of the emissions of its tokens, so the address of a label, which is a
number of tokens, is the number of words emitted for them (`label_address_eq_words_before`).
-/

namespace CellAsm

/-- The labels of a program agree with its addresses: the program is the words emitted for its
tokens, and the address of a label is the number of words emitted for the tokens before its
definition. So the word there is the first one emitted for the tokens after the definition, if
there is one, and otherwise the address is the end of the program. Every reference, before the
definition or after it, is written as the address and emits it. -/
structure LabelsAgree (labels : Label.Table) (program : Program) (emissions : List Emission) :
    Prop where
  words : program.words.toList = Emission.words emissions
  address : ∀ before definition after name, emissions = before ++ definition :: after →
    Label.ofToken? definition.token = some (.definition name) →
    labels.address? name = some (Emission.words before).length ∧
      program.word? (Emission.words before).length = (Emission.words after).head? ∧
      (Emission.words after = [] → (Emission.words before).length = program.size)
  reference : ∀ before definition after name, emissions = before ++ definition :: after →
    Label.ofToken? definition.token = some (.definition name) →
    ∀ emission ∈ emissions, Label.ofToken? emission.token = some (.reference name) →
      emission.emitted = some (Text.decimal (Emission.words before).length,
        UInt64.ofNat (Emission.words before).length) ∧
      (Emission.words before).length < 2 ^ 64

/-- Emissions of the tokens of all lines that make up a program are in agreement with it. -/
theorem LabelsAgree.of_emissions {lines : List Line} {labels : Label.Table} {program : Program}
    {emissions : List (List Emission)} (hlabels : ({} : Label.Table).enterLines lines = .ok labels)
    (hemissions : List.Forall₂ (Emission.OfLine labels) lines emissions)
    (hwords : program.words.toList = Emission.words emissions.flatten) :
    LabelsAgree labels program emissions.flatten := by
  have hplaced := Emission.isPlaced_of_mem hemissions
  have haddress : ∀ before definition after name,
      emissions.flatten = before ++ definition :: after →
      Label.ofToken? definition.token = some (.definition name) →
      labels.address? name = some (Emission.words before).length := by
    intro before definition after name hsplit hname
    have htokens : Label.Table.stream lines
        = before.map Emission.token ++ definition.token :: after.map Emission.token := by
      rw [← Emission.map_token_flatten hemissions, hsplit, List.map_append, List.map_cons]
    rw [hsplit, List.forall_mem_append] at hplaced
    rw [Emission.length_words hplaced.1]
    exact Label.Table.address?_of_enterLines hlabels htokens hname
  refine ⟨hwords, fun before definition after name hsplit hname => ?_,
    fun before definition after name hsplit hname emission hmem href => ?_⟩
  · -- the words of the program, cut at the definition
    have hdefinition : definition.word? = none := by
      refine Emission.word?_of_isDefinition (hplaced definition ?_)
        (Label.isDefinition_of_ofToken? hname)
      rw [hsplit]
      simp
    have hcut : program.words.toList = Emission.words before ++ Emission.words after := by
      rw [hwords, hsplit, Emission.words_append]
      congr 1
      exact List.filterMap_cons_none hdefinition
    refine ⟨haddress before definition after name hsplit hname, ?_, fun hafter => ?_⟩
    · rw [Program.word?, ← Array.getElem?_toList, hcut,
        List.getElem?_append_right (Nat.le_refl _), Nat.sub_self, List.head?_eq_getElem?]
    · rw [Program.size, ← Array.length_toList, hcut, hafter, List.append_nil]
  · obtain ⟨_, own, hown, hmem⟩ := Emission.exists_ofLine_of_mem hemissions hmem
    exact Emission.emitted_of_reference hown hmem href
      (haddress before definition after name hsplit hname)

/-- **Labels agree with addresses.** Whenever a text assembles, its labels can be entered, and
unless two tokens that remain in a line are joined to a space literal, codegen emits one word for
each token that defines no label and the labels agree with the addresses of these words. -/
theorem label_address_eq_words_before {assembler : Assembler} {file text : String}
    {program : Program} (h : (assembler.assemble file text).result = .ok program) :
    ∃ lines labels, (assembler.prepared file text).result = .ok lines ∧
      ({} : Label.Table).enterLines lines = .ok labels ∧
      ((∀ line ∈ lines, labels.Separates line) →
        ∃ emissions : List (List Emission),
          List.Forall₂ (Emission.OfLine labels) lines emissions ∧
          LabelsAgree labels program emissions.flatten) := by
  obtain ⟨lines, labels, listing, hlines, hlabels, hgen, rfl⟩ := Assembler.assemble_eq_ok_iff.mp h
  refine ⟨lines, labels, hlines, hlabels, fun hsep => ?_⟩
  obtain ⟨emissions, hemissions, hwords⟩ := Emission.exists_of_generates hsep hgen
  rw [← Program.toList_words_ofListing] at hwords
  exact ⟨emissions, hemissions, .of_emissions hlabels hemissions hwords⟩

/-! ### Labels in a row, in the middle of a line, alone on a line and used before -/

namespace LabelsAgree.Sample

def text : String := "JMP :end\na: b: APRINT ' ' c:\nd:\nJMP :b\nend: HALT"

def lines : List Line := Line.ofText "sample" text

def labels : Label.Table where
  addresses := [("end".toList, 6), ("d".toList, 4), ("c".toList, 4), ("b".toList, 2),
    ("a".toList, 2)]
  position := 12

/-- A line of the text with what the label pass and the character pass make of it. -/
def line (number : Nat) (source contents : String) : Line := ⟨number, "sample", source, contents⟩

def listing : Listing :=
  [(line 1 "JMP :end" "JMP 6", ⟨⟨0x0F, .jmp, [.literal]⟩, [6]⟩),
    (line 2 "a: b: APRINT ' ' c:" "APRINT 32", ⟨⟨0x21, .aprint, [.literal]⟩, [32]⟩),
    (line 4 "JMP :b" "JMP 2", ⟨⟨0x0F, .jmp, [.literal]⟩, [2]⟩),
    (line 5 "end: HALT" "HALT", ⟨⟨0xFF, .halt, []⟩, []⟩)]

theorem prepared_text : (({} : Assembler).prepared "sample" text).result = .ok lines := by
  refine Assembler.prepared_eq_ok_iff.mpr ⟨lines, lines, ?_, ?_, ?_⟩
  · exact Import.expand_of_no_directive _ (by decide)
  · rfl
  · decide +kernel

theorem enterLines_lines : ({} : Label.Table).enterLines lines = .ok labels := by decide +kernel

theorem generates_lines : labels.Generates lines listing := by
  refine ⟨[line 1 "JMP :end" "JMP 6", line 2 "a: b: APRINT ' ' c:" "APRINT ' '",
    line 4 "JMP :b" "JMP 2", line 5 "end: HALT" "HALT"], listing.map Prod.fst, ?_, ?_, ?_⟩
  · decide +kernel
  · decide +kernel
  · decide +kernel

theorem separates_lines : ∀ line ∈ lines, labels.Separates line := by
  have hkept : lines.mapM (fun line => labels.replaceTokens line.tokens)
      = .ok [["JMP".toList, "6".toList], ["APRINT".toList, Token.spaceLiteral], [],
        ["JMP".toList, "2".toList], ["HALT".toList]] := by decide +kernel
  have hseparated : ∀ kept ∈ [["JMP".toList, "6".toList], ["APRINT".toList, Token.spaceLiteral], [],
      ["JMP".toList, "2".toList], ["HALT".toList]], Token.IsSeparated kept := by decide
  intro line hline kept hkeptLine
  obtain ⟨kept', hmem, hkept'⟩ := Success.exists_mem_of_mapM hkept hline
  obtain rfl := Except.ok.inj (hkeptLine.symm.trans hkept')
  exact hseparated kept hmem

end LabelsAgree.Sample

open LabelsAgree.Sample in
theorem label_address_eq_words_before_sample :
    (({} : Assembler).assemble "sample" text).result = .ok (.ofListing listing) ∧
      ∃ emissions, LabelsAgree labels (.ofListing listing) emissions := by
  have h : (({} : Assembler).assemble "sample" text).result = .ok (.ofListing listing) :=
    Assembler.assemble_eq_ok_iff.mpr
      ⟨lines, labels, listing, prepared_text, enterLines_lines, generates_lines, rfl⟩
  refine ⟨h, ?_⟩
  obtain ⟨lines', labels', hlines, hlabels, hagree⟩ := label_address_eq_words_before h
  obtain rfl := Except.ok.inj (prepared_text.symm.trans hlines)
  obtain rfl := Except.ok.inj (enterLines_lines.symm.trans hlabels)
  obtain ⟨emissions, -, hagree⟩ := hagree separates_lines
  exact ⟨emissions.flatten, hagree⟩

end CellAsm
