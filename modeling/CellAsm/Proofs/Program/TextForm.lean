import CellAsm.Program.Hex
import CellAsm.Proofs.Pass.Plain
import CellAsm.Proofs.Text.Hexadecimal
import CellAsm.Proofs.Text.Runs

set_option autoImplicit false

/-! # The text form of a program

A program is written as its words in hexadecimal notation. Each word is one run of characters
without blanks, and these runs are found again in the text. So the text form of a program is read
as a program with the same words (`Program.ofText_text`); what is lost is which lines they come
from.
-/

namespace CellAsm

/-- Without apostrophes there is no space literal, so tokens are what blanks separate. -/
theorem Token.scan_eq_words {s : List Char} (h : '\'' ∉ s) : scan s = Text.words s := by
  induction s using scan.induct with
  | case1 s hs => rw [scan_of_trimStart_eq_nil hs, Text.words_of_trimStart_eq_nil hs]
  | case2 s c r hs ih =>
      have hsub : ∀ d ∈ c :: r, d ∈ s := fun d hd =>
        (Text.trimStart_suffix s).subset (by rw [hs]; exact hd)
      have hcut : cut (c :: r) = (Text.word (c :: r), Text.afterWord (c :: r)) := by
        unfold cut
        split
        · next heq =>
          obtain ⟨rfl, -⟩ := List.cons.inj heq
          exact absurd (hsub '\'' List.mem_cons_self) h
        · rfl
      have hrest : Text.afterWord (c :: r) ⊆ c :: r := (List.dropWhile_sublist _).subset
      have hafter : '\'' ∉ (cut (c :: r)).2 := by
        rw [hcut]
        exact fun hmem => h (hsub '\'' (hrest hmem))
      rw [scan_of_trimStart_eq_cons hs, Text.words_of_trimStart_eq_cons hs, ih hafter, hcut]

/-- Plain tokens are found again between the spaces that separate them. -/
theorem Token.words_join_of_isPlain {tokens : List Token} (h : ∀ token ∈ tokens, token.IsPlain) :
    Text.words (join tokens) = tokens := by
  have hjoin : '\'' ∉ join tokens := by
    intro hmem
    rcases mem_join hmem with hspace | ⟨token, htoken, hmem⟩
    · cases hspace
    · exact (h token htoken).not_mem hmem
  rw [← scan_eq_words hjoin, scan_join_of_isPlain h]

namespace Program

theorem isPlain_wordText (word : UInt64) : Token.IsPlain (wordText word) := by
  refine ⟨List.cons_ne_nil _ _, fun c hc => ?_⟩
  rcases List.mem_append.mp hc with hc | hc
  · have hmark : ∀ c ∈ ['0', 'x'], Text.isBlank c = false ∧ c ≠ '\'' :=
      List.all_iff_forall_prop.mp (by decide)
    exact hmark c hc
  · obtain ⟨d, hd⟩ := (Text.writes_hexadecimal word.toNat).exists_digit hc
    refine ⟨Text.isBlank_of_digit? hd, ?_⟩
    rintro rfl
    cases hd

theorem readWord_wordText (word : UInt64) : readWord (wordText word) = .ok word := by
  have hdigits : Text.hexadecimal? (Text.hexadecimal word.toNat) = some word := by
    rw [Text.hexadecimal?_hexadecimal word.toNat_lt, UInt64.ofNat_toNat]
  simp only [readWord, wordText, List.cons_append, List.nil_append, hdigits]

/-- **The text form of a program is read as its words.** -/
theorem ofText_text (program : Program) :
    ofText program.text = .ok { words := program.words } := by
  have hwords : Text.words program.text.toList = program.words.toList.map wordText := by
    rw [text, String.toList_ofList]
    exact Token.words_join_of_isPlain (List.forall_mem_map.mpr fun word _ => isPlain_wordText word)
  have hread : (program.words.toList.map wordText).mapM readWord = .ok program.words.toList := by
    refine Success.mapM_iff.mpr (List.forall₂_map_left_iff.mpr ?_)
    exact List.forall₂_same.mpr fun word _ => readWord_wordText word
  rw [ofText, hwords, hread]

end Program

end CellAsm
