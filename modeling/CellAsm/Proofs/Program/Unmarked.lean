import CellAsm.Proofs.Pass.Settled
import CellAsm.Proofs.Program.Spelling

set_option autoImplicit false

/-! # The characters of instructions

Names of operations are letters, and operands are digits with brackets and a plus sign, so the
tokens of instructions hold none of the characters that a pass acts on
(`Instruction.Spells.unmarked`). The last passes leave every line as joined tokens. If such a
line spells instructions, it is settled (`Line.isSettled_of_spells`): each of its characters but
the spaces stands in a token that is read from it.
-/

namespace CellAsm

/-! ## Tokens of instructions -/

theorem Mnemonic.unmarked_of_ofToken? {token : Token} {mnemonic : Mnemonic}
    (h : ofToken? token = some mnemonic) : ∀ c ∈ token, c ∉ Token.markers := by
  have hname : mnemonic.name.toList = token.map Char.toUpper := by
    simpa using List.find?_some h
  have hupper : ∀ c ∈ Token.markers, c.toUpper ∉ mnemonic.name.toList := by
    rw [Token.forall_mem_markers]
    cases mnemonic <;> decide
  intro c hc hmarker
  refine hupper c hmarker ?_
  rw [hname]
  exact List.mem_map_of_mem hc

namespace Text

/-- A numeral is made of digits and a plus sign. -/
theorem mem_of_decimal? {s : List Char} {word : UInt64} (h : decimal? s = some word) :
    ∀ c ∈ s, c = '+' ∨ (digit? 10 c).isSome := by
  obtain ⟨digits, hdigits, -⟩ := Option.bind_eq_some_iff.mp h
  have hsome := fun c hc => Option.isSome_iff_exists.mpr (exists_of_mapM hdigits c hc)
  unfold dropPlus at hsome
  split at hsome
  · exact List.forall_mem_cons.mpr ⟨.inl rfl, fun c hc => .inr (hsome c hc)⟩
  · exact fun c hc => .inr (hsome c hc)

end Text

namespace Instruction

/-- An operand is a numeral in brackets. -/
theorem mem_of_mem_operand {token : Token} {c : Char} (h : c ∈ token) :
    c = '[' ∨ c = ']' ∨ c ∈ bareOperand token := by
  rw [← List.takeWhile_append_dropWhile (p := fun d => decide (d = '[')) (l := token),
    List.mem_append] at h
  rcases h with hopening | hrest
  · exact .inl (by simpa using List.mem_takeWhile_imp hopening)
  · rw [← List.mem_reverse, ← List.takeWhile_append_dropWhile (p := fun d => decide (d = ']'))
      (l := (token.dropWhile fun d => decide (d = '[')).reverse), List.mem_append] at hrest
    rcases hrest with hclosing | hbare
    · exact .inr (.inl (by simpa using List.mem_takeWhile_imp hclosing))
    · exact .inr (.inr (List.mem_reverse.mpr hbare))

theorem unmarked_of_operandWord {token : Token} {word : UInt64} (h : operandWord token = .ok word) :
    ∀ c ∈ token, c ∉ Token.markers := by
  have hnumeral : ∃ word, Text.decimal? (bareOperand token) = some word := by
    unfold operandWord at h
    split at h
    · exact ⟨_, ‹_›⟩
    · cases h
  obtain ⟨word, hword⟩ := hnumeral
  have hother : ∀ c ∈ Token.markers,
      c ≠ '[' ∧ c ≠ ']' ∧ c ≠ '+' ∧ (Text.digit? 10 c).isSome = false :=
    Token.forall_mem_markers.mpr (by decide)
  intro c hc hmarker
  obtain ⟨hopening, hclosing, hplus, hdigit⟩ := hother c hmarker
  rcases mem_of_mem_operand hc with hc | hc | hc
  · exact hopening hc
  · exact hclosing hc
  · rcases Text.mem_of_decimal? hword c hc with hc | hc
    · exact hplus hc
    · rw [hdigit] at hc
      cases hc

/-- **Instructions are written without the characters that passes act on.** -/
theorem Spells.unmarked {tokens : List Token} {instructions : List Instruction}
    (h : Spells tokens instructions) : ∀ token ∈ tokens, ∀ c ∈ token, c ∉ Token.markers := by
  induction h with
  | nil => simp
  | cons hname _ _ hvalues _ ih =>
      rw [List.cons_append]
      refine List.forall_mem_cons.mpr ⟨Mnemonic.unmarked_of_ofToken? hname, ?_⟩
      refine List.forall_mem_append.mpr ⟨fun operand hoperand => ?_, ih⟩
      obtain ⟨word, -, hword⟩ :=
        Success.exists_mem_of_mapM (Success.mapM_iff.mpr hvalues) hoperand
      exact unmarked_of_operandWord hword

end Instruction

/-! ## Lines of instructions -/

namespace Token

theorem isSettled_of_isProper {token : Token} (h : token.IsProper)
    (hunmarked : ∀ c ∈ token, c ∉ markers) : token.IsSettled := by
  rcases h with rfl | ⟨hne, hblank⟩
  · exact absurd (by decide) (hunmarked '\'' (by decide))
  · exact ⟨hne, hblank, hunmarked⟩

end Token

/-- The line was left as joined tokens, of which there is at least one. -/
def Line.IsJoined (line : Line) : Prop :=
  ∃ tokens, tokens ≠ [] ∧ (∀ token ∈ tokens, token.IsProper) ∧
    line.contents.toList = Token.join tokens

/-- **Joined tokens that spell instructions are a settled line.** -/
theorem Line.isSettled_of_spells {line : Line} {instructions : List Instruction}
    (hjoined : line.IsJoined) (h : Instruction.Spells line.tokens instructions) :
    line.IsSettled := by
  obtain ⟨tokens, hne, hproper, hcontents⟩ := hjoined
  -- no character but the spaces is a marker, since it is read as part of an instruction
  have hunmarked : ∀ c ∈ line.contents.toList, Text.isBlank c = false → c ∉ Token.markers := by
    intro c hc hblank
    obtain ⟨token, htoken, hmem⟩ := Token.exists_mem_scan_of_mem hc hblank
    exact h.unmarked token htoken c hmem
  refine .of_join hcontents (fun token htoken => ?_) hne
  refine Token.isSettled_of_isProper (hproper token htoken) fun c hc hmarker => ?_
  have hblank : ∀ c ∈ Token.markers, Text.isBlank c = false :=
    Token.forall_mem_markers.mpr (by decide)
  refine hunmarked c ?_ (hblank c hmarker) hmarker
  rw [hcontents]
  exact Token.mem_join_of_mem htoken hc

end CellAsm
