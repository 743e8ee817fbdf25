import CellAsm.Assembler
import CellAsm.Proofs.Pass.Import
import CellAsm.Proofs.Pass.Plain

set_option autoImplicit false

/-! # Lines that no pass changes

Every pass recognises what it acts on by a character: a directive by `#`, a comment by `;`, a
subroutine by `@`, a constant by `$`, a label by `:` and a literal by `'`. A line is settled if
it holds none of these characters and its tokens are separated by single spaces
(`Line.IsSettled`). Each pass leaves settled lines as they are, without warnings and whatever the
assembler is, and so do all passes together (`Pass.applyAll_of_settled`).
-/

namespace CellAsm

namespace Token

/-- The characters by which the passes recognise what they act on. -/
def markers : List Char := ['#', ';', '@', '$', ':', '\'']

theorem forall_mem_markers {p : Char → Prop} :
    (∀ c ∈ markers, p c) ↔ p '#' ∧ p ';' ∧ p '@' ∧ p '$' ∧ p ':' ∧ p '\'' := by
  simp [markers]

/-- A token that no pass changes. -/
structure IsSettled (token : Token) : Prop where
  ne_nil : token ≠ []
  blankless : ∀ c ∈ token, Text.isBlank c = false
  unmarked : ∀ c ∈ token, c ∉ markers

namespace IsSettled

variable {token : Token} {marker : Char}

theorem notMem (h : token.IsSettled) (hmarker : marker ∈ markers) : marker ∉ token :=
  fun hmem => h.unmarked marker hmem hmarker

theorem head?_ne (h : token.IsSettled) (hmarker : marker ∈ markers) :
    token.head? ≠ some marker :=
  fun hhead => h.notMem hmarker (List.mem_of_head? hhead)

theorem getLast?_ne (h : token.IsSettled) (hmarker : marker ∈ markers) :
    token.getLast? ≠ some marker :=
  fun hlast => h.notMem hmarker (List.mem_of_getLast? hlast)

theorem isPlain (h : token.IsSettled) : token.IsPlain := by
  refine ⟨h.ne_nil, fun c hc => ⟨h.blankless c hc, ?_⟩⟩
  rintro rfl
  exact h.notMem (by decide) hc

end IsSettled

/-- Joined tokens end like the last of them. -/
theorem exists_mem_of_getLast?_join {tokens : List Token} (h : ∀ token ∈ tokens, token ≠ [])
    {c : Char} (hc : (join tokens).getLast? = some c) : ∃ token ∈ tokens, c ∈ token := by
  induction tokens with
  | nil => cases hc
  | cons token tokens ih =>
      obtain ⟨htoken, htokens⟩ := List.forall_mem_cons.mp h
      cases tokens with
      | nil =>
          rw [join_singleton] at hc
          exact ⟨token, List.mem_cons_self, List.mem_of_getLast? hc⟩
      | cons next tokens =>
          -- there is something behind the first token, so it is not the one that ends the line
          have hne : join (next :: tokens) ≠ [] := by
            intro hnil
            have hnext := (List.forall_mem_cons.mp htokens).1
            cases tokens with
            | nil => exact hnext (by rwa [join_singleton] at hnil)
            | cons _ _ =>
                rw [join_cons_cons, List.append_eq_nil_iff] at hnil
                exact hnext hnil.1
          obtain ⟨d, hd⟩ := Option.isSome_iff_exists.mp (List.getLast?_isSome.mpr hne)
          rw [join_cons_cons, List.getLast?_append, List.getLast?_cons, hd] at hc
          obtain rfl : d = c := Option.some.inj hc
          obtain ⟨found, hfound, hmem⟩ := ih htokens hd
          exact ⟨found, List.mem_cons_of_mem token hfound, hmem⟩

/-- Joined tokens begin and end with no blank. -/
theorem trim_join {tokens : List Token} (h : ∀ token ∈ tokens, token.IsSettled) :
    Text.trim (join tokens) = join tokens := by
  refine Text.trim_of_ends (fun c hc => ?_) fun c hc => ?_
  · cases tokens with
    | nil => cases hc
    | cons token tokens =>
        have htoken := h token List.mem_cons_self
        rw [head?_join_cons htoken.isPlain.isProper] at hc
        exact htoken.blankless c (List.mem_of_head? hc)
  · obtain ⟨token, htoken, hmem⟩ :=
      exists_mem_of_getLast?_join (fun token htoken => (h token htoken).ne_nil) hc
    exact (h token htoken).blankless c hmem

end Token

/-- A line of settled tokens with single spaces between them, and of at least one token. -/
structure Line.IsSettled (line : Line) : Prop where
  tokens : ∀ token ∈ line.tokens, token.IsSettled
  joined : line.contents.toList = Token.join line.tokens
  ne_nil : line.tokens ≠ []

namespace Line.IsSettled

variable {line : Line}

/-- A line is settled if its contents are settled tokens that were joined. -/
theorem of_join {tokens : List Token} (hcontents : line.contents.toList = Token.join tokens)
    (htokens : ∀ token ∈ tokens, token.IsSettled) (hne : tokens ≠ []) : line.IsSettled := by
  have hscan : line.tokens = tokens := by
    rw [Line.tokens, hcontents]
    exact Token.scan_join_of_isPlain fun token htoken => (htokens token htoken).isPlain
  exact ⟨hscan ▸ htokens, by rw [hscan, hcontents], hscan ▸ hne⟩

/-- Being settled is a matter of the contents. -/
theorem congr {line' : Line} (h : line.IsSettled) (hcontents : line'.contents = line.contents) :
    line'.IsSettled :=
  .of_join (by rw [hcontents, h.joined]) h.tokens h.ne_nil

theorem notMem (h : line.IsSettled) {marker : Char} (hmarker : marker ∈ Token.markers) :
    marker ∉ line.contents.toList := by
  rw [h.joined]
  intro hmem
  rcases Token.mem_join hmem with rfl | ⟨token, htoken, hmem⟩
  · exact absurd hmarker (by decide)
  · exact (h.tokens token htoken).notMem hmarker hmem

theorem code (h : line.IsSettled) : line.code = line.contents.toList := by
  rw [Line.code, h.joined, Token.trim_join h.tokens]

theorem contents_ne_nil (h : line.IsSettled) : line.contents.toList ≠ [] := by
  intro hnil
  refine h.ne_nil ?_
  rw [Line.tokens, hnil, Token.scan_nil]

/-- A pass that writes the tokens back leaves the line as it was. -/
theorem withContents_join (h : line.IsSettled) :
    line.withContents (Token.join line.tokens) = line := by
  rw [← h.joined, Line.withContents, String.ofList_toList]

end Line.IsSettled

/-! ## Pass by pass -/

section

variable {line : Line} {lines : List Line}

theorem Import.expand_of_settled (files : Files) (h : ∀ line ∈ lines, line.IsSettled) :
    Import.expand files lines = .ok lines :=
  expand_of_no_directive files fun line hline =>
    path?_eq_none_of_notMem ((h line hline).notMem (by decide))

theorem Comment.remaining?_of_settled (h : line.IsSettled) : remaining? line = some line := by
  have hcode : codeOf line.contents.toList = line.contents.toList := by
    have huncommented : line.contents.toList.takeWhile (· ≠ ';') = line.contents.toList := by
      rw [List.takeWhile_eq_self_iff]
      intro c hc
      have hne : c ≠ ';' := by
        rintro rfl
        exact h.notMem (by decide) hc
      simpa using hne
    rw [codeOf, show Text.trim line.contents.toList = _ from h.code, huncommented]
    exact h.code
  rw [remaining?, hcode, if_neg h.contents_ne_nil, Line.withContents, String.ofList_toList]

theorem Comment.remove_of_settled (h : ∀ line ∈ lines, line.IsSettled) : remove lines = lines := by
  induction lines with
  | nil => rfl
  | cons line lines ih =>
      obtain ⟨hline, hlines⟩ := List.forall_mem_cons.mp h
      rw [remove, List.filterMap_cons_some (remaining?_of_settled hline)]
      exact congrArg (line :: ·) (ih hlines)

/-- A marker begins with a character that settled lines do not hold. -/
theorem Subroutine.of?_of_settled (h : line.IsSettled) : Marker.of? line = none := by
  cases hmarker : Marker.of? line with
  | none => rfl
  | some marker =>
      obtain ⟨rest, hrest⟩ := prefix_of_marker hmarker
      have hmem : '@' ∈ line.code := by
        rw [← hrest]
        exact List.mem_append_left rest (by cases marker <;> decide)
      rw [h.code] at hmem
      exact absurd hmem (h.notMem (by decide))

theorem Subroutine.expand_of_settled (h : ∀ line ∈ lines, line.IsSettled) :
    expand lines = .ok lines := by
  have hmarkers : ∀ (marker : Marker), ∀ line ∈ lines, Marker.of? line ≠ some marker := by
    intro marker line hline
    simp [of?_of_settled (h line hline)]
  have hcalls : ∀ line ∈ lines, ¬ Marker.call.spelling <:+: line.contents.toList := by
    intro line hline hcall
    exact (h line hline).notMem (by decide) (hcall.subset (show '@' ∈ Marker.call.spelling by decide))
  have hunused : checkUnused lines = .ok lines :=
    checkUnused_eq_ok_iff.mpr
      ⟨fun line hline => ⟨hcalls line hline, hmarkers .finish line hline⟩, rfl⟩
  exact Success.bind_iff.mpr ⟨[], declare_eq_self (hmarkers .start), hunused⟩

theorem Constant.replaceFrom_of_settled (policy : Policy) (cells : Nat)
    (h : ∀ line ∈ lines, line.IsSettled) (table : Table) :
    replaceFrom policy cells table lines = ⟨[], .ok lines⟩ := by
  induction lines with
  | nil => rfl
  | cons line lines ih =>
      obtain ⟨hline, hlines⟩ := List.forall_mem_cons.mp h
      have hcode : Statement.ofTokens line.tokens = .code line.tokens := by
        obtain ⟨token, tokens, htokens⟩ := List.exists_cons_of_ne_nil hline.ne_nil
        have htoken : token ∈ line.tokens := htokens ▸ List.mem_cons_self
        rw [htokens]
        exact Statement.ofTokens_of_head? ((hline.tokens token htoken).head?_ne (by decide)) tokens
      have hresolved : line.tokens.mapM table.resolve = .ok line.tokens :=
        Success.mapM_iff.mpr (List.forall₂_same.mpr fun token htoken =>
          Table.resolve_of_head? ((hline.tokens token htoken).head?_ne (by decide)))
      rw [replaceFrom, hcode]
      dsimp only
      rw [hresolved, ih hlines]
      show (⟨[], .ok (line.withContents (Token.join line.tokens) :: lines)⟩ : Report (List Line))
        = _
      rw [hline.withContents_join]

theorem Label.ofToken?_of_settled {token : Token} (h : token.IsSettled) : ofToken? token = none :=
  ofToken?_eq_none (h.head?_ne (by decide)) (h.getLast?_ne (by decide))

/-- Tokens without labels only move the position on. -/
theorem Label.foldlM_enter_of_settled {tokens : List Token} (h : ∀ token ∈ tokens, token.IsSettled)
    (table : Table) : ∃ next, tokens.foldlM Table.enter table = .ok next := by
  induction tokens generalizing table with
  | nil => exact ⟨table, rfl⟩
  | cons token tokens ih =>
      obtain ⟨htoken, htokens⟩ := List.forall_mem_cons.mp h
      obtain ⟨next, hnext⟩ := ih htokens { table with position := table.position + 1 }
      refine ⟨next, Success.bind_iff.mpr ⟨_, ?_, hnext⟩⟩
      rw [Table.enter, ofToken?_of_settled htoken]

theorem Label.enterLines_of_settled (h : ∀ line ∈ lines, line.IsSettled) (table : Table) :
    ∃ last, table.enterLines lines = .ok last := by
  induction lines generalizing table with
  | nil => exact ⟨table, rfl⟩
  | cons line lines ih =>
      obtain ⟨hline, hlines⟩ := List.forall_mem_cons.mp h
      obtain ⟨next, hnext⟩ := foldlM_enter_of_settled hline.tokens table
      obtain ⟨last, hlast⟩ := ih hlines next
      exact ⟨last, Success.bind_iff.mpr ⟨next, Success.check_iff.mpr hnext, hlast⟩⟩

theorem Label.replaceTokens_of_settled {tokens : List Token}
    (h : ∀ token ∈ tokens, token.IsSettled) (table : Table) :
    table.replaceTokens tokens = .ok tokens := by
  induction tokens with
  | nil => rfl
  | cons token tokens ih =>
      obtain ⟨htoken, htokens⟩ := List.forall_mem_cons.mp h
      rw [Table.replaceTokens, ofToken?_of_settled htoken]
      exact Success.bind_iff.mpr ⟨tokens, ih htokens, rfl⟩

theorem Label.replaceLines_of_settled (h : ∀ line ∈ lines, line.IsSettled) (table : Table) :
    table.replaceLines lines = .ok lines := by
  induction lines with
  | nil => rfl
  | cons line lines ih =>
      obtain ⟨hline, hlines⟩ := List.forall_mem_cons.mp h
      have htokens := replaceTokens_of_settled hline.tokens table
      refine Success.bind_iff.mpr ⟨_, Success.check_iff.mpr htokens, ?_⟩
      refine Success.bind_iff.mpr ⟨lines, ih hlines, ?_⟩
      rw [if_neg hline.ne_nil, hline.withContents_join]
      rfl

theorem Label.replace_of_settled (h : ∀ line ∈ lines, line.IsSettled) :
    replace lines = .ok lines := by
  obtain ⟨table, htable⟩ := enterLines_of_settled h {}
  exact Success.bind_iff.mpr ⟨table, htable, replaceLines_of_settled h table⟩

theorem Character.replaceLine_of_settled (h : line.IsSettled) : replaceLine line = .ok line := by
  have hjoined : replaceLine (line.withContents (Token.join line.tokens)) = .ok _ :=
    replaceLine_join_of_isPlain fun token htoken => (h.tokens token htoken).isPlain
  rwa [h.withContents_join] at hjoined

theorem Character.replace_of_settled (h : ∀ line ∈ lines, line.IsSettled) :
    replace lines = .ok lines :=
  Success.mapM_iff.mpr <| List.forall₂_same.mpr fun line hline =>
    replaceLine_of_settled (h line hline)

/-- **Each pass leaves settled lines as they are**, without warnings. -/
theorem Pass.apply_of_settled (assembler : Assembler) (pass : Pass)
    (h : ∀ line ∈ lines, line.IsSettled) : pass.apply assembler lines = ⟨[], .ok lines⟩ := by
  cases pass with
  | imports => exact congrArg Report.ofExcept (Import.expand_of_settled assembler.files h)
  | comments => exact congrArg pure (Comment.remove_of_settled h)
  | subroutines => exact congrArg Report.ofExcept (Subroutine.expand_of_settled h)
  | constants => exact Constant.replaceFrom_of_settled _ _ h {}
  | labels => exact congrArg Report.ofExcept (Label.replace_of_settled h)
  | characters => exact congrArg Report.ofExcept (Character.replace_of_settled h)

/-- **All passes leave settled lines as they are**, without warnings. -/
theorem Pass.applyAll_of_settled (assembler : Assembler) (passes : List Pass)
    (h : ∀ line ∈ lines, line.IsSettled) :
    applyAll assembler passes lines = ⟨[], .ok lines⟩ := by
  induction passes with
  | nil => rfl
  | cons pass passes ih =>
      rw [applyAll, apply_of_settled assembler pass h, Report.bind_eq, Report.andThen_ok, ih]
      rfl

end

end CellAsm
