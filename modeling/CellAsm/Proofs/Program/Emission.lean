import CellAsm.Proofs.Program.Generation

set_option autoImplicit false

/-! # The words that tokens emit

The label pass counts tokens long before there are words. An `Emission` follows one token from
there to the program: the token that codegen reads in its place and the word that it emits, or
nothing for a definition. The words that lines generate are those of the emissions of their
tokens (`Emission.exists_of_generates`), so they are as many as the lines have tokens that define
no label (`Generates.size_eq_width`).
-/

namespace CellAsm

/-- A token in front of the label pass with the token that codegen reads in its place and the
word that is emitted for it. A definition has neither. -/
structure Emission where
  token : Token
  emitted : Option (Token × UInt64)

namespace Emission

/-- The word that is emitted for the token. -/
def word? (emission : Emission) : Option UInt64 := emission.emitted.map Prod.snd

/-- The words that are emitted for tokens, in order. -/
def words (emissions : List Emission) : List UInt64 := emissions.filterMap word?

@[simp] theorem words_append (emissions more : List Emission) :
    words (emissions ++ more) = words emissions ++ words more :=
  List.filterMap_append

/-- What the label pass and the character pass make of a token is what codegen reads in its
place. -/
def IsPlaced (labels : Label.Table) (emission : Emission) : Prop :=
  match emission.emitted with
  | none => Label.isDefinition emission.token = true
  | some (code, _) =>
    Label.isDefinition emission.token = false ∧
      ∃ kept, labels.kept? emission.token = some kept ∧ Character.replaceToken kept = .ok code

/-- The emissions of the tokens of a line: codegen reads what has been put in their places and
emits their words. -/
structure OfLine (labels : Label.Table) (line : Line) (emissions : List Emission) : Prop where
  tokens : emissions.map Emission.token = line.tokens
  places : ∀ emission ∈ emissions, emission.IsPlaced labels
  encodes : Instruction.Encodes (emissions.filterMap Emission.emitted)

theorem word?_of_isDefinition {labels : Label.Table} {emission : Emission}
    (h : emission.IsPlaced labels) (hdefinition : Label.isDefinition emission.token = true) :
    emission.word? = none := by
  unfold IsPlaced at h
  cases hemitted : emission.emitted with
  | none => rw [word?, hemitted, Option.map_none]
  | some pair =>
      rw [hemitted, hdefinition] at h
      exact absurd h.1 (by simp)

theorem words_eq_map (emissions : List Emission) :
    words emissions = (emissions.filterMap Emission.emitted).map Prod.snd := by
  rw [words, List.map_filterMap]
  rfl

/-- A token has a word unless it is a definition, so words are counted by the width. -/
theorem length_words {labels : Label.Table} {emissions : List Emission}
    (h : ∀ emission ∈ emissions, emission.IsPlaced labels) :
    (words emissions).length = Label.width (emissions.map Emission.token) := by
  induction emissions with
  | nil => rfl
  | cons emission emissions ih =>
      obtain ⟨hfirst, hrest⟩ := List.forall_mem_cons.mp h
      rw [List.map_cons, Label.width_cons, ← ih hrest, ← List.singleton_append, words_append,
        List.length_append, Nat.add_right_cancel_iff]
      obtain ⟨token, emitted⟩ := emission
      cases emitted with
      | none => rw [Label.width_of_isDefinition hfirst]; rfl
      | some pair => rw [Label.width_of_not_isDefinition hfirst.1]; rfl

/-- Tokens that keep something are paired with what codegen reads and emits for it. The
recursion is on the tokens: a definition takes nothing from `pairs`. -/
theorem exists_of_kept {labels : Label.Table} {tokens codes : List Token}
    (hnone : ∀ token ∈ tokens, labels.kept? token = none ↔ Label.isDefinition token = true)
    (hcodes : List.Forall₂ (fun token code => Character.replaceToken token = .ok code)
      (tokens.filterMap labels.kept?) codes)
    {pairs : List (Token × UInt64)} (hpairs : pairs.map Prod.fst = codes) :
    ∃ emissions : List Emission, emissions.map Emission.token = tokens ∧
      emissions.filterMap Emission.emitted = pairs ∧
      ∀ emission ∈ emissions, emission.IsPlaced labels := by
  induction tokens generalizing codes pairs with
  | nil =>
      cases hcodes
      exact ⟨[], rfl, (List.map_eq_nil_iff.mp hpairs).symm, by simp⟩
  | cons token tokens ih =>
      obtain ⟨htoken, htokens⟩ := List.forall_mem_cons.mp hnone
      cases hkept : labels.kept? token with
      | none =>
          -- a definition: all the pairs are for the tokens after it
          rw [List.filterMap_cons_none hkept] at hcodes
          obtain ⟨emissions, hmap, hemitted, hplaced⟩ := ih htokens hcodes hpairs
          refine ⟨⟨token, none⟩ :: emissions, by rw [List.map_cons, hmap], hemitted, ?_⟩
          exact List.forall_mem_cons.mpr ⟨htoken.mp hkept, hplaced⟩
      | some kept =>
          -- any other token takes the first pair
          rw [List.filterMap_cons_some hkept] at hcodes
          cases hcodes with
          | @cons _ code _ codes hcode hcodes =>
              obtain ⟨⟨code', word⟩, pairs, rfl, rfl, hrest⟩ := List.map_eq_cons_iff.mp hpairs
              obtain ⟨emissions, hmap, hemitted, hplaced⟩ := ih htokens hcodes hrest
              have hplain : Label.isDefinition token = false := by
                rw [← Bool.not_eq_true, ← htoken, hkept]
                simp
              refine ⟨⟨token, some (code', word)⟩ :: emissions, by rw [List.map_cons, hmap],
                by rw [List.filterMap_cons_some (f := emitted) rfl, hemitted], ?_⟩
              exact List.forall_mem_cons.mpr ⟨⟨hplain, kept, hkept, hcode⟩, hplaced⟩

/-- **The words of a line are emitted for its tokens.** -/
theorem exists_of_generates_singleton {labels : Label.Table} {line : Line} {listing : Listing}
    (hsep : labels.Separates line) (h : labels.Generates [line] listing) :
    ∃ emissions, OfLine labels line emissions ∧ listing.words = words emissions := by
  obtain ⟨kept, codes, instructions, hkept, hcodes, hparse, hwords⟩ := h.of_singleton hsep
  obtain ⟨pairs, hencodes, hfst, hsnd⟩ := Instruction.encodes_of_parse hparse
  obtain ⟨rfl, hnone⟩ := Label.Table.kept?_of_replaceTokens hkept
  obtain ⟨emissions, htokens, hemitted, hplaced⟩ := exists_of_kept hnone hcodes hfst
  refine ⟨emissions, ⟨htokens, hplaced, by rwa [hemitted]⟩, ?_⟩
  rw [words_eq_map, hemitted, hsnd, hwords]

/-- The words of lines are emitted for their tokens, line by line. -/
theorem exists_of_generates {labels : Label.Table} {lines : List Line} {listing : Listing}
    (hsep : ∀ line ∈ lines, labels.Separates line) (h : labels.Generates lines listing) :
    ∃ emissions, List.Forall₂ (OfLine labels) lines emissions ∧
      listing.words = words emissions.flatten := by
  induction lines generalizing listing with
  | nil =>
      obtain rfl := Label.Table.Generates.nil_iff.mp h
      exact ⟨[], .nil, rfl⟩
  | cons line lines ih =>
      obtain ⟨hline, hlines⟩ := List.forall_mem_cons.mp hsep
      obtain ⟨front, back, hfront, hback, rfl⟩ := h.of_cons
      obtain ⟨first, hfirst, hwords⟩ := exists_of_generates_singleton hline hfront
      obtain ⟨rest, hrest, hwords'⟩ := ih hlines hback
      refine ⟨first :: rest, .cons hfirst hrest, ?_⟩
      rw [Listing.words_append, hwords, hwords', List.flatten_cons, words_append]

/-- A reference is written as the address of its label, and this is the word that is emitted. -/
theorem emitted_of_reference {labels : Label.Table} {line : Line} {emissions : List Emission}
    (h : OfLine labels line emissions) {emission : Emission} (hmem : emission ∈ emissions)
    {name : Token} {address : Nat}
    (htoken : Label.ofToken? emission.token = some (.reference name))
    (haddress : labels.address? name = some address) :
    emission.emitted = some (Text.decimal address, UInt64.ofNat address) ∧ address < 2 ^ 64 := by
  have hplaced := h.places emission hmem
  have hkept : labels.kept? emission.token = some (Text.decimal address) := by
    rw [Label.Table.kept?, htoken]
    simp [haddress]
  unfold IsPlaced at hplaced
  cases hemitted : emission.emitted with
  | none =>
      -- only definitions emit nothing
      rw [hemitted] at hplaced
      simp [Label.isDefinition, htoken] at hplaced
  | some pair =>
      obtain ⟨code, word⟩ := pair
      rw [hemitted] at hplaced
      obtain ⟨-, kept, hkept', hcode⟩ := hplaced
      obtain rfl := Option.some.inj (hkept.symm.trans hkept')
      rw [Character.replaceToken_decimal, Except.ok.injEq] at hcode
      subst hcode
      -- the word comes from the decimal text, which overflows from 2 ^ 64 on
      have hpair : (Text.decimal address, word) ∈ emissions.filterMap Emission.emitted :=
        List.mem_filterMap.mpr ⟨emission, hmem, hemitted⟩
      have hword := h.encodes.operandWord_of_mem hpair (Mnemonic.ofToken?_decimal address)
      obtain ⟨hlt, rfl⟩ := Instruction.lt_of_operandWord (Instruction.bareOperand_decimal address) hword
      exact ⟨rfl, hlt⟩

/-- The tokens of the emissions of lines are the tokens of the lines. -/
theorem map_token_flatten {labels : Label.Table} {lines : List Line}
    {emissions : List (List Emission)}
    (h : List.Forall₂ (OfLine labels) lines emissions) :
    emissions.flatten.map Emission.token = Label.Table.stream lines := by
  induction h with
  | nil => rfl
  | cons hline _ ih =>
      rw [List.flatten_cons, List.map_append, hline.tokens, ih, Label.Table.stream_cons]

/-- Every emission belongs to one of the lines. -/
theorem exists_ofLine_of_mem {labels : Label.Table} {lines : List Line}
    {emissions : List (List Emission)}
    (h : List.Forall₂ (OfLine labels) lines emissions) {emission : Emission}
    (hmem : emission ∈ emissions.flatten) :
    ∃ line own, OfLine labels line own ∧ emission ∈ own := by
  induction h with
  | nil => simp at hmem
  | @cons line own _ _ hline _ ih =>
      rw [List.flatten_cons, List.mem_append] at hmem
      rcases hmem with hown | hrest
      · exact ⟨line, own, hline, hown⟩
      · exact ih hrest

/-- Emissions of the tokens of lines are placed. -/
theorem isPlaced_of_mem {labels : Label.Table} {lines : List Line}
    {emissions : List (List Emission)} (h : List.Forall₂ (OfLine labels) lines emissions) :
    ∀ emission ∈ emissions.flatten, emission.IsPlaced labels := by
  intro emission hmem
  obtain ⟨_, own, hown, hmem⟩ := exists_ofLine_of_mem h hmem
  exact hown.places emission hmem

end Emission

/-- **Lines generate one word for each token that defines no label.** -/
theorem Label.Table.Generates.size_eq_width {labels : Label.Table} {lines : List Line}
    {listing : Listing} (hsep : ∀ line ∈ lines, labels.Separates line)
    (h : labels.Generates lines listing) :
    listing.size = Label.width (Label.Table.stream lines) := by
  obtain ⟨emissions, hemissions, hwords⟩ := Emission.exists_of_generates hsep h
  have hlength := Emission.length_words (Emission.isPlaced_of_mem hemissions)
  rw [Listing.size, hwords, hlength, Emission.map_token_flatten hemissions]

end CellAsm
