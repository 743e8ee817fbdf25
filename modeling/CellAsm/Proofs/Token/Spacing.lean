import CellAsm.Proofs.Text.Runs
import CellAsm.Proofs.Token.Rejoin

set_option autoImplicit false

/-! # Tokens and the blanks between them

Reading tokens loses only blanks. Behind the blanks that it may begin with, a text is one *part*
after another, each a token with the blanks behind it (`written`). What the tokens of a text are is
settled by how parts may stand next to each other (`IsSpaced`): blanks separate two tokens unless
the first is the space literal, and the space literal is where its three characters stand at the
beginning of a part. Every text has such parts, and their tokens are the ones that are read
(`scan_eq_iff`).
-/

namespace CellAsm.Token

/-- A token with the blanks behind it. -/
abbrev Part := Token × List Char

/-- The text of parts. -/
def written (parts : List Part) : List Char := parts.flatMap fun part => part.1 ++ part.2

/-- The parts are those of a text that begins with no blank. -/
structure IsSpaced (parts : List Part) : Prop where
  proper : ∀ part ∈ parts, part.1.IsProper
  blank : ∀ part ∈ parts, ∀ c ∈ part.2, Text.isBlank c = true
  /-- Behind a token that is not the space literal another one begins after a blank only. -/
  between : parts.IsChain fun part _ => part.1 ≠ spaceLiteral → part.2 ≠ []
  /-- A token is the space literal exactly where the remaining text begins with it. -/
  literal : ∀ part rest, part :: rest <:+ parts →
    (part.1 = spaceLiteral ↔ spaceLiteral <+: written (part :: rest))

section

variable {s front : List Char} {part : Part} {parts : List Part} {token : Token}

@[simp] theorem written_cons (part : Part) (parts : List Part) :
    written (part :: parts) = part.1 ++ (part.2 ++ written parts) := by
  rw [written, List.flatMap_cons, List.append_assoc]
  rfl

/-! ## Cutting a token off -/

theorem cut_eq_word (h : (cut s).1 ≠ spaceLiteral) : cut s = (Text.word s, Text.afterWord s) := by
  unfold cut at h ⊢
  split
  · exact absurd rfl h
  · rfl

/-- Behind a token that is not the space literal stands a blank, if anything does. -/
theorem isBlank_of_mem_head?_snd_cut (h : (cut s).1 ≠ spaceLiteral) {c : Char}
    (hc : c ∈ (cut s).2.head?) : Text.isBlank c = true := by
  rw [cut_eq_word h] at hc
  exact Text.isBlank_of_mem_head?_afterWord hc

/-- The space literal is cut off wherever a text begins with it. -/
theorem fst_cut_eq_spaceLiteral_iff : (cut s).1 = spaceLiteral ↔ spaceLiteral <+: s := by
  constructor
  · intro h
    rw [← fst_cut_append_snd s, h]
    exact List.prefix_append _ _
  · rintro ⟨rest, rfl⟩
    rfl

theorem scan_blank_append (hfront : ∀ c ∈ front, Text.isBlank c = true) (s : List Char) :
    scan (front ++ s) = scan s := by
  induction front with
  | nil => rfl
  | cons c front ih =>
      obtain ⟨hc, hfront⟩ := List.forall_mem_cons.mp hfront
      rw [List.cons_append, scan_blank_cons hc, ih hfront]

/-! ## Parts of a text -/

namespace IsSpaced

theorem nil : IsSpaced [] where
  proper := List.forall_mem_nil _
  blank := List.forall_mem_nil _
  between := List.isChain_nil
  literal part rest hsuffix := absurd (List.suffix_nil.mp hsuffix) (List.cons_ne_nil part rest)

/-- A part can stand in front of others where its token is cut off from the text. -/
theorem cons (h : IsSpaced parts) (hproper : part.1.IsProper)
    (hblank : ∀ c ∈ part.2, Text.isBlank c = true)
    (hbetween : parts ≠ [] → part.1 ≠ spaceLiteral → part.2 ≠ [])
    (hliteral : part.1 = spaceLiteral ↔ spaceLiteral <+: written (part :: parts)) :
    IsSpaced (part :: parts) where
  proper := List.forall_mem_cons.mpr ⟨hproper, h.proper⟩
  blank := List.forall_mem_cons.mpr ⟨hblank, h.blank⟩
  between := h.between.cons fun _ hnext =>
    hbetween (List.ne_nil_of_mem (List.mem_of_head? hnext))
  literal found rest hsuffix := by
    rcases List.suffix_cons_iff.mp hsuffix with heq | hsuffix
    · obtain ⟨rfl, rfl⟩ := List.cons.inj heq
      exact hliteral
    · exact h.literal found rest hsuffix

theorem tail (h : IsSpaced (part :: parts)) : IsSpaced parts where
  proper := (List.forall_mem_cons.mp h.proper).2
  blank := (List.forall_mem_cons.mp h.blank).2
  between := h.between.tail
  literal found rest hsuffix := h.literal found rest (hsuffix.trans (List.suffix_cons part parts))

/-- The text of parts begins with no blank. -/
theorem exists_cons (h : IsSpaced parts) (hne : parts ≠ []) :
    ∃ c rest, written parts = c :: rest ∧ Text.isBlank c = false := by
  obtain ⟨part, parts, rfl⟩ := List.exists_cons_of_ne_nil hne
  obtain ⟨c, rest, htoken, hc⟩ := (h.proper part List.mem_cons_self).exists_cons
  exact ⟨c, rest ++ (part.2 ++ written parts), by rw [written_cons, htoken, List.cons_append], hc⟩

/-- Behind the first token stands a blank, if anything does and it is not the space literal. -/
theorem isBlank_of_mem_head?_append (h : IsSpaced (part :: parts)) (hne : part.1 ≠ spaceLiteral)
    {c : Char} (hc : c ∈ (part.2 ++ written parts).head?) : Text.isBlank c = true := by
  have hblank := h.blank part List.mem_cons_self
  by_cases hgap : part.2 = []
  · -- without a gap there is no other part
    cases parts with
    | nil =>
        rw [hgap] at hc
        cases hc
    | cons next parts => exact absurd hgap ((List.isChain_cons_cons.mp h.between).1 hne)
  · rw [List.head?_append_of_ne_nil _ hgap] at hc
    exact hblank c (List.mem_of_head? hc)

/-- The first token is read on its own. -/
theorem scan_written_cons (h : IsSpaced (part :: parts)) :
    scan (written (part :: parts)) = part.1 :: scan (written parts) := by
  have hliteral := h.literal part parts List.suffix_rfl
  have hrest : scan (part.2 ++ written parts) = scan (written parts) :=
    scan_blank_append (h.blank part List.mem_cons_self) _
  rw [written_cons] at hliteral ⊢
  by_cases hspace : part.1 = spaceLiteral
  · rw [hspace, ← hrest]
    exact scan_of_trimStart_eq_cons (trimStart_cons (by decide))
  · -- a lone apostrophe is not the beginning of a space literal here
    have hclash : part.1 = ['\''] → ¬ [' ', '\''] <+: part.2 ++ written parts := by
      intro hlone hprefix
      rw [hlone] at hliteral hspace
      exact hspace (hliteral.mpr ((List.prefix_append_right_inj ['\'']).mpr hprefix))
    rw [scan_append (h.proper part List.mem_cons_self)
      (fun _ => h.isBlank_of_mem_head?_append hspace) hclash, hrest]

/-- The tokens of the parts are read. -/
theorem scan_written (h : IsSpaced parts) : scan (written parts) = parts.map Prod.fst := by
  induction parts with
  | nil => exact scan_nil
  | cons part parts ih => rw [h.scan_written_cons, ih h.tail, List.map_cons]

end IsSpaced

/-- Every text consists of blanks and of parts with the tokens that are read. -/
theorem exists_isSpaced (s : List Char) :
    ∃ front parts, s = front ++ written parts ∧ (∀ c ∈ front, Text.isBlank c = true) ∧
      IsSpaced parts ∧ parts.map Prod.fst = scan s := by
  induction s using scan.induct with
  | case1 s hs =>
      refine ⟨s, [], (List.append_nil s).symm, List.dropWhile_eq_nil_iff.mp hs, .nil, ?_⟩
      rw [scan_of_trimStart_eq_nil hs, List.map_nil]
  | case2 s c r hs ih =>
      obtain ⟨front, hfront, hs'⟩ := Text.exists_eq_append_trimStart s
      obtain ⟨gap, parts, hrest, hgap, hspaced, htokens⟩ := ih
      rw [scan_of_trimStart_eq_cons hs]
      have hproper := isProper_cut (r := r) (Text.isBlank_of_trimStart_eq_cons hs)
      have hwritten : written (((cut (c :: r)).1, gap) :: parts) = c :: r := by
        rw [written_cons, ← hrest, fst_cut_append_snd]
      have hbetween : parts ≠ [] → (cut (c :: r)).1 ≠ spaceLiteral → gap ≠ [] := by
        rintro hne hspace rfl
        -- the next token would begin with the blank behind this one
        obtain ⟨d, rest, hhead, hd⟩ := hspaced.exists_cons hne
        rw [List.nil_append, hhead] at hrest
        have hblank : Text.isBlank d = true :=
          isBlank_of_mem_head?_snd_cut hspace (by rw [hrest]; rfl)
        rw [hd] at hblank
        cases hblank
      refine ⟨front, ((cut (c :: r)).1, gap) :: parts, ?_, hfront,
        hspaced.cons hproper hgap hbetween ?_, congrArg _ htokens⟩
      · rw [hwritten, ← hs]
        exact hs'
      · rw [hwritten]
        exact fst_cut_eq_spaceLiteral_iff

/-- **Reading tokens loses only blanks.** The tokens that are read are those of the parts of the
text, and a text has no parts with other tokens. -/
theorem scan_eq_iff {tokens : List Token} :
    scan s = tokens ↔ ∃ front parts, s = front ++ written parts ∧
      (∀ c ∈ front, Text.isBlank c = true) ∧ IsSpaced parts ∧ parts.map Prod.fst = tokens := by
  constructor
  · rintro rfl
    exact exists_isSpaced s
  · rintro ⟨front, parts, rfl, hfront, hspaced, rfl⟩
    rw [scan_blank_append hfront, hspaced.scan_written]

end

/-- **What is read and what is read again.** The tokens of a text are those of its parts, so nothing
but blanks is lost; and joined by single spaces, tokens are read as they were exactly if no lone
apostrophe is directly followed by a token that begins with an apostrophe. -/
theorem scan_eq_iff_and_scan_join_iff :
    (∀ (s : List Char) (tokens : List Token), scan s = tokens ↔
      ∃ front parts, s = front ++ written parts ∧ (∀ c ∈ front, Text.isBlank c = true) ∧
        IsSpaced parts ∧ parts.map Prod.fst = tokens) ∧
    ∀ tokens : List Token, (∀ token ∈ tokens, token.IsProper) →
      (scan (join tokens) = tokens ↔
        tokens.IsChain fun token next => token = ['\''] → next.head? ≠ some '\'') :=
  ⟨fun _ _ => scan_eq_iff, fun _ hproper => scan_join_iff hproper⟩

/-- A lone apostrophe is lost in front of a literal, and kept behind it. -/
theorem scan_eq_iff_and_scan_join_iff_sample :
    scan (join [['\''], ['\'', 'a', '\'']]) ≠ [['\''], ['\'', 'a', '\'']] ∧
      scan (join [['\'', 'a', '\''], ['\'']]) = [['\'', 'a', '\''], ['\'']] :=
  ⟨fun h => absurd ((scan_eq_iff_and_scan_join_iff.2 _ (by decide)).mp h) (by decide),
    (scan_eq_iff_and_scan_join_iff.2 _ (by decide)).mpr (by decide)⟩

end CellAsm.Token
