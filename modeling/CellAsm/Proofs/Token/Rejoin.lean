import CellAsm.Source.Token
import Mathlib.Data.List.Chain
import Mathlib.Data.List.TakeWhile
import Mathlib.Tactic

set_option autoImplicit false

/-! # Joining tokens and reading them again

Three passes join the tokens of a line with single spaces, and the next pass reads the line
again. A token is *proper* when it is the space literal or not empty and without blanks
(`IsProper`); every token that is read is proper. Reading the joined tokens gives the same tokens
exactly if no lone apostrophe is followed by a token that begins with one (`IsRejoinable`,
`scan_join_iff`): the two apostrophes and the space between them would be read as the space literal.
-/

namespace CellAsm.Token

/-! ## Reading one token -/

/-- What can be read as one token. -/
def IsProper (token : Token) : Prop :=
  token = spaceLiteral ∨ token ≠ [] ∧ ∀ c ∈ token, Text.isBlank c = false

instance : DecidablePred IsProper := fun token =>
  have : Decidable (∀ c ∈ token, Text.isBlank c = false) := List.decidableBAll _ token
  inferInstanceAs (Decidable (_ ∨ _))

theorem isProper_of_blankless {token : Token} (hne : token ≠ [])
    (h : ∀ c ∈ token, Text.isBlank c = false) : token.IsProper :=
  .inr ⟨hne, h⟩

/-- A proper token is not empty and does not begin with a blank. -/
theorem IsProper.exists_cons {token : Token} (h : token.IsProper) :
    ∃ c rest, token = c :: rest ∧ Text.isBlank c = false := by
  rcases h with rfl | ⟨hne, hblank⟩
  · exact ⟨'\'', [' ', '\''], rfl, by decide⟩
  · obtain ⟨c, rest, rfl⟩ := List.exists_cons_of_ne_nil hne
    exact ⟨c, rest, rfl, hblank c (by simp)⟩

theorem scan_nil : scan [] = [] := by
  rw [scan]
  rfl

theorem scan_of_trimStart_eq_nil {s : List Char} (h : Text.trimStart s = []) : scan s = [] := by
  rw [scan]
  split
  · rfl
  · next h' => exact absurd (h.symm.trans h') (by simp)

theorem scan_of_trimStart_eq_cons {s r : List Char} {c : Char} (h : Text.trimStart s = c :: r) :
    scan s = (cut (c :: r)).1 :: scan (cut (c :: r)).2 := by
  rw [scan]
  split
  · next h' => exact absurd (h.symm.trans h') (by simp)
  · next c' r' h' =>
    obtain ⟨rfl, rfl⟩ := List.cons.inj (h.symm.trans h')
    rfl

theorem trimStart_blank_cons {c : Char} {s : List Char} (hc : Text.isBlank c = true) :
    Text.trimStart (c :: s) = Text.trimStart s :=
  List.dropWhile_cons_of_pos hc

theorem trimStart_cons {c : Char} {s : List Char} (hc : Text.isBlank c = false) :
    Text.trimStart (c :: s) = c :: s :=
  List.dropWhile_cons_of_neg (by simp [hc])

/-- A blank at the start is skipped. -/
theorem scan_blank_cons {c : Char} {s : List Char} (hc : Text.isBlank c = true) :
    scan (c :: s) = scan s := by
  have htrim := trimStart_blank_cons (s := s) hc
  cases hs : Text.trimStart s with
  | nil => rw [scan_of_trimStart_eq_nil hs, scan_of_trimStart_eq_nil (htrim.trans hs)]
  | cons d r => rw [scan_of_trimStart_eq_cons hs, scan_of_trimStart_eq_cons (htrim.trans hs)]

theorem isProper_cut {c : Char} {r : List Char} (hc : Text.isBlank c = false) :
    (cut (c :: r)).1.IsProper := by
  unfold cut
  split
  · exact .inl rfl
  · refine isProper_of_blankless ?_ fun d hd => ?_
    · simp [Text.word, hc]
    · simpa using List.mem_takeWhile_imp hd

/-- Cutting off a token loses nothing. -/
theorem fst_cut_append_snd (s : List Char) : (cut s).1 ++ (cut s).2 = s := by
  unfold cut
  split
  · rfl
  · exact List.takeWhile_append_dropWhile

/-- Every token that is read is proper. -/
theorem isProper_of_mem_scan {s : List Char} {token : Token} (h : token ∈ scan s) :
    token.IsProper := by
  induction s using scan.induct with
  | case1 s hs =>
      rw [scan_of_trimStart_eq_nil hs] at h
      exact absurd h (by simp)
  | case2 s c r hs ih =>
      rw [scan_of_trimStart_eq_cons hs] at h
      rcases List.mem_cons.mp h with rfl | h
      · exact isProper_cut (Text.isBlank_of_trimStart_eq_cons hs)
      · exact ih h

/-- A proper token is cut off where a blank follows it, unless the blank continues a space
literal. -/
theorem cut_append {token : Token} {s : List Char} (h : token.IsProper)
    (hs : ∀ c ∈ s.head?, Text.isBlank c = true)
    (hclash : token = ['\''] → ¬ [' ', '\''] <+: s) : cut (token ++ s) = (token, s) := by
  rcases h with rfl | ⟨hne, hblank⟩
  · rfl
  unfold cut
  split
  · next rest heq =>
    -- the token would have to end inside the space literal
    obtain ⟨c, t, rfl⟩ := List.exists_cons_of_ne_nil hne
    rw [List.cons_append, List.cons.injEq] at heq
    obtain ⟨rfl, hrest⟩ := heq
    cases t with
    | nil => exact absurd ⟨rest, hrest.symm⟩ (hclash rfl)
    | cons d t =>
        rw [List.cons_append, List.cons.injEq] at hrest
        obtain ⟨rfl, -⟩ := hrest
        exact absurd (hblank ' ' (by simp)) (by decide)
  · have hstop : ∀ c ∈ s.head?, (!Text.isBlank c) = false := fun c hc => by simp [hs c hc]
    have hword : s.takeWhile (fun c => !Text.isBlank c) = [] := by
      cases s with
      | nil => rfl
      | cons d s => exact List.takeWhile_cons_of_neg (by simp [hstop d (by simp)])
    have hafter : s.dropWhile (fun c => !Text.isBlank c) = s := by
      cases s with
      | nil => rfl
      | cons d s => exact List.dropWhile_cons_of_neg (by simp [hstop d (by simp)])
    have hall : ∀ c ∈ token, (!Text.isBlank c) = true := fun c hc => by simp [hblank c hc]
    rw [Text.word, Text.afterWord, List.takeWhile_append_of_pos hall,
      List.dropWhile_append_of_pos hall, hword, hafter, List.append_nil]

theorem scan_append {token : Token} {s : List Char} (h : token.IsProper)
    (hs : ∀ c ∈ s.head?, Text.isBlank c = true)
    (hclash : token = ['\''] → ¬ [' ', '\''] <+: s) : scan (token ++ s) = token :: scan s := by
  obtain ⟨c, rest, rfl, hc⟩ := h.exists_cons
  rw [List.cons_append, scan_of_trimStart_eq_cons (trimStart_cons hc), ← List.cons_append,
    cut_append h hs hclash]

/-! ## Joined tokens -/

@[simp] theorem join_singleton (token : Token) : join [token] = token := by
  simp [join]

theorem join_cons_cons (token next : Token) (tokens : List Token) :
    join (token :: next :: tokens) = token ++ ' ' :: join (next :: tokens) := by
  simp [join, List.intercalate_cons_cons]

theorem mem_join {tokens : List Token} {c : Char} (h : c ∈ join tokens) :
    c = ' ' ∨ ∃ token ∈ tokens, c ∈ token := by
  induction tokens with
  | nil => cases h
  | cons token tokens ih =>
      cases tokens with
      | nil =>
          rw [join_singleton] at h
          exact .inr ⟨token, List.mem_cons_self, h⟩
      | cons next tokens =>
          rw [join_cons_cons, List.mem_append, List.mem_cons] at h
          rcases h with h | rfl | h
          · exact .inr ⟨token, List.mem_cons_self, h⟩
          · exact .inl rfl
          · rcases ih h with rfl | ⟨found, hfound, h⟩
            · exact .inl rfl
            · exact .inr ⟨found, List.mem_cons_of_mem _ hfound, h⟩

theorem mem_join_of_mem {tokens : List Token} {token : Token} (htoken : token ∈ tokens) {c : Char}
    (hc : c ∈ token) : c ∈ join tokens := by
  induction tokens with
  | nil => cases htoken
  | cons first tokens ih =>
      cases tokens with
      | nil =>
          obtain rfl := List.mem_singleton.mp htoken
          rwa [join_singleton]
      | cons next tokens =>
          rw [join_cons_cons]
          rcases List.mem_cons.mp htoken with rfl | htoken
          · exact List.mem_append_left _ hc
          · exact List.mem_append_right _ (List.mem_cons_of_mem _ (ih htoken))

/-- No lone apostrophe is directly followed by a token that begins with an apostrophe. -/
def IsRejoinable (tokens : List Token) : Prop :=
  tokens.IsChain fun token next => token = ['\''] → next.head? ≠ some '\''

/-- Where no token is a lone apostrophe, all can be joined. -/
theorem isRejoinable_of_forall_ne {tokens : List Token} (h : ∀ token ∈ tokens, token ≠ ['\'']) :
    IsRejoinable tokens :=
  (List.pairwise_of_forall_mem_list fun token htoken _ _ hlone => absurd hlone (h token htoken)).isChain

/-- The text of joined tokens begins like the first of them. -/
theorem head?_join_cons {token : Token} (h : token.IsProper) (tokens : List Token) :
    (join (token :: tokens)).head? = token.head? := by
  obtain ⟨c, rest, rfl, -⟩ := h.exists_cons
  cases tokens with
  | nil => rw [join_singleton]
  | cons next tokens => rw [join_cons_cons]; rfl

/-- Behind a joined token the text goes on like the space literal exactly if the next one begins
with an apostrophe. -/
theorem prefix_space_cons_join_iff {next : Token} (h : next.IsProper) (tokens : List Token) :
    [' ', '\''] <+: ' ' :: join (next :: tokens) ↔ next.head? = some '\'' := by
  rw [← head?_join_cons h tokens, List.head?_eq_some_iff, List.cons_prefix_cons]
  simp [List.IsPrefix, eq_comm]

/-- The first of two joined tokens is read as it was unless they clash. -/
theorem scan_join_cons_cons {token next : Token} {tokens : List Token} (htoken : token.IsProper)
    (hnext : next.IsProper) (hclash : token = ['\''] → next.head? ≠ some '\'') :
    scan (join (token :: next :: tokens)) = token :: scan (join (next :: tokens)) := by
  have hapart : token = ['\''] → ¬ [' ', '\''] <+: ' ' :: join (next :: tokens) := fun hlone =>
    mt (prefix_space_cons_join_iff hnext tokens).mp (hclash hlone)
  rw [join_cons_cons, scan_append htoken (by simp; decide) hapart, scan_blank_cons (by decide)]

theorem scan_join_singleton {token : Token} (h : token.IsProper) :
    scan (join [token]) = [token] := by
  have hscan := scan_append (s := []) h (by simp) (by simp)
  rw [List.append_nil, scan_nil] at hscan
  rwa [join_singleton]

/-- **Joined tokens are read as they were.** -/
theorem scan_join {tokens : List Token} (hproper : ∀ token ∈ tokens, token.IsProper)
    (hchain : IsRejoinable tokens) : scan (join tokens) = tokens := by
  induction tokens with
  | nil => exact scan_nil
  | cons token tokens ih =>
      obtain ⟨htoken, htokens⟩ := List.forall_mem_cons.mp hproper
      cases tokens with
      | nil => exact scan_join_singleton htoken
      | cons next tokens =>
          obtain ⟨hnext, hrest⟩ := List.isChain_cons_cons.mp hchain
          rw [scan_join_cons_cons htoken (htokens next List.mem_cons_self) hnext, ih htokens hrest]

/-- Where a lone apostrophe and another one behind the space meet, the three are read as one. -/
theorem scan_join_of_clash {next : Token} (h : next.IsProper) (hhead : next.head? = some '\'')
    (tokens : List Token) :
    (scan (join (['\''] :: next :: tokens))).head? = some spaceLiteral := by
  obtain ⟨rest, hrest⟩ := (prefix_space_cons_join_iff h tokens).mpr hhead
  rw [join_cons_cons, ← hrest]
  exact congrArg List.head? <| scan_of_trimStart_eq_cons (trimStart_cons (by decide))

/-- **Joined tokens are read as they were exactly if no two of them clash.** -/
theorem scan_join_iff {tokens : List Token} (hproper : ∀ token ∈ tokens, token.IsProper) :
    scan (join tokens) = tokens ↔ IsRejoinable tokens := by
  refine ⟨fun hscan => ?_, scan_join hproper⟩
  induction tokens with
  | nil => exact List.isChain_nil
  | cons token tokens ih =>
      obtain ⟨htoken, htokens⟩ := List.forall_mem_cons.mp hproper
      cases tokens with
      | nil => exact List.isChain_singleton token
      | cons next tokens =>
          have hnext := htokens next List.mem_cons_self
          have hclash : token = ['\''] → next.head? ≠ some '\'' := by
            rintro rfl hhead
            have hread := scan_join_of_clash hnext hhead tokens
            rw [hscan, List.head?_cons, Option.some.injEq] at hread
            exact absurd hread (by decide)
          rw [scan_join_cons_cons htoken hnext hclash] at hscan
          exact List.isChain_cons_cons.mpr ⟨hclash, ih htokens (List.cons.inj hscan).2⟩

end CellAsm.Token
