import CellAsm.Pass.Character
import CellAsm.Proofs.Success
import CellAsm.Proofs.Text.Decimal
import CellAsm.Proofs.Token.Rejoin

set_option autoImplicit false

/-! # Character literals, token by token

The pass replaces the space literal wherever its three characters stand, before it reads any
tokens. In joined tokens these characters can also come from two neighbours, when one token ends
with an apostrophe and the next one begins with one. Where this does not happen
(`Token.IsSeparated`), the pass replaces each token on its own, and the line that it leaves is
read as the replaced tokens (`replaceLine_join`).
-/

namespace CellAsm

/-- No token but the space literal both ends with an apostrophe and is directly followed by a
token that begins with one. -/
def Token.IsSeparated (tokens : List Token) : Prop :=
  tokens.IsChain fun token next =>
    token ≠ spaceLiteral → token.getLast? = some '\'' → next.head? ≠ some '\''

instance : DecidablePred Token.IsSeparated := fun _ =>
  inferInstanceAs (Decidable (List.IsChain _ _))

namespace Character

open Token

/-! ## One token -/

/-- A token either stays, and is not the space literal, or becomes the code of a character. -/
theorem replaceToken_eq_ok {token code : Token} (h : replaceToken token = .ok code) :
    (code = token ∧ inner? token = none) ∨ ∃ n, code = Text.decimal n := by
  unfold replaceToken at h
  split at h
  · next hinner =>
    injection h with h
    exact .inl ⟨h.symm, hinner⟩
  · split at h
    · next c hvalue =>
      injection h with h
      exact .inr ⟨c.toNat, h.symm⟩
    · exact absurd h (by simp)

theorem isProper_decimal (n : Nat) : IsProper (Text.decimal n) :=
  isProper_of_blankless (Text.decimal_ne_nil n) fun _ hc => Text.isBlank_of_mem_decimal hc

theorem isProper_of_replaceToken {token code : Token} (htoken : token.IsProper)
    (h : replaceToken token = .ok code) : code.IsProper := by
  rcases replaceToken_eq_ok h with ⟨rfl, -⟩ | ⟨n, rfl⟩
  · exact htoken
  · exact isProper_decimal n

theorem replaceToken_of_head? {token : Token} (h : token.head? ≠ some '\'') :
    replaceToken token = .ok token := by
  have hinner : inner? token = none := by
    unfold inner?
    split
    · exact absurd rfl h
    · rfl
  rw [replaceToken, hinner]

theorem replaceToken_decimal (n : Nat) : replaceToken (Text.decimal n) = .ok (Text.decimal n) :=
  replaceToken_of_head? (Text.head?_decimal_ne (by decide))

/-- The space literal is no exception to the rule for literals. -/
theorem replaceToken_spaceLiteral :
    replaceToken spaceLiteral = .ok (Text.decimal ' '.toNat) := by decide

/-! ## The space literal in joined tokens -/

/-- A token after the replacement of space literals. -/
def spaced (token : Token) : Token :=
  if token = spaceLiteral then Text.decimal ' '.toNat else token

theorem replaceToken_spaced (token : Token) :
    replaceToken (spaced token) = replaceToken token := by
  unfold spaced
  split
  · next h => rw [h, replaceToken_decimal, replaceToken_spaceLiteral]
  · rfl

theorem isProper_spaced {token : Token} (h : token.IsProper) : (spaced token).IsProper := by
  unfold spaced
  split
  · exact isProper_decimal _
  · exact h

theorem replaceSpaces_cons_of_ne {c : Char} (hc : c ≠ '\'') (s : List Char) :
    replaceSpaces (c :: s) = c :: replaceSpaces s := by
  rw [replaceSpaces.eq_def]
  split
  · next heq => cases heq
  · next heq => exact absurd (List.cons.inj heq).1 hc
  · next heq =>
    obtain ⟨rfl, rfl⟩ := List.cons.inj heq
    rfl

theorem replaceSpaces_of_notMem {s : List Char} (h : '\'' ∉ s) : replaceSpaces s = s := by
  induction s with
  | nil => rfl
  | cons c s ih =>
      obtain ⟨hc, hs⟩ := not_or.mp (mt List.mem_cons.mpr h)
      rw [replaceSpaces_cons_of_ne (Ne.symm hc), ih hs]

/-- Replacing space literals leaves no blank in front. -/
theorem exists_cons_of_replaceSpaces {c : Char} (hc : Text.isBlank c = false) (s : List Char) :
    ∃ d rest, replaceSpaces (c :: s) = d :: rest ∧ Text.isBlank d = false := by
  rw [replaceSpaces.eq_def]
  split
  · next heq => cases heq
  · exact ⟨'3', '2' :: replaceSpaces _, rfl, by decide⟩
  · next d rest _ heq =>
    obtain ⟨rfl, rfl⟩ := List.cons.inj heq
    exact ⟨c, replaceSpaces s, rfl, hc⟩

/-- Characters without a space are kept, unless the last one of them begins a space literal. -/
theorem replaceSpaces_append {token s : List Char} (hspace : ' ' ∉ token)
    (h : token.getLast? = some '\'' → ¬ [' ', '\''] <+: s) :
    replaceSpaces (token ++ s) = token ++ replaceSpaces s := by
  induction token with
  | nil => rfl
  | cons c token ih =>
      have hspace' : ' ' ∉ token := fun hmem => hspace (by simp [hmem])
      have hstep : replaceSpaces (c :: (token ++ s)) = c :: replaceSpaces (token ++ s) := by
        rw [replaceSpaces.eq_def]
        split
        · next heq => exact absurd heq (by simp)
        · next rest heq =>
          rw [List.cons.injEq] at heq
          obtain ⟨rfl, hrest⟩ := heq
          -- a space literal here would need its space in the token or right behind it
          cases token with
          | nil => exact absurd ⟨rest, hrest.symm⟩ (h rfl)
          | cons d token =>
              rw [List.cons_append, List.cons.injEq] at hrest
              exact absurd (by simp [hrest.1]) hspace'
        · next d rest _ heq =>
          rw [List.cons.injEq] at heq
          rw [heq.1, heq.2]
      have hlast : token.getLast? = some '\'' → ¬ [' ', '\''] <+: s := by
        intro hl
        refine h ?_
        rw [List.getLast?_cons, hl]
        rfl
      rw [List.cons_append, hstep, ih hspace' hlast, List.cons_append]

/-- A proper token is replaced on its own. -/
theorem replaceSpaces_proper_append {token : Token} {s : List Char} (htoken : token.IsProper)
    (h : token ≠ spaceLiteral → token.getLast? = some '\'' → ¬ [' ', '\''] <+: s) :
    replaceSpaces (token ++ s) = spaced token ++ replaceSpaces s := by
  by_cases hlit : token = spaceLiteral
  · subst hlit
    rfl
  · rcases htoken with hlit' | ⟨-, hblank⟩
    · exact absurd hlit' hlit
    have hspace : ' ' ∉ token := fun hmem => absurd (hblank ' ' hmem) (by decide)
    rw [spaced, if_neg hlit, replaceSpaces_append hspace (h hlit)]

theorem replaceSpaces_join {tokens : List Token} (hproper : ∀ token ∈ tokens, token.IsProper)
    (hsep : IsSeparated tokens) :
    replaceSpaces (join tokens) = join (tokens.map spaced) := by
  induction tokens with
  | nil => rfl
  | cons token tokens ih =>
      have htoken := hproper token (by simp)
      have htokens : ∀ t ∈ tokens, t.IsProper := fun t ht => hproper t (by simp [ht])
      cases tokens with
      | nil =>
          have h := replaceSpaces_proper_append (s := []) htoken (by simp)
          rw [List.append_nil] at h
          rw [List.map_singleton, join_singleton, join_singleton, h]
          exact List.append_nil _
      | cons next tokens =>
          obtain ⟨hnext, hrest⟩ := List.isChain_cons_cons.mp hsep
          -- the blank between two tokens is not the blank of a literal
          have hclash : token ≠ spaceLiteral → token.getLast? = some '\'' →
              ¬ [' ', '\''] <+: ' ' :: join (next :: tokens) := by
            intro hlit hlast hprefix
            refine hnext hlit hlast ?_
            rw [← head?_join_cons (htokens next (by simp)) tokens]
            obtain ⟨rest, hrest⟩ := hprefix
            rw [← (List.cons.inj hrest).2]
            rfl
          rw [join_cons_cons, replaceSpaces_proper_append htoken hclash,
            replaceSpaces_cons_of_ne (by decide), ih htokens hrest]
          exact (join_cons_cons _ _ _).symm

/-- The space literals are gone and the tokens are the same otherwise. -/
theorem scan_replaceSpaces_join {tokens : List Token}
    (hproper : ∀ token ∈ tokens, token.IsProper) (hsep : IsSeparated tokens) :
    scan (replaceSpaces (join tokens)) = tokens.map spaced := by
  rw [replaceSpaces_join hproper hsep]
  refine scan_join ?_ ?_
  · intro token hmem
    obtain ⟨t, ht, rfl⟩ := List.mem_map.mp hmem
    exact isProper_spaced (hproper t ht)
  · unfold IsRejoinable
    rw [List.isChain_map]
    refine hsep.imp fun token next h hlone => ?_
    -- a lone apostrophe stays, and so does a next token that begins with one
    have htoken : token = ['\''] := by
      unfold spaced at hlone
      split at hlone
      · exact absurd hlone (by decide)
      · exact hlone
    subst htoken
    have hhead := h (by decide) rfl
    unfold spaced
    split
    · exact Text.head?_decimal_ne (by decide)
    · exact hhead

/-! ## One line -/

theorem replaceLine_eq_ok_iff {line coded : Line} :
    replaceLine line = .ok coded ↔ ∃ codes,
      List.Forall₂ (fun token code => replaceToken token = .ok code)
        (scan (replaceSpaces line.contents.toList)) codes ∧
      line.withContents (join codes) = coded := by
  unfold replaceLine
  simp only [Success.bind_iff, Success.check_iff, Success.mapM_iff, Success.pure_iff]

theorem isProper_of_mem_codes {tokens codes : List Token}
    (hproper : ∀ token ∈ tokens, token.IsProper)
    (h : List.Forall₂ (fun token code => replaceToken token = .ok code) tokens codes) :
    ∀ code ∈ codes, code.IsProper := by
  induction h with
  | nil => simp
  | cons hcode _ ih =>
      obtain ⟨htoken, htokens⟩ := List.forall_mem_cons.mp hproper
      exact List.forall_mem_cons.mpr ⟨isProper_of_replaceToken htoken hcode, ih htokens⟩

/-- The replaced tokens can be joined and read again. -/
theorem isRejoinable_of_replaceToken {tokens codes : List Token} (hsep : IsSeparated tokens)
    (h : List.Forall₂ (fun token code => replaceToken token = .ok code) tokens codes) :
    IsRejoinable codes := by
  induction h with
  | nil => exact .nil
  | @cons token code tokens codes hcode hcodes ih =>
      cases hcodes with
      | nil => exact .singleton _
      | @cons next nextCode tokens codes hnext hcodes =>
          obtain ⟨hpair, hrest⟩ := List.isChain_cons_cons.mp hsep
          refine List.isChain_cons_cons.mpr ⟨fun hlone => ?_, ih hrest⟩
          -- only a token that stays can be a lone apostrophe: codes are digits
          rcases replaceToken_eq_ok hcode with ⟨rfl, -⟩ | ⟨n, rfl⟩
          · have hhead := hpair (by rw [hlone]; decide) (by rw [hlone]; rfl)
            rcases replaceToken_eq_ok hnext with ⟨rfl, -⟩ | ⟨n, rfl⟩
            · exact hhead
            · exact Text.head?_decimal_ne (by decide)
          · exact absurd (congrArg List.head? hlone) (Text.head?_decimal_ne (by decide))

/-- **The pass acts token by token**, and the tokens it leaves are read one for one. -/
theorem replaceLine_join {line coded : Line} {tokens : List Token}
    (hproper : ∀ token ∈ tokens, token.IsProper) (hsep : IsSeparated tokens)
    (h : replaceLine (line.withContents (join tokens)) = .ok coded) :
    ∃ codes, List.Forall₂ (fun token code => replaceToken token = .ok code) tokens codes ∧
      coded.tokens = codes := by
  obtain ⟨codes, hcodes, rfl⟩ := replaceLine_eq_ok_iff.mp h
  rw [Line.toList_contents_withContents, scan_replaceSpaces_join hproper hsep,
    List.forall₂_map_left_iff] at hcodes
  simp only [replaceToken_spaced] at hcodes
  refine ⟨codes, hcodes, ?_⟩
  rw [Line.tokens, Line.toList_contents_withContents,
    scan_join (isProper_of_mem_codes hproper hcodes) (isRejoinable_of_replaceToken hsep hcodes)]

end Character

end CellAsm
