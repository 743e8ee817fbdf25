import CellAsm.Proofs.Pass.Plain
import CellAsm.Proofs.Token.Spacing

set_option autoImplicit false

/-! # Literals in the text of a line

Tokens are read with the space literal taken as a whole only where a token begins; the pass
replaces its three characters wherever they stand. The two agree on a text as long as every token
is *apart* from the text behind it (`IsApart`): a space literal ends the text or is followed by a
blank, and a single space and an apostrophe do not follow another token that ends with an
apostrophe.

On lines of literals and tokens without apostrophes this is also necessary
(`replaced_token_by_token_iff`). Where a token is not apart from what follows, the pass puts the
code of the space into the middle of a longer token, and that token is not the code of anything.
-/

namespace CellAsm

/-! ## Tokens with the text behind them -/

namespace Token

/-- The tokens of a text, in order, each with the text behind it. -/
def cuts (s : List Char) : List (Token × List Char) :=
  match _h : Text.trimStart s with
  | [] => []
  | c :: r => cut (c :: r) :: cuts (cut (c :: r)).2
termination_by s.length
decreasing_by exact length_cut_lt _h

theorem cuts_of_trimStart_eq_nil {s : List Char} (h : Text.trimStart s = []) : cuts s = [] := by
  rw [cuts]
  split
  · rfl
  · next h' => exact absurd (h.symm.trans h') (by simp)

theorem cuts_of_trimStart_eq_cons {s r : List Char} {c : Char} (h : Text.trimStart s = c :: r) :
    cuts s = cut (c :: r) :: cuts (cut (c :: r)).2 := by
  rw [cuts]
  split
  · next h' => exact absurd (h.symm.trans h') (by simp)
  · next c' r' h' =>
    obtain ⟨rfl, rfl⟩ := List.cons.inj (h.symm.trans h')
    rfl

/-- Cutting finds the tokens that are read. -/
theorem map_fst_cuts (s : List Char) : (cuts s).map Prod.fst = scan s := by
  induction s using scan.induct with
  | case1 s hs => rw [cuts_of_trimStart_eq_nil hs, scan_of_trimStart_eq_nil hs, List.map_nil]
  | case2 s c r hs ih =>
      rw [cuts_of_trimStart_eq_cons hs, scan_of_trimStart_eq_cons hs, List.map_cons, ih]

theorem word_cons {c : Char} (hc : Text.isBlank c = false) (s : List Char) :
    Text.word (c :: s) = c :: Text.word s :=
  List.takeWhile_cons_of_pos (by simp [hc])

/-- A text that begins with two characters that are no blanks begins with a word. -/
theorem head?_scan_cons_cons {c d : Char} (hc : Text.isBlank c = false)
    (hd : Text.isBlank d = false) (s : List Char) :
    (scan (c :: d :: s)).head? = some (c :: d :: Text.word s) := by
  have hne : (cut (c :: d :: s)).1 ≠ spaceLiteral := by
    intro heq
    have happend := fst_cut_append_snd (c :: d :: s)
    rw [heq] at happend
    -- the second character would be a space
    obtain ⟨-, htail⟩ := List.cons.inj happend
    obtain ⟨rfl, -⟩ := List.cons.inj htail
    exact absurd hd (by decide)
  rw [scan_of_trimStart_eq_cons (trimStart_cons hc), List.head?_cons, cut_eq_word hne, word_cons hc,
    word_cons hd]

end Token

namespace Character

open Token

/-! ## Literals and their codes -/

/-- A token is a literal for a character. -/
inductive IsLiteral : Token → Char → Prop
  | space : IsLiteral spaceLiteral ' '
  | plain {c : Char} (h : Text.isBlank c = false) : IsLiteral ['\'', c, '\''] c
  | escaped {e c : Char} (h : escape? e = some c) : IsLiteral ['\'', '\\', e, '\''] c

/-- A token without apostrophes or a literal. -/
def IsRegular (token : Token) : Prop := '\'' ∉ token ∨ ∃ c, IsLiteral token c

/-- What a token becomes: a literal becomes the decimal code of its character, and a token without
apostrophes stays. -/
def Encodes (token code : Token) : Prop :=
  ('\'' ∉ token ∧ code = token) ∨ ∃ c, IsLiteral token c ∧ code = Text.decimal c.toNat

theorem IsLiteral.mem {token : Token} {c : Char} (h : IsLiteral token c) : '\'' ∈ token := by
  cases h <;> simp [spaceLiteral]

theorem IsLiteral.replaceToken_eq {token : Token} {c : Char} (h : IsLiteral token c) :
    replaceToken token = .ok (Text.decimal c.toNat) := by
  cases h with
  | space => exact replaceToken_spaceLiteral
  | plain h => simp [replaceToken, inner?, value?]
  | escaped h => simp [replaceToken, inner?, value?, h]

/-- Only what has the form of a literal is replaced. -/
theorem form_of_replaceToken {token code : Token} (h : replaceToken token = .ok code)
    (hne : code ≠ token) :
    (∃ c, token = ['\'', c, '\'']) ∨ ∃ e, token = ['\'', '\\', e, '\''] := by
  unfold replaceToken at h
  split at h
  · exact absurd (Except.ok.inj h).symm hne
  · next inner hinner =>
    -- the token is the text between two apostrophes, put back between them
    have htoken : token = '\'' :: (inner ++ ['\'']) := by
      unfold inner? at hinner
      split at hinner
      · next rest =>
        split at hinner
        · next hlast =>
          obtain rfl := Option.some.inj hinner
          rw [List.dropLast_append_getLast? _ hlast]
        · cases hinner
      · cases hinner
    split at h
    · next c hvalue =>
      unfold value? at hvalue
      split at hvalue
      · exact .inl ⟨_, htoken⟩
      · exact .inr ⟨_, htoken⟩
      · cases hvalue
    · cases h

theorem IsRegular.exists_code {token : Token} (h : IsRegular token) :
    ∃ code, replaceToken token = .ok code ∧ Encodes token code := by
  rcases h with hmem | ⟨c, h⟩
  · have hkept := replaceToken_of_head? fun hhead => hmem (List.mem_of_head? hhead)
    exact ⟨token, hkept, .inl ⟨hmem, rfl⟩⟩
  · exact ⟨_, h.replaceToken_eq, .inr ⟨c, h, rfl⟩⟩

theorem Encodes.not_mem {token code : Token} (h : Encodes token code) : '\'' ∉ code := by
  rcases h with ⟨hmem, rfl⟩ | ⟨c, -, rfl⟩
  · exact hmem
  · exact Text.not_mem_decimal (by decide)

/-- The code of a literal is a number. -/
theorem Encodes.eq_decimal {token code : Token} {c : Char} (h : Encodes token code)
    (hliteral : IsLiteral token c) : ∃ c, IsLiteral token c ∧ code = Text.decimal c.toNat :=
  h.resolve_left fun hplain => hplain.1 hliteral.mem

/-! ## One token and the text behind it -/

/-- The text behind a token does not run into it when space literals are replaced. -/
structure IsApart (token : Token) (rest : List Char) : Prop where
  /-- A space literal stands at the end of a word. -/
  space : token = spaceLiteral → ∀ c ∈ rest.head?, Text.isBlank c = true
  /-- The end of another token is not the beginning of a space literal. -/
  other : token ≠ spaceLiteral → token.getLast? = some '\'' → ¬ [' ', '\''] <+: rest

theorem isApart_iff {token : Token} {rest : List Char} :
    IsApart token rest ↔
      (token = spaceLiteral → rest.head?.all Text.isBlank = true) ∧
        (token ≠ spaceLiteral → token.getLast? = some '\'' → ¬ [' ', '\''] <+: rest) := by
  rw [Option.all_eq_true]
  exact ⟨fun h => ⟨h.space, h.other⟩, fun h => ⟨h.1, h.2⟩⟩

instance (token : Token) (rest : List Char) : Decidable (IsApart token rest) :=
  decidable_of_iff _ isApart_iff.symm

theorem IsRegular.spaced_ne {token : Token} (h : IsRegular token) : spaced token ≠ ['\''] := by
  intro hlone
  unfold spaced at hlone
  split at hlone
  · exact absurd hlone (by decide)
  · subst hlone
    rcases h with hmem | ⟨c, h⟩
    · exact hmem (by simp)
    · cases h

theorem replaceSpaces_blank_cons {c : Char} (hc : Text.isBlank c = true) (s : List Char) :
    replaceSpaces (c :: s) = c :: replaceSpaces s := by
  refine replaceSpaces_cons_of_ne ?_ s
  rintro rfl
  exact absurd hc (by decide)

/-- Blanks in front make no difference. -/
theorem scan_replaceSpaces_trimStart (s : List Char) :
    scan (replaceSpaces (Text.trimStart s)) = scan (replaceSpaces s) := by
  induction s with
  | nil => rfl
  | cons c s ih =>
      by_cases hc : Text.isBlank c = true
      · rw [trimStart_blank_cons hc, ih, replaceSpaces_blank_cons hc, scan_blank_cons hc]
      · rw [trimStart_cons (by simpa using hc)]

/-- **A token that is apart from the text behind it is replaced on its own.** -/
theorem IsApart.scan_replaceSpaces {token : Token} {rest : List Char} (h : IsApart token rest)
    (hproper : token.IsProper) (hregular : IsRegular token)
    (hrest : token ≠ spaceLiteral → ∀ c ∈ rest.head?, Text.isBlank c = true) :
    scan (replaceSpaces (token ++ rest)) = spaced token :: scan (replaceSpaces rest) := by
  have hblank : ∀ c ∈ (replaceSpaces rest).head?, Text.isBlank c = true := by
    have hhead : ∀ c ∈ rest.head?, Text.isBlank c = true := by
      by_cases hspace : token = spaceLiteral
      · exact h.space hspace
      · exact hrest hspace
    cases rest with
    | nil => simp [replaceSpaces]
    | cons c rest =>
        rw [replaceSpaces_blank_cons (hhead c rfl)]
        exact hhead
  rw [replaceSpaces_proper_append hproper h.other]
  exact scan_append (isProper_spaced hproper) hblank fun hlone => absurd hlone hregular.spaced_ne

/-- Text directly behind a space literal would become part of its token. -/
theorem isBlank_of_encodes_spaceLiteral {rest : List Char} {first code : Token}
    (hfirst : (scan (replaceSpaces (spaceLiteral ++ rest))).head? = some first)
    (hcode : replaceToken first = .ok code) (hencodes : Encodes spaceLiteral code) :
    ∀ c ∈ rest.head?, Text.isBlank c = true := by
  intro c hc
  by_contra hblank
  obtain ⟨rest, rfl⟩ := List.head?_eq_some_iff.mp hc
  obtain ⟨d, others, hspaces, hd⟩ := exists_cons_of_replaceSpaces (by simpa using hblank) rest
  have hspaced : replaceSpaces (spaceLiteral ++ c :: rest) = '3' :: '2' :: d :: others := by
    show '3' :: '2' :: replaceSpaces (c :: rest) = _
    rw [hspaces]
  rw [hspaced, head?_scan_cons_cons (by decide) (by decide), word_cons hd] at hfirst
  obtain rfl := Option.some.inj hfirst
  -- the longer token stays as it is, and it is not the code of the space
  rw [replaceToken_of_head? (by simp)] at hcode
  obtain rfl := Except.ok.inj hcode
  obtain ⟨found, hfound, heq⟩ := hencodes.eq_decimal .space
  cases hfound with
  | space =>
      have hlen : (Text.decimal ' '.toNat).length = 2 := by decide
      rw [← heq, List.length_cons, List.length_cons, List.length_cons] at hlen
      omega
  | plain h => exact absurd h (by decide)

/-- Two apostrophes with a single space between them are replaced together with it, although the
first one ends a token. -/
theorem head?_scan_replaceSpaces_merged (c d : Char) (body tail : List Char)
    (hblank : ∀ e ∈ c :: d :: body, Text.isBlank e = false) :
    (scan (replaceSpaces (c :: d :: body ++ ['\''] ++ ([' ', '\''] ++ tail)))).head? =
      some (c :: d :: Text.word (body ++ '3' :: '2' :: replaceSpaces tail)) := by
  have hspace : ' ' ∉ c :: d :: body := fun hmem => absurd (hblank ' ' hmem) (by decide)
  have hspaces : replaceSpaces (c :: d :: body ++ '\'' :: ' ' :: '\'' :: tail) =
      c :: d :: body ++ replaceSpaces ('\'' :: ' ' :: '\'' :: tail) :=
    replaceSpaces_append hspace fun _ => by simp
  rw [List.append_assoc]
  exact (congrArg (fun s => (scan s).head?) hspaces).trans
    (head?_scan_cons_cons (hblank c (by simp)) (hblank d (by simp)) _)

/-- A space literal that begins at the end of a literal would put its code between apostrophes. -/
theorem not_prefix_of_encodes {token first code : Token} {rest : List Char}
    (hproper : token.IsProper) (hregular : IsRegular token) (hne : token ≠ spaceLiteral)
    (hlast : token.getLast? = some '\'')
    (hfirst : (scan (replaceSpaces (token ++ rest))).head? = some first)
    (hcode : replaceToken first = .ok code) (hencodes : Encodes token code) :
    ¬ [' ', '\''] <+: rest := by
  rintro ⟨tail, rfl⟩
  have hblank : ∀ e ∈ token, Text.isBlank e = false := (hproper.resolve_left hne).2
  obtain ⟨c, hliteral⟩ := hregular.resolve_left fun h => h (List.mem_of_getLast? hlast)
  -- what is read in front begins with an apostrophe, so it has to have the form of a literal
  have hform : first.head? = some '\'' →
      (∃ c, first = ['\'', c, '\'']) ∨ ∃ e, first = ['\'', '\\', e, '\''] := by
    intro hhead
    refine form_of_replaceToken hcode fun heq => hencodes.not_mem ?_
    rw [heq]
    exact List.mem_of_head? hhead
  cases hliteral with
  | space => exact hne rfl
  | plain hc =>
      have hmerged := head?_scan_replaceSpaces_merged '\'' c [] tail
        fun e he => hblank e (List.mem_append_left ['\''] he)
      rw [List.nil_append, word_cons (by decide), word_cons (by decide)] at hmerged
      obtain rfl := Option.some.inj (hmerged.symm.trans hfirst)
      simp at hform
  | @escaped e c he =>
      have hmerged := head?_scan_replaceSpaces_merged '\'' '\\' [e] tail
        fun f hf => hblank f (List.mem_append_left ['\''] hf)
      rw [List.singleton_append, word_cons (hblank e (by simp)), word_cons (by decide)] at hmerged
      obtain rfl := Option.some.inj (hmerged.symm.trans hfirst)
      simp at hform

theorem IsApart.of_encodes {token first code : Token} {rest : List Char} (hproper : token.IsProper)
    (hregular : IsRegular token)
    (hfirst : (scan (replaceSpaces (token ++ rest))).head? = some first)
    (hcode : replaceToken first = .ok code) (hencodes : Encodes token code) :
    IsApart token rest where
  space := by
    rintro rfl
    exact isBlank_of_encodes_spaceLiteral hfirst hcode hencodes
  other := fun hne hlast =>
    not_prefix_of_encodes hproper hregular hne hlast hfirst hcode hencodes

/-! ## The text of a line -/

/-- **The tokens of a text are replaced one by one exactly when each is apart from the text behind
it.** -/
theorem exists_codes_iff {s : List Char} (hregular : ∀ token ∈ scan s, IsRegular token) :
    (∃ codes,
      List.Forall₂ (fun token code => replaceToken token = .ok code) (scan (replaceSpaces s)) codes ∧
        List.Forall₂ Encodes (scan s) codes) ↔
      ∀ cut ∈ cuts s, IsApart cut.1 cut.2 := by
  induction s using scan.induct with
  | case1 s hs =>
      have hread : scan (replaceSpaces s) = [] := by
        rw [← scan_replaceSpaces_trimStart, hs]
        exact scan_nil
      rw [hread, scan_of_trimStart_eq_nil hs, cuts_of_trimStart_eq_nil hs]
      simp
  | case2 s c r hs ih =>
      have hproper := isProper_cut (r := r) (Text.isBlank_of_trimStart_eq_cons hs)
      have hblank : (cut (c :: r)).1 ≠ spaceLiteral →
          ∀ d ∈ (cut (c :: r)).2.head?, Text.isBlank d = true :=
        fun hne _ => isBlank_of_mem_head?_snd_cut hne
      have hread : scan (replaceSpaces s) =
          scan (replaceSpaces ((cut (c :: r)).1 ++ (cut (c :: r)).2)) := by
        rw [fst_cut_append_snd, ← hs, scan_replaceSpaces_trimStart]
      rw [scan_of_trimStart_eq_cons hs] at hregular ⊢
      rw [cuts_of_trimStart_eq_cons hs, hread]
      generalize cut (c :: r) = first at *
      obtain ⟨token, rest⟩ := first
      obtain ⟨htoken, hregular⟩ := List.forall_mem_cons.mp hregular
      rw [List.forall_mem_cons]
      constructor
      · rintro ⟨codes, hcodes, hencodes⟩
        obtain ⟨code, others, hencode, hothers, rfl⟩ := List.forall₂_cons_left_iff.mp hencodes
        obtain ⟨first, behind, hcode, hbehind, hscan⟩ := List.forall₂_cons_right_iff.mp hcodes
        have hapart : IsApart token rest := by
          refine .of_encodes hproper htoken ?_ hcode hencode
          rw [hscan, List.head?_cons]
        -- so the text behind the token is read on its own
        rw [hapart.scan_replaceSpaces hproper htoken hblank, List.cons.injEq] at hscan
        obtain ⟨-, rfl⟩ := hscan
        exact ⟨hapart, (ih hregular).mp ⟨others, hbehind, hothers⟩⟩
      · rintro ⟨hapart, hcuts⟩
        obtain ⟨codes, hcodes, hencodes⟩ := (ih hregular).mpr hcuts
        obtain ⟨code, hcode, hencode⟩ := htoken.exists_code
        refine ⟨code :: codes, ?_, .cons hencode hencodes⟩
        rw [hapart.scan_replaceSpaces hproper htoken hblank]
        exact .cons (by rw [replaceToken_spaced, hcode]) hcodes

/-! ## Lines -/

theorem not_mem_of_encodes {tokens codes : List Token} (h : List.Forall₂ Encodes tokens codes) :
    ∀ code ∈ codes, '\'' ∉ code := by
  induction h with
  | nil => simp
  | cons hcode _ ih => exact List.forall_mem_cons.mpr ⟨hcode.not_mem, ih⟩

/-- Codes without apostrophes are read as they were joined. -/
theorem tokens_withContents_codes {line : Line} {s : List Char} {codes : List Token}
    (hcodes : List.Forall₂ (fun token code => replaceToken token = .ok code) (scan s) codes)
    (h : ∀ code ∈ codes, '\'' ∉ code) : (line.withContents (join codes)).tokens = codes := by
  have hproper := isProper_of_mem_codes (fun _ => isProper_of_mem_scan) hcodes
  exact Line.tokens_withContents_join fun code hcode =>
    isPlain_of_isProper (hproper code hcode) (h code hcode)

theorem exists_replaceLine_iff {line : Line} (hregular : ∀ token ∈ line.tokens, IsRegular token) :
    (∃ coded, replaceLine line = .ok coded ∧ List.Forall₂ Encodes line.tokens coded.tokens) ↔
      ∀ cut ∈ cuts line.contents.toList, IsApart cut.1 cut.2 := by
  rw [← exists_codes_iff hregular]
  constructor
  · rintro ⟨coded, hcoded, hencodes⟩
    obtain ⟨codes, hcodes, rfl⟩ := replaceLine_eq_ok_iff.mp hcoded
    -- an apostrophe in a code would be read again as part of a token
    have hplain : ∀ code ∈ codes, '\'' ∉ code := by
      intro code hcode hmem
      obtain ⟨token, htoken, hmem⟩ :=
        exists_mem_scan_of_mem (mem_join_of_mem hcode hmem) (by decide)
      refine not_mem_of_encodes hencodes token ?_ hmem
      rwa [Line.tokens, Line.toList_contents_withContents]
    rw [tokens_withContents_codes hcodes hplain] at hencodes
    exact ⟨codes, hcodes, hencodes⟩
  · rintro ⟨codes, hcodes, hencodes⟩
    refine ⟨_, replaceLine_eq_ok_iff.mpr ⟨codes, hcodes, rfl⟩, ?_⟩
    rw [tokens_withContents_codes hcodes (not_mem_of_encodes hencodes)]
    exact hencodes

/-- **The pass acts token by token exactly when every token is apart from the text behind it.** -/
theorem replaced_token_by_token_iff {lines : List Line}
    (hregular : ∀ line ∈ lines, ∀ token ∈ line.tokens, IsRegular token) :
    (∃ coded, replace lines = .ok coded ∧
        List.Forall₂ (fun line out => List.Forall₂ Encodes line.tokens out.tokens) lines coded) ↔
      ∀ line ∈ lines, ∀ cut ∈ cuts line.contents.toList, IsApart cut.1 cut.2 := by
  have hline : ∀ line ∈ lines, (∃ coded, replaceLine line = .ok coded ∧
      List.Forall₂ Encodes line.tokens coded.tokens) ↔
        ∀ cut ∈ cuts line.contents.toList, IsApart cut.1 cut.2 :=
    fun line hmem => exists_replaceLine_iff (hregular line hmem)
  unfold replace
  rw [Success.exists_mapM_iff]
  exact forall₂_congr hline

/-- Three literals, of which only the first one is followed by a single space. -/
def apartLine : Line := .typed 1 "sample" "MOV ' ' 'a'  '\\n'".toList

/-- Two literals with a single space between them. -/
def touchingLine : Line := .typed 2 "sample" "JZ 'a' 'b'".toList

theorem cuts_apartLine : cuts apartLine.contents.toList =
    [("MOV".toList, " ' ' 'a'  '\\n'".toList), (spaceLiteral, " 'a'  '\\n'".toList),
      ("'a'".toList, "  '\\n'".toList), ("'\\n'".toList, [])] := by
  cbv

theorem cuts_touchingLine : cuts touchingLine.contents.toList =
    [("JZ".toList, " 'a' 'b'".toList), ("'a'".toList, " 'b'".toList), ("'b'".toList, [])] := by
  cbv

theorem replaced_token_by_token_iff_sample :
    (∃ coded, replace [apartLine] = .ok coded ∧
        List.Forall₂ (fun line out => List.Forall₂ Encodes line.tokens out.tokens)
          [apartLine] coded) ∧
      (∀ token ∈ touchingLine.tokens, IsRegular token) ∧
      ¬ ∃ coded, replace [touchingLine] = .ok coded ∧
        List.Forall₂ (fun line out => List.Forall₂ Encodes line.tokens out.tokens)
          [touchingLine] coded := by
  have hapart : ∀ token ∈ apartLine.tokens, IsRegular token := by
    rw [Line.tokens, ← map_fst_cuts, cuts_apartLine]
    simp only [List.map_cons, List.map_nil, List.forall_mem_cons]
    exact ⟨.inl (by decide), .inr ⟨' ', .space⟩, .inr ⟨'a', .plain (by decide)⟩,
      .inr ⟨'\n', .escaped rfl⟩, List.forall_mem_nil _⟩
  have htouching : ∀ token ∈ touchingLine.tokens, IsRegular token := by
    rw [Line.tokens, ← map_fst_cuts, cuts_touchingLine]
    simp only [List.map_cons, List.map_nil, List.forall_mem_cons]
    exact ⟨.inl (by decide), .inr ⟨'a', .plain (by decide)⟩, .inr ⟨'b', .plain (by decide)⟩,
      List.forall_mem_nil _⟩
  refine ⟨(replaced_token_by_token_iff (List.forall_mem_singleton.mpr hapart)).mpr ?_, htouching,
    fun h => ?_⟩
  · rw [List.forall_mem_singleton, cuts_apartLine]
    decide
  · have h := (replaced_token_by_token_iff (List.forall_mem_singleton.mpr htouching)).mp h
    rw [List.forall_mem_singleton, cuts_touchingLine] at h
    exact absurd h (by decide)

end Character

end CellAsm
