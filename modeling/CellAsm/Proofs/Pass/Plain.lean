import CellAsm.Pass.Comment
import CellAsm.Proofs.Pass.Constant
import CellAsm.Proofs.Pass.Subroutine
import CellAsm.Proofs.Program.Generation

set_option autoImplicit false

/-! # Programs without apostrophes

Apostrophes are the only characters that can make a pass read joined tokens in another way than
they were joined. A line is plain if it holds none. The passes in front of the labels keep lines
plain, and for plain lines everything after them acts token by token without conditions
(`Generates.of_plain`).
-/

namespace CellAsm

/-! ## Plain tokens and lines -/

/-- A token without blanks and apostrophes. -/
def Token.IsPlain (token : Token) : Prop :=
  token ≠ [] ∧ ∀ c ∈ token, Text.isBlank c = false ∧ c ≠ '\''

instance : DecidablePred Token.IsPlain := fun token =>
  have : Decidable (∀ c ∈ token, Text.isBlank c = false ∧ c ≠ '\'') := List.decidableBAll _ token
  inferInstanceAs (Decidable (_ ∧ _))

/-- A line without apostrophes. -/
def Line.IsPlain (line : Line) : Prop := '\'' ∉ line.contents.toList

instance : DecidablePred Line.IsPlain := fun _ => inferInstanceAs (Decidable (¬ _))

namespace Token

theorem IsPlain.isProper {token : Token} (h : token.IsPlain) : token.IsProper :=
  isProper_of_blankless h.1 fun c hc => (h.2 c hc).1

theorem IsPlain.not_mem {token : Token} (h : token.IsPlain) : '\'' ∉ token :=
  fun hmem => (h.2 _ hmem).2 rfl

theorem isPlain_of_isProper {token : Token} (h : token.IsProper) (hmem : '\'' ∉ token) :
    token.IsPlain := by
  rcases h with rfl | ⟨hne, hblank⟩
  · exact absurd hmem (by decide)
  · refine ⟨hne, fun c hc => ⟨hblank c hc, ?_⟩⟩
    rintro rfl
    exact hmem hc

theorem isPlain_decimal (n : Nat) : IsPlain (Text.decimal n) :=
  isPlain_of_isProper (Character.isProper_decimal n) (Text.not_mem_decimal (by decide))

theorem isPlain_cell (n : Nat) : IsPlain (Constant.cell n) := by
  refine ⟨by simp [Constant.cell], ?_⟩
  intro c hc
  simp only [Constant.cell, List.mem_append, List.mem_singleton] at hc
  rcases hc with (rfl | hc) | rfl
  · decide
  · exact (isPlain_decimal n).2 c hc
  · decide

/-- The characters of a token stand in the text that it is read from. -/
theorem mem_of_mem_scan {s : List Char} {token : Token} (h : token ∈ scan s) {c : Char}
    (hc : c ∈ token) : c ∈ s := by
  induction s using scan.induct with
  | case1 s hs => rw [scan_of_trimStart_eq_nil hs] at h; cases h
  | case2 s d r hs ih =>
      have hsub : ∀ c ∈ d :: r, c ∈ s := fun c hc =>
        (Text.trimStart_suffix s).subset (by rw [hs]; exact hc)
      -- the token and the rest of the text are parts of the trimmed text
      have hcut := fst_cut_append_snd (d :: r)
      rw [scan_of_trimStart_eq_cons hs] at h
      rcases List.mem_cons.mp h with rfl | h
      · exact hsub c (by rw [← hcut]; exact List.mem_append_left _ hc)
      · exact hsub c (by rw [← hcut]; exact List.mem_append_right _ (ih h))

/-- What is no blank is read as part of a token. -/
theorem exists_mem_scan_of_mem {s : List Char} {c : Char} (hc : c ∈ s)
    (hblank : Text.isBlank c = false) : ∃ token ∈ scan s, c ∈ token := by
  induction s using scan.induct with
  | case1 s hs =>
      have hall := List.dropWhile_eq_nil_iff.mp hs c hc
      rw [hblank] at hall
      cases hall
  | case2 s d r hs ih =>
      rw [scan_of_trimStart_eq_cons hs]
      have hcut : c ∈ (cut (d :: r)).1 ++ (cut (d :: r)).2 := by
        rw [fst_cut_append_snd, ← hs]
        rw [← List.takeWhile_append_dropWhile (p := Text.isBlank) (l := s), List.mem_append] at hc
        refine hc.resolve_left fun hskipped => ?_
        rw [List.mem_takeWhile_imp hskipped] at hblank
        cases hblank
      rcases List.mem_append.mp hcut with hfirst | hrest
      · exact ⟨_, List.mem_cons_self, hfirst⟩
      · obtain ⟨token, htoken, hmem⟩ := ih hrest
        exact ⟨token, List.mem_cons_of_mem _ htoken, hmem⟩

/-- Plain tokens can be joined and read again. -/
theorem scan_join_of_isPlain {tokens : List Token} (h : ∀ token ∈ tokens, token.IsPlain) :
    scan (join tokens) = tokens := by
  refine scan_join (fun token htoken => (h token htoken).isProper)
    (isRejoinable_of_forall_ne fun token htoken hlone => ?_)
  exact (h token htoken).not_mem (by rw [hlone]; exact List.mem_singleton_self _)

end Token

namespace Line

theorem IsPlain.token {line : Line} (h : line.IsPlain) {token : Token}
    (htoken : token ∈ line.tokens) : token.IsPlain :=
  Token.isPlain_of_isProper (Token.isProper_of_mem_scan htoken)
    fun hmem => h (Token.mem_of_mem_scan htoken hmem)

theorem isPlain_withContents {line : Line} {contents : List Char} (h : '\'' ∉ contents) :
    (line.withContents contents).IsPlain := by
  rwa [IsPlain, toList_contents_withContents]

theorem isPlain_withContents_join {line : Line} {tokens : List Token}
    (h : ∀ token ∈ tokens, token.IsPlain) : (line.withContents (Token.join tokens)).IsPlain := by
  refine isPlain_withContents fun hmem => ?_
  rcases Token.mem_join hmem with hspace | ⟨token, htoken, hmem⟩
  · exact absurd hspace (by decide)
  · exact (h token htoken).not_mem hmem

theorem tokens_withContents_join {line : Line} {tokens : List Token}
    (h : ∀ token ∈ tokens, token.IsPlain) :
    (line.withContents (Token.join tokens)).tokens = tokens := by
  rw [Line.tokens, toList_contents_withContents, Token.scan_join_of_isPlain h]

/-- The code of a plain line holds no apostrophe. -/
theorem IsPlain.not_mem_code {line : Line} (h : line.IsPlain) : '\'' ∉ line.code :=
  fun hmem => h (Text.mem_of_mem_trim hmem)

end Line

/-! ## Passes that keep lines plain -/

theorem Comment.isPlain_remove {lines : List Line} (h : ∀ line ∈ lines, line.IsPlain) :
    ∀ line ∈ remove lines, line.IsPlain := by
  intro kept hkept
  obtain ⟨line, hline, hremaining⟩ := List.mem_filterMap.mp hkept
  unfold remaining? at hremaining
  dsimp only at hremaining
  split at hremaining
  · cases hremaining
  · obtain rfl := Option.some.inj hremaining
    refine Line.isPlain_withContents fun hmem => h line hline ?_
    exact Text.mem_of_mem_trim ((List.takeWhile_sublist _).subset (Text.mem_of_mem_trim hmem))

namespace Subroutine

theorem not_mem_of_isValidName {name : Token} (h : isValidName name = true) : '\'' ∉ name := by
  intro hmem
  rw [isValidName, Bool.and_eq_true] at h
  exact absurd (List.all_eq_true.mp h.2 _ hmem) (by decide)

/-- What a call hands over an argument by. -/
theorem toList_handOver (i : Nat) :
    s!"MOV $arg{i} ".toList = "MOV $arg".toList ++ Text.decimal i ++ [' '] := by
  simp [Text.decimal, toString, Nat.repr]

theorem toList_jumpBack (n : Nat) :
    s!"MOV $jump_back :ret{n}".toList = "MOV $jump_back :ret".toList ++ Text.decimal n := by
  simp [Text.decimal, toString, Nat.repr]

theorem toList_returnLabel (n : Nat) :
    s!"ret{n}:".toList = "ret".toList ++ Text.decimal n ++ [':'] := by
  simp [Text.decimal, toString, Nat.repr]

theorem isPlain_handOver {line : Line} {arguments : List Token}
    (h : ∀ argument ∈ arguments, '\'' ∉ argument) (i : Nat) :
    ∀ out ∈ handOver line i arguments, out.IsPlain := by
  induction arguments generalizing i with
  | nil => simp [handOver]
  | cons argument arguments ih =>
      obtain ⟨hargument, harguments⟩ := List.forall_mem_cons.mp h
      rw [handOver, List.forall_mem_cons]
      refine ⟨Line.isPlain_withContents ?_, ih harguments (i + 1)⟩
      rw [toList_handOver]
      have hdecimal : '\'' ∉ Text.decimal i := Text.not_mem_decimal (by decide)
      simp [hargument, hdecimal]

theorem isPlain_call {line : Line} {n : Nat} {name : Token} {arguments : List Token}
    (hname : '\'' ∉ name) (h : ∀ argument ∈ arguments, '\'' ∉ argument) :
    ∀ out ∈ call line n name arguments, out.IsPlain := by
  have hdecimal : '\'' ∉ Text.decimal n := Text.not_mem_decimal (by decide)
  rw [call, List.forall_mem_append]
  refine ⟨isPlain_handOver h 0, ?_⟩
  simp only [List.forall_mem_cons]
  refine ⟨Line.isPlain_withContents ?_, Line.isPlain_withContents ?_,
    Line.isPlain_withContents ?_, by simp⟩
  · rw [toList_jumpBack]
    simp [hdecimal]
  · simp [hname]
  · rw [toList_returnLabel]
    simp [hdecimal]

theorem ExpandsLine.isPlain {table : Table} {n k : Nat} {line : Line} {own : List Line}
    (h : ExpandsLine table n line own k) (hline : line.IsPlain) : ∀ out ∈ own, out.IsPlain := by
  cases h with
  | plain hmarker => simpa using hline
  | call hmarker hcall =>
      obtain ⟨name, arguments, d, hlist, -, -, -, rfl⟩ := callLines_eq_ok hcall
      have hcode : ∀ token ∈ name :: arguments, '\'' ∉ token := by
        intro token htoken hmem
        exact hline.not_mem_code
          (List.mem_of_mem_drop ((argumentList_eq_ok hlist).2 token htoken _ hmem))
      obtain ⟨hname, harguments⟩ := List.forall_mem_cons.mp hcode
      exact isPlain_call hname harguments
  | start hmarker hdeclaration =>
      have hname := not_mem_of_isValidName (isValidName_of_declarationIn hdeclaration)
      simp only [opening, List.forall_mem_cons]
      refine ⟨Line.isPlain_withContents (by simp [hname]), Line.isPlain_withContents ?_, by simp⟩
      decide
  | finish hmarker =>
      simp only [List.forall_mem_cons]
      exact ⟨Line.isPlain_withContents (by decide), by simp⟩

theorem Expands.isPlain {table : Table} {n m : Nat} {lines expanded : List Line}
    (h : Expands table n lines m expanded) (hlines : ∀ line ∈ lines, line.IsPlain) :
    ∀ out ∈ expanded, out.IsPlain := by
  induction h with
  | nil n => simp
  | cons hline _ ih =>
      obtain ⟨hfirst, hrest⟩ := List.forall_mem_cons.mp hlines
      exact List.forall_mem_append.mpr ⟨hline.isPlain hfirst, ih hrest⟩

end Subroutine

namespace Constant

/-- All values of a table are plain. -/
def Table.IsPlain (table : Table) : Prop :=
  ∀ name value, table.valueOf name = .ok value → value.IsPlain

theorem Table.isPlain_empty : ({} : Table).IsPlain := by
  intro name value h
  cases h

theorem Table.IsPlain.resolve {table : Table} (h : table.IsPlain) {token resolved : Token}
    (htoken : token.IsPlain) (hresolved : table.resolve token = .ok resolved) :
    resolved.IsPlain := by
  unfold Table.resolve at hresolved
  split at hresolved
  · exact h _ _ hresolved
  · obtain rfl := Except.ok.inj hresolved
    exact htoken

theorem Table.IsPlain.define {table next : Table} (h : table.IsPlain) {cells : Nat}
    {name value : Token} (hvalue : value.IsPlain)
    (hdefine : table.define cells name value = .ok next) : next.IsPlain := by
  -- the values are those of the table and one more, which is a cell or what the value resolves to
  have hvalues : ∃ found, found.IsPlain ∧ next.values = (name, found) :: table.values := by
    rcases define_eq_ok hdefine with ⟨-, -, rfl⟩ | ⟨-, resolved, hresolved, rfl⟩
    · exact ⟨_, Token.isPlain_cell _, rfl⟩
    · exact ⟨_, h.resolve hvalue hresolved, rfl⟩
  obtain ⟨found, hfound, hnext⟩ := hvalues
  intro other value hother
  rw [Table.valueOf_eq_ok_iff, hnext, List.lookup_cons] at hother
  split at hother
  · obtain rfl := Option.some.inj hother
    exact hfound
  · exact h other value (Table.valueOf_eq_ok_iff.mpr hother)

theorem Table.IsPlain.mapM_resolve {table : Table} (h : table.IsPlain)
    {tokens resolved : List Token} (htokens : ∀ token ∈ tokens, token.IsPlain)
    (hresolved : tokens.mapM table.resolve = .ok resolved) :
    ∀ token ∈ resolved, token.IsPlain := by
  have hforall := Success.mapM_iff.mp hresolved
  clear hresolved
  induction hforall with
  | nil => simp
  | cons htoken _ ih =>
      obtain ⟨hfirst, hrest⟩ := List.forall_mem_cons.mp htokens
      exact List.forall_mem_cons.mpr ⟨h.resolve hfirst htoken, ih hrest⟩

theorem Statement.value_mem {tokens : List Token} {name value : Token}
    (h : Statement.ofTokens tokens = .definition name value) : value ∈ tokens := by
  unfold Statement.ofTokens at h
  split at h
  · split at h
    · cases h
    · obtain ⟨-, rfl⟩ := Statement.definition.inj h
      simp
    · cases h
  · cases h

/-- The pass keeps lines plain, and the values of constants with them. -/
theorem Substitutes.isPlain {policy : Policy} {cells : Nat} {table last : Table}
    {lines kept : List Line} (h : Substitutes cells policy table lines last kept)
    (htable : table.IsPlain) (hlines : ∀ line ∈ lines, line.IsPlain) :
    last.IsPlain ∧ ∀ line ∈ kept, line.IsPlain := by
  induction h with
  | nil policy table => exact ⟨htable, by simp⟩
  | definition hline hprocess _ ih =>
      obtain ⟨hfirst, hrest⟩ := List.forall_mem_cons.mp hlines
      obtain ⟨-, hdefine⟩ := process_eq_ok hprocess
      exact ih (htable.define (hfirst.token (Statement.value_mem hline)) hdefine) hrest
  | code hline hresolved _ ih =>
      obtain ⟨hfirst, hrest⟩ := List.forall_mem_cons.mp hlines
      obtain ⟨hlast, hkept⟩ := ih htable hrest
      obtain rfl := Statement.tokens_of_code hline
      have hplain := htable.mapM_resolve (fun token htoken => hfirst.token htoken) hresolved
      exact ⟨hlast, List.forall_mem_cons.mpr ⟨Line.isPlain_withContents_join hplain, hkept⟩⟩

end Constant

/-- Plain tokens hold no literal that the pass could replace. -/
theorem Character.replaceLine_join_of_isPlain {line : Line} {tokens : List Token}
    (h : ∀ token ∈ tokens, token.IsPlain) :
    replaceLine (line.withContents (Token.join tokens))
      = .ok (line.withContents (Token.join tokens)) := by
  have hcodes : (line.withContents (Token.join tokens)).tokens.mapM replaceToken = .ok tokens := by
    rw [Line.tokens_withContents_join h]
    exact Success.mapM_iff.mpr (List.forall₂_same.mpr fun token htoken =>
      replaceToken_of_head? fun hhead => (h token htoken).not_mem (List.mem_of_head? hhead))
  rw [replaceLine, replaceSpaces_of_notMem (Line.isPlain_withContents_join h)]
  exact Success.bind_iff.mpr ⟨tokens, Success.check_iff.mpr hcodes, rfl⟩

/-! ## What plain lines generate -/

namespace Label.Table

variable {labels : Table} {line : Line}

theorem isPlain_of_kept? {token kept : Token} (htoken : token.IsPlain)
    (h : labels.kept? token = some kept) : kept.IsPlain := by
  refine Token.isPlain_of_isProper (isProper_of_kept? htoken.isProper h) ?_
  unfold kept? at h
  split at h
  · cases h
  · obtain ⟨address, -, rfl⟩ := Option.map_eq_some_iff.mp h
    exact Text.not_mem_decimal (by decide)
  · obtain rfl := Option.some.inj h
    exact htoken.not_mem

theorem isPlain_of_mem_kept (h : line.IsPlain) {kept : List Token}
    (hkept : labels.replaceTokens line.tokens = .ok kept) : ∀ token ∈ kept, token.IsPlain := by
  obtain ⟨rfl, -⟩ := kept?_of_replaceTokens hkept
  intro token hmem
  obtain ⟨source, hsource, hkept⟩ := List.mem_filterMap.mp hmem
  exact isPlain_of_kept? (h.token hsource) hkept

theorem separates_of_isPlain (h : line.IsPlain) : labels.Separates line := by
  intro kept hkept
  have hplain := isPlain_of_mem_kept h hkept
  refine (List.pairwise_of_forall_mem_list ?_).isChain
  intro token htoken next _ _ hlast
  exact absurd (List.mem_of_getLast? hlast) (hplain token htoken).not_mem

/-- **The instructions of a plain line are those of what remains of its tokens.** -/
theorem Generates.of_plain {listing : Listing} (hplain : line.IsPlain)
    (h : labels.Generates [line] listing) :
    ∃ instructions, Instruction.parse (line.tokens.filterMap labels.kept?) = .ok instructions ∧
      listing.words = instructions.flatMap Instruction.words := by
  obtain ⟨kept, codes, instructions, hkept, hcodes, hparse, hwords⟩ :=
    h.of_singleton (separates_of_isPlain hplain)
  have hplainKept := isPlain_of_mem_kept hplain hkept
  -- plain tokens are no character literals
  have hsame : codes = kept := by
    clear hparse hkept
    induction hcodes with
    | nil => rfl
    | cons hcode _ ih =>
        obtain ⟨hfirst, hrest⟩ := List.forall_mem_cons.mp hplainKept
        have hhead := Character.replaceToken_of_head?
          fun hhead => hfirst.not_mem (List.mem_of_head? hhead)
        rw [hhead, Except.ok.injEq] at hcode
        rw [← hcode, ih hrest]
  obtain ⟨rfl, -⟩ := kept?_of_replaceTokens hkept
  rw [hsame] at hparse
  exact ⟨instructions, hparse, hwords⟩

end Label.Table

end CellAsm
