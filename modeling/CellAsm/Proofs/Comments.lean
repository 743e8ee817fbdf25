import CellAsm.Proofs.Contents.Passes
import CellAsm.Proofs.Pass.Import
import CellAsm.Proofs.Stages

set_option autoImplicit false

/-! # Comments and blank lines

A comment may be added to any line but a directive, and lines without code may be added anywhere
(`Commented`). Imports are expanded before comments go, so both kinds of lines pass through the
worklist (`agree_expandFrom`); they are no directives, because whether a line is one shows in its
code. When the comments are gone the contents are the same again, and what follows looks at nothing
else. The main statement is `comments_never_matter`.
-/

namespace CellAsm

/-! ## Code and comments in a line -/

namespace Comment

/-- The text in front of the first semicolon. -/
def before (s : List Char) : List Char := s.takeWhile (· ≠ ';')

theorem ne_semicolon_of_isBlank (c : Char) (h : Text.isBlank c = true) : decide (c ≠ ';') = true := by
  refine decide_eq_true ?_
  rintro rfl
  exact absurd h (by decide)

/-- The code is the trimmed text in front of the first semicolon. -/
theorem codeOf_eq_trim_before (s : List Char) : codeOf s = Text.trim (before s) :=
  Text.trim_takeWhile_trim ne_semicolon_of_isBlank s

theorem before_append_semicolon (s t : List Char) : before (s ++ ';' :: t) = before s := by
  rw [before, before, List.takeWhile_append]
  split_ifs with h
  · rw [List.takeWhile_cons_of_neg (by simp), List.append_nil,
      (List.takeWhile_prefix _).eq_of_length h]
  · rfl

/-- What follows a semicolon is no code. -/
theorem codeOf_append_semicolon (s t : List Char) : codeOf (s ++ ';' :: t) = codeOf s := by
  rw [codeOf_eq_trim_before, codeOf_eq_trim_before, before_append_semicolon]

/-- A line is dropped, or replaced by its code, whatever line it is. -/
theorem remove_cons (line : Line) (lines : List Line) :
    remove (line :: lines) =
      if codeOf line.contents.toList = [] then remove lines
      else line.withContents (codeOf line.contents.toList) :: remove lines := by
  rw [remove, remove, List.filterMap_cons, remaining?]
  split_ifs <;> rfl

/-- A line without code: it is blank, or its first character that is no blank is a semicolon. -/
def IsIdle (line : Line) : Prop := line.code = [] ∨ line.code.head? = some ';'

theorem IsIdle.codeOf_eq_nil {line : Line} (h : IsIdle line) : codeOf line.contents.toList = [] := by
  have hcode : codeOf line.contents.toList = Text.trim (before line.code) := rfl
  rw [hcode]
  rcases h with h | h
  · rw [h]
    rfl
  · obtain ⟨rest, hrest⟩ := List.head?_eq_some_iff.mp h
    rw [hrest]
    rfl

/-- The two lines differ at most by a comment, which no directive has. -/
def Noted (line line' : Line) : Prop :=
  line'.contents = line.contents ∨
    Import.path? line = none ∧ ∃ text : String, line'.contents = line.contents ++ ";" ++ text

theorem Noted.codeOf_eq {line line' : Line} (h : Noted line line') :
    codeOf line'.contents.toList = codeOf line.contents.toList := by
  rcases h with h | ⟨-, text, h⟩
  · rw [h]
  · have htext : (line.contents ++ ";" ++ text).toList
        = line.contents.toList ++ ';' :: text.toList := by
      rw [String.append_assoc, String.toList_append, String.toList_append]
      rfl
    rw [h, htext, codeOf_append_semicolon]

end Comment

/-! ## Directives -/

namespace Import

open Comment (codeOf IsIdle Noted before)

theorem prefix_takeWhile_iff {front s : List Char} {p : Char → Bool} (hp : ∀ c ∈ front, p c = true) :
    front <+: s.takeWhile p ↔ front <+: s := by
  refine ⟨fun h => h.trans (List.takeWhile_prefix p), ?_⟩
  rintro ⟨rest, rfl⟩
  rw [List.takeWhile_append_of_pos hp]
  exact List.prefix_append front _

/-- **Whether a line is a directive shows in its code.** -/
theorem path?_eq_none_iff {line : Line} :
    path? line = none ↔ ¬ mark <+: codeOf line.contents.toList := by
  have hmark : ∀ c ∈ mark, decide (c ≠ ';') = true := List.all_eq_true.mp (by decide)
  have hlast : ∀ c ∈ mark.getLast?, Text.isBlank c = false := by
    have hend : mark.getLast? = some 't' := by decide
    intro c hc
    obtain rfl := Option.some.inj (hend.symm.trans hc)
    decide
  have hcode : mark <+: codeOf line.contents.toList ↔ mark <+: line.code := by
    calc mark <+: codeOf line.contents.toList
        ↔ mark <+: Text.trimStart (before line.contents.toList) := by
          rw [Comment.codeOf_eq_trim_before, Text.prefix_trim_iff hlast]
      _ ↔ mark <+: Text.trimStart line.contents.toList := by
          rw [before, Text.trimStart_takeWhile Comment.ne_semicolon_of_isBlank,
            prefix_takeWhile_iff hmark]
      _ ↔ mark <+: line.code := (Text.prefix_trim_iff hlast).symm
  rw [hcode, ← List.isPrefixOf_iff_prefix, path?]
  split_ifs with h
  · simp [h]
  · simp [h]

theorem path?_of_isIdle {line : Line} (h : IsIdle line) : path? line = none := by
  rw [path?_eq_none_iff, h.codeOf_eq_nil, List.prefix_nil]
  decide

theorem path?_of_noted {line line' : Line} (h : Noted line line') : path? line' = path? line := by
  have hcode := h.codeOf_eq
  rcases h with hsame | ⟨hnone, -⟩
  · rw [path?, path?, Line.code_congr hsame]
  · rw [hnone, path?_eq_none_iff, hcode, ← path?_eq_none_iff, hnone]

end Import

/-! ## Programs with comments -/

/-- The second list has comments and blank lines that the first one does not have. Nothing is said
about the numbers, the files and the sources of its lines. -/
inductive Commented : List Line → List Line → Prop
  | nil : Commented [] []
  | keep {line line' : Line} {lines lines' : List Line} (h : Comment.Noted line line')
      (hrest : Commented lines lines') : Commented (line :: lines) (line' :: lines')
  | insert {line' : Line} {lines lines' : List Line} (h : Comment.IsIdle line')
      (hrest : Commented lines lines') : Commented lines (line' :: lines')

namespace Commented

variable {lines lines' : List Line}

theorem append_left (front : List Line) (h : Commented lines lines') :
    Commented (front ++ lines) (front ++ lines') := by
  induction front with
  | nil => exact h
  | cons line front ih => exact .keep (.inl rfl) ih

/-- A directive is not inserted. -/
theorem exists_of_directive {line' : Line} {path : String} (hpath : Import.path? line' = some path)
    (h : Commented lines (line' :: lines')) :
    ∃ line rest, lines = line :: rest ∧ Import.path? line = some path ∧ Commented rest lines' := by
  cases h with
  | @keep line _ rest _ hline hrest =>
      exact ⟨line, rest, rfl, (Import.path?_of_noted hline).symm.trans hpath, hrest⟩
  | insert hidle hrest => cases (Import.path?_of_isIdle hidle).symm.trans hpath

/-- **Without comments the contents are the same.** -/
theorem sameLines_remove (h : Commented lines lines') :
    SameLines (Comment.remove lines) (Comment.remove lines') := by
  induction h with
  | nil => exact .nil
  | @keep line line' lines lines' hline _ ih =>
      rw [Comment.remove_cons, Comment.remove_cons, hline.codeOf_eq]
      split_ifs
      · exact ih
      · exact .cons_withContents line line' _ ih
  | insert hidle _ ih =>
      rw [Comment.remove_cons, if_pos hidle.codeOf_eq_nil]
      exact ih

end Commented

namespace Import

variable {files : Files} {lines lines' : List Line}

/-- **Comments stay where they are when imports are expanded.** The induction is on the run with
comments, which takes a step whenever the other one does. -/
theorem agree_expandFrom {opened : List String} (h : Commented lines lines') :
    Agree Fault.Alike Commented (expandFrom files opened lines).result
      (expandFrom files opened lines').result := by
  fun_induction expandFrom files opened lines' generalizing lines with
  | case1 opened =>
      cases h
      rw [expandFrom]
      exact .ok .nil
  | case2 opened line' lines' hpath ih =>
      cases h with
      | keep hline hrest =>
          rw [expandFrom_of_path?_eq_none ((path?_of_noted hline).symm.trans hpath)]
          exact (ih hrest).map fun rest rest' h => .keep hline h
      | insert hidle hrest => exact (ih hrest).map_right fun rest rest' h => .insert hidle h
  | case3 opened line' lines' hpath =>
      obtain ⟨line, rest, rfl, hline, -⟩ := h.exists_of_directive hpath
      rw [expandFrom_of_path?_eq_some hline, if_pos rfl]
      exact .inLine line line' _
  | case4 opened line' lines' path hpath hne hmem ih =>
      obtain ⟨line, rest, rfl, hline, hrest⟩ := h.exists_of_directive hpath
      rw [expandFrom_of_path?_eq_some hline, if_neg hne, if_pos (List.contains_iff_mem.mp hmem)]
      exact ih hrest
  | case5 opened line' lines' path hpath hne hmem reason hread =>
      obtain ⟨line, rest, rfl, hline, -⟩ := h.exists_of_directive hpath
      rw [expandFrom_of_path?_eq_some hline, if_neg hne, if_neg (by simpa using hmem), hread]
      exact .inLine line line' _
  | case6 opened line' lines' path hpath hne hmem text hread ih =>
      obtain ⟨line, rest, rfl, hline, hrest⟩ := h.exists_of_directive hpath
      rw [expandFrom_of_path?_eq_some hline, if_neg hne, if_neg (by simpa using hmem), hread]
      -- the file is the same one, so its lines come in front of both lists
      exact ih (hrest.append_left (Line.ofText path text))

end Import

/-! ## The main statement -/

/-- Without comments the lines have the same contents in front of every later pass, so a policy that
does not look at where a warning comes from finds nothing to tell them apart by. -/
theorem Assembler.alike_preprocessLines {assembler : Assembler}
    (hpolicy : assembler.policy.Alike assembler.policy) {lines lines' : List Line}
    (h : Commented lines lines') :
    (assembler.preprocessLines lines).Alike SameLines (assembler.preprocessLines lines') := by
  have himports : (Pass.apply assembler .imports lines).Alike Commented
      (Pass.apply assembler .imports lines') := .ofExcept (Import.agree_expandFrom h)
  refine himports.bind fun imported imported' himported => ?_
  refine .bind (.pure himported.sameLines_remove) fun kept kept' hkept => ?_
  exact Pass.alike_applyAll hpolicy (by decide) (by decide) hkept

/-- **Comments and blank lines never change meaning.** Whatever the parameters and the files, and
under both policies, a program and the same program with more comments and blank lines have warnings
that say the same, one by one, and either both end with faults that say the same, or both are
preprocessed to lines with the same contents. Encoding these gives the same words or, again, faults
that say the same. -/
theorem comments_never_matter (assembler : Assembler)
    (hpolicy : assembler.policy = .strict ∨ assembler.policy = .collect) {lines lines' : List Line}
    (h : Commented lines lines') :
    (assembler.preprocessLines lines).Alike
      (fun kept kept' =>
        kept.map Line.contents = kept'.map Line.contents ∧
          Agree Fault.Alike (fun program program' => program.words = program'.words)
            (Program.ofLines kept) (Program.ofLines kept'))
      (assembler.preprocessLines lines') := by
  have himpartial : assembler.policy.Alike assembler.policy := by
    rcases hpolicy with hpolicy | hpolicy
    · rw [hpolicy]; exact .strict
    · rw [hpolicy]; exact .collect
  obtain ⟨hwarnings, hresult⟩ := Assembler.alike_preprocessLines himpartial h
  refine ⟨hwarnings, hresult.imp fun kept kept' hsame => ⟨hsame.contents_eq, ?_⟩⟩
  exact Program.agree_ofLines hsame

/-! ### A program with an import, and the same with comments -/

namespace Comments.Sample

def assembler : Assembler :=
  { files := ⟨[("lib", .ok "DPRINT $a ; two\n")]⟩, policy := .collect }

def line (number : Nat) (source : String) : Line := ⟨number, "sample", source, source⟩

def plain : List Line := [line 1 "$a = 1", line 2 "$a = 2", line 3 "#import <lib>", line 4 "HALT"]

def noted : List Line :=
  [line 1 "; Prints 2.", line 2 "", line 3 "$a = 1; first", line 4 "$a = 2", line 5 " \t",
    line 6 "#import <lib>", line 7 "  ;;", line 8 "HALT;"]

theorem commented : Commented plain noted := by
  have hhalt : Commented [line 4 "HALT"] [line 8 "HALT;"] :=
    .keep (.inr ⟨by decide, "", rfl⟩) .nil
  have himport : Commented (line 3 "#import <lib>" :: [line 4 "HALT"])
      (line 5 " \t" :: line 6 "#import <lib>" :: line 7 "  ;;" :: [line 8 "HALT;"]) :=
    .insert (.inl (by decide)) (.keep (.inl rfl) (.insert (.inr (by decide)) hhalt))
  exact .insert (.inr (by decide)) (.insert (.inl (by decide))
    (.keep (.inr ⟨by decide, " first", rfl⟩) (.keep (.inl rfl) himport)))

def library : List Line := Line.ofText "lib" "DPRINT $a ; two\n"

theorem expand_plain :
    Import.expand assembler.files plain
      = .ok ([line 1 "$a = 1", line 2 "$a = 2"] ++ (library ++ [line 4 "HALT"])) := by
  have hpath : Import.path? (line 3 "#import <lib>") = some "lib" := by decide
  have hlast : (Import.expandFrom assembler.files ["lib"] [line 4 "HALT"]).result
      = .ok [line 4 "HALT"] :=
    Import.result_expandFrom_of_no_directive _ _ (by decide)
  have hlibrary := Import.result_expandFrom_of_flat hpath (by decide) List.not_mem_nil rfl
    (by decide +kernel) hlast
  have hfront : ∀ front ∈ [line 1 "$a = 1", line 2 "$a = 2"], Import.path? front = none := by decide
  have hplain := Import.result_expandFrom_append assembler.files [] hfront
    [line 3 "#import <lib>", line 4 "HALT"]
  rw [hlibrary] at hplain
  exact hplain

theorem result_plain :
    (assembler.preprocessLines plain).result.map (List.map Line.contents)
      = .ok ["DPRINT 2", "HALT"] := by
  rw [assembler.preprocessLines_of_expand expand_plain]
  decide +kernel

end Comments.Sample

open Comments.Sample in
theorem comments_never_matter_sample :
    Commented plain noted ∧
      ∃ kept, (assembler.preprocessLines noted).result = .ok kept ∧
        kept.map Line.contents = ["DPRINT 2", "HALT"] := by
  refine ⟨commented, ?_⟩
  obtain ⟨-, hresult⟩ := comments_never_matter assembler (.inr rfl) commented
  obtain ⟨kept, hkept, hcontents⟩ := Success.map_iff.mp result_plain
  rw [hkept] at hresult
  generalize (assembler.preprocessLines noted).result = result at hresult ⊢
  cases hresult with
  | ok h => exact ⟨_, rfl, h.1.symm.trans hcontents⟩

end CellAsm
