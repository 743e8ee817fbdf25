import CellAsm.Pass.Import
import CellAsm.Proofs.Text.Trim

set_option autoImplicit false

/-! # The worklist of imports

Which lines are directives is told by their contents (`path?_eq_some_iff`). What the pass does with
the first line of its worklist depends on that: a line that is no directive is kept, a directive
stands for the lines of its file (`expandFrom_of_path?_eq_some`). A program without directives is
the same whatever files there are (`expand_of_no_directive`).
-/

namespace CellAsm

/-- The code of a line is its contents without the blanks around them. -/
theorem Line.code_eq_iff {line : Line} {code : List Char} :
    line.code = code ↔ Text.Trims line.contents.toList code :=
  Text.trim_eq_iff

namespace Import

/-! ## Directives -/

/-- The line asks for the file at `path`: the path comes behind the mark, in angle brackets or by
itself, and there may be blanks around all of it. -/
inductive Directs (line : Line) (path : String) : Prop where
  | bracketed {rest inner : List Char} (code : Text.Trims line.contents.toList (mark ++ rest))
      (name : Text.Trims rest ('<' :: (inner ++ ['>']))) (trimmed : Text.Trims inner path.toList)
  | plain {rest : List Char} (code : Text.Trims line.contents.toList (mark ++ rest))
      (name : Text.Trims rest path.toList)
      (unbracketed : ∀ inner, path.toList ≠ '<' :: (inner ++ ['>']))

theorem bare_of_bracketed (inner : List Char) : bare ('<' :: (inner ++ ['>'])) = inner := by
  simp [bare]

theorem bare_of_unbracketed {s : List Char} (h : ∀ inner, s ≠ '<' :: (inner ++ ['>'])) :
    bare s = s := by
  unfold bare
  split
  · next path =>
    refine if_neg fun hlast => h path.dropLast ?_
    rw [List.dropLast_append_getLast? _ hlast]
  · rfl

/-- What is looked at in a directive: what follows the mark, without its brackets. -/
theorem path?_eq_some_iff_trim {line : Line} {path : String} :
    path? line = some path ↔
      ∃ rest, line.code = mark ++ rest ∧ Text.trim (bare (Text.trim rest)) = path.toList := by
  unfold path?
  constructor
  · intro h
    split at h
    · next hmark =>
      obtain ⟨rest, hrest⟩ := List.isPrefixOf_iff_prefix.mp hmark
      obtain rfl := Option.some.inj h
      refine ⟨rest, hrest.symm, ?_⟩
      rw [← hrest, List.drop_left, String.toList_ofList]
    · cases h
  · rintro ⟨rest, hcode, hpath⟩
    rw [hcode, if_pos (by simp), List.drop_left, hpath, String.ofList_toList]

/-- **The directives among the lines.** -/
theorem path?_eq_some_iff {line : Line} {path : String} :
    path? line = some path ↔ Directs line path := by
  rw [path?_eq_some_iff_trim]
  constructor
  · rintro ⟨rest, hcode, hpath⟩
    have htrims := Line.code_eq_iff.mp hcode
    by_cases hbracketed : ∃ inner, Text.trim rest = '<' :: (inner ++ ['>'])
    · obtain ⟨inner, hinner⟩ := hbracketed
      rw [hinner, bare_of_bracketed] at hpath
      exact .bracketed htrims (Text.trim_eq_iff.mp hinner) (Text.trim_eq_iff.mp hpath)
    · have hplain := not_exists.mp hbracketed
      have htrim : Text.trim (Text.trim rest) = Text.trim rest :=
        Text.trim_of_ends (Text.head?_trim rest) (Text.getLast?_trim rest)
      rw [bare_of_unbracketed hplain, htrim] at hpath
      exact .plain htrims (Text.trim_eq_iff.mp hpath) (hpath ▸ hplain)
  · intro h
    cases h with
    | @bracketed rest inner code name trimmed =>
        refine ⟨rest, Line.code_eq_iff.mpr code, ?_⟩
        rw [Text.trim_eq_iff.mpr name, bare_of_bracketed, Text.trim_eq_iff.mpr trimmed]
    | @plain rest code name unbracketed =>
        refine ⟨rest, Line.code_eq_iff.mpr code, ?_⟩
        rw [Text.trim_eq_iff.mpr name, bare_of_unbracketed unbracketed,
          Text.trim_of_ends name.head name.last]

/-! ## One line -/

/-- A directive holds the character that its mark begins with. -/
theorem path?_eq_none_of_notMem {line : Line} (h : '#' ∉ line.contents.toList) :
    path? line = none := by
  refine if_neg fun hmark => h (Text.mem_of_mem_trim ?_)
  obtain ⟨rest, hrest⟩ := List.isPrefixOf_iff_prefix.mp hmark
  have hcode : Text.trim line.contents.toList = mark ++ rest := hrest.symm
  rw [hcode]
  exact List.mem_append_left rest (by decide)

section

variable {files : Files} {opened : List String} {line : Line} {lines : List Line} {path : String}

theorem expandFrom_of_path?_eq_none (h : path? line = none) :
    expandFrom files opened (line :: lines) = (expandFrom files opened lines).keep line := by
  rw [expandFrom]
  split
  · rfl
  · next path hpath => exact absurd (h.symm.trans hpath) (by simp)

theorem expandFrom_of_path?_eq_some (h : path? line = some path) :
    expandFrom files opened (line :: lines) =
      if path = "" then .fail line .missingPath
      else if path ∈ opened then expandFrom files opened lines
      else
        match files.read path with
        | .error fault => .fail line (fault.cause path)
        | .ok text =>
          (expandFrom files (path :: opened) (Line.ofText path text ++ lines)).opening path := by
  rw [expandFrom]
  split
  · next hpath => exact absurd (h.symm.trans hpath) (by simp)
  · next path' hpath =>
    obtain rfl := Option.some.inj (h.symm.trans hpath)
    simp only [List.contains_iff_mem, dite_eq_ite]
    congr 2
    split
    · next fault hread => rw [hread]
    · next text hread => rw [hread]

end

/-! ## Lines without directives -/

/-- Lines without directives are kept in front of what the lines behind them expand to. -/
theorem result_expandFrom_append (files : Files) (opened : List String) {front : List Line}
    (h : ∀ line ∈ front, path? line = none) (lines : List Line) :
    (expandFrom files opened (front ++ lines)).result
      = (expandFrom files opened lines).result.map (front ++ ·) := by
  induction front with
  | nil =>
      simp only [List.nil_append]
      cases (expandFrom files opened lines).result <;> rfl
  | cons line front ih =>
      obtain ⟨hline, hfront⟩ := List.forall_mem_cons.mp h
      rw [List.cons_append, expandFrom_of_path?_eq_none hline, Expansion.keep, ih hfront]
      cases (expandFrom files opened lines).result <;> rfl

theorem result_expandFrom_of_no_directive (files : Files) (opened : List String)
    {lines : List Line} (h : ∀ line ∈ lines, path? line = none) :
    (expandFrom files opened lines).result = .ok lines := by
  have hfront := result_expandFrom_append files opened h []
  rw [List.append_nil, expandFrom] at hfront
  rw [hfront, Except.map, List.append_nil]

theorem expand_of_no_directive (files : Files) {lines : List Line}
    (h : ∀ line ∈ lines, path? line = none) : expand files lines = .ok lines :=
  result_expandFrom_of_no_directive files [] h

/-- A directive whose file has no directives of its own stands for the lines of the file. -/
theorem result_expandFrom_of_flat {files : Files} {opened : List String} {line : Line}
    {lines imported : List Line} {path text : String} (hpath : path? line = some path)
    (hne : path ≠ "") (hnew : path ∉ opened) (hread : files.read path = .ok text)
    (hflat : ∀ line ∈ Line.ofText path text, path? line = none)
    (h : (expandFrom files (path :: opened) lines).result = .ok imported) :
    (expandFrom files opened (line :: lines)).result = .ok (Line.ofText path text ++ imported) := by
  rw [expandFrom_of_path?_eq_some hpath, if_neg hne, if_neg hnew, hread]
  show (expandFrom files (path :: opened) (Line.ofText path text ++ lines)).result = _
  rw [result_expandFrom_append files _ hflat, h]
  rfl

end Import

end CellAsm
