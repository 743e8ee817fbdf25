import CellAsm.Fault

set_option autoImplicit false

/-! # Imports

An import directive stands for the lines of a file, which may hold directives of their own.
Each path is expanded once, where it is met first; later directives with the same path vanish.
Expansion works on the list of the lines still to come: the lines of an imported file are put
in front of it. It ends because a directive either vanishes or uses up one of the finitely
many files that can be read.
-/

namespace CellAsm

/-- Why a file cannot be read. -/
inductive ReadFault where
  /-- There is no such file. -/
  | notFound
  /-- Any other reason, in words. -/
  | failed (message : String)
deriving DecidableEq

/-- The cause of failing to read the file at `path`. -/
def ReadFault.cause (path : String) : ReadFault → Fault.Cause
  | notFound => .fileNotFound path
  | failed message => .unreadable path message

/-- What can be imported: for finitely many paths the text or the reason why there is none.
No file exists at any other path. -/
structure Files where
  entries : List (String × Except ReadFault String) := []

namespace Files

/-- The text of the file at `path`. Paths are compared as they are written. -/
def read (files : Files) (path : String) : Except ReadFault String :=
  (files.entries.lookup path).getD (.error .notFound)

/-- The number of entries whose paths are not in `opened`. -/
def unread (files : Files) (opened : List String) : Nat :=
  files.entries.countP fun entry => !opened.contains entry.1

/-- Only a path of an entry can be read. -/
theorem exists_mem_of_read {files : Files} {path text : String} (h : files.read path = .ok text) :
    ∃ entry ∈ files.entries, entry.1 = path := by
  simp only [read] at h
  cases hl : files.entries.lookup path with
  | none => simp [hl] at h
  | some value =>
    rw [List.lookup_eq_some_iff] at hl
    obtain ⟨before, after, he, _⟩ := hl
    exact ⟨(path, value), by simp [he], rfl⟩

/-- Opening a file that was not opened before leaves fewer to be read. -/
theorem unread_cons_lt {files : Files} {path text : String} {opened : List String}
    (h : files.read path = .ok text) (hp : opened.contains path = false) :
    files.unread (path :: opened) < files.unread opened := by
  obtain ⟨entry, hmem, rfl⟩ := exists_mem_of_read h
  obtain ⟨before, after, he⟩ := List.append_of_mem hmem
  have mono : ∀ entries : List (String × Except ReadFault String),
      entries.countP (fun e => !(entry.1 :: opened).contains e.1)
        ≤ entries.countP (fun e => !opened.contains e.1) := by
    intro entries
    apply List.countP_mono_left
    intro e _ hin
    simp only [List.contains_cons, Bool.not_or, Bool.and_eq_true] at hin
    exact hin.2
  have hb := mono before
  have ha := mono after
  simp only [unread, he, List.countP_append, List.countP_cons, hp, List.contains_cons,
    beq_self_eq_true, Bool.true_or, Bool.not_true, Bool.not_false, Bool.false_eq_true, if_true,
    if_false] at hb ha ⊢
  omega

end Files

namespace Import

/-- What an import directive begins with. -/
def mark : List Char := "#import".toList

/-- A path without angle brackets around it. -/
def bare : List Char → List Char
  | '<' :: path => if path.getLast? = some '>' then path.dropLast else '<' :: path
  | path => path

/-- The path of a line that is an import directive. -/
def path? (line : Line) : Option String :=
  if mark.isPrefixOf line.code then
    some (String.ofList (Text.trim (bare (Text.trim (line.code.drop mark.length)))))
  else
    none

/-- The outcome of expanding imports. -/
structure Expansion where
  /-- The paths that were read, in order, up to the end or to the fault. -/
  opened : List String
  /-- The lines without directives. -/
  result : Except Fault (List Line)

namespace Expansion

/-- The expansion with a line in front of its lines. -/
def keep (line : Line) (expansion : Expansion) : Expansion :=
  { expansion with result := expansion.result.map (line :: ·) }

/-- The expansion after reading one more path at first. -/
def opening (path : String) (expansion : Expansion) : Expansion :=
  { expansion with opened := path :: expansion.opened }

/-- The expansion that ends with a fault at once. -/
def fail (line : Line) (cause : Fault.Cause) : Expansion :=
  ⟨[], .error (.inLine line cause)⟩

end Expansion

/-- Expands the directives among `pending`, where the paths in `opened` have been expanded
before. -/
def expandFrom (files : Files) (opened : List String) : List Line → Expansion
  | [] => ⟨[], .ok []⟩
  | line :: pending =>
    match path? line with
    | none => (expandFrom files opened pending).keep line
    | some path =>
      if path = "" then .fail line .missingPath
      else if _hp : opened.contains path then expandFrom files opened pending
      else
        match _hr : files.read path with
        | .error fault => .fail line (fault.cause path)
        | .ok text =>
          (expandFrom files (path :: opened) (Line.ofText path text ++ pending)).opening path
termination_by pending => (files.unread opened, pending.length)
decreasing_by
  · exact Prod.Lex.right _ (by simp)
  · exact Prod.Lex.right _ (by simp)
  · exact Prod.Lex.left _ _ (Files.unread_cons_lt _hr (by simpa using _hp))

/-- The lines with every import directive replaced by the lines of its file. -/
def expand (files : Files) (lines : List Line) : Except Fault (List Line) :=
  (expandFrom files [] lines).result

end Import

end CellAsm
