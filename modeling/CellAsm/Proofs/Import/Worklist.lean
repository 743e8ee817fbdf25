import CellAsm.Proofs.Import.InPlace
import Mathlib.Algebra.BigOperators.Group.Finset.Basic

set_option autoImplicit false

/-! # The worklist of imports comes to an end

The pass takes one line after the other from the front of a worklist, keeps it or follows its
directive, and stops when the list is empty. `Worklist.loop` is this loop with a bound on its
turns; nothing in it looks ahead, so whether it ends is a question about the files. It does for
every finite set of files that can be read, in whatever way they import one another: a turn uses up
a line, and the lines that it adds are those of a file that is never read again
(`Worklist.work_turn`). So there are as many turns as lines at the most, and no path is read twice
(`expansion_ends_reading_once`).
-/

namespace CellAsm.Import

/-- Where files come from: the text at each path, or why it cannot be read. -/
abbrev Reader := String → Except ReadFault String

/-- The lines of the file at a path. There are none where no file can be read. -/
def Reader.linesAt (read : Reader) (path : String) : List Line :=
  match read path with
  | .ok text => Line.ofText path text
  | .error _ => []

theorem Reader.linesAt_of_read {read : Reader} {path text : String} (h : read path = .ok text) :
    read.linesAt path = Line.ofText path text := by
  rw [linesAt, h]

/-! ## The loop -/

/-- The state of the loop between two turns. -/
structure Worklist where
  /-- The lines that were kept. -/
  kept : List Line
  /-- The lines still to come. -/
  pending : List Line
  /-- The paths that were read, the last one first. -/
  opened : List String

namespace Worklist

/-- The state before the first turn. -/
def start (lines : List Line) : Worklist := ⟨[], lines, []⟩

/-- What the loop does with a line that it has taken from the front of the worklist. -/
def turn (read : Reader) (list : Worklist) (line : Line) : Except Fault Worklist :=
  match path? line with
  | none => .ok { list with kept := list.kept ++ [line] }
  | some path =>
    if path = "" then .error (.inLine line .missingPath)
    else if path ∈ list.opened then .ok list
    else
      match read path with
      | .error reason => .error (.inLine line (reason.cause path))
      | .ok text => .ok { list with
          pending := Line.ofText path text ++ list.pending
          opened := path :: list.opened }

/-- The outcome of the loop, if it ends after at most `bound` turns. -/
def loop (read : Reader) (bound : Nat) (list : Worklist) : Option Expansion :=
  match list.pending with
  | [] => some ⟨list.opened.reverse, .ok list.kept⟩
  | line :: pending =>
    match bound with
    | 0 => none
    | bound + 1 =>
      match turn read { list with pending } line with
      | .error fault => some ⟨list.opened.reverse, .error fault⟩
      | .ok next => loop read bound next

variable {read : Reader} {list next : Worklist} {line : Line} {lines : List Line} {bound : Nat}
  {fault : Fault} {expansion : Expansion}

theorem loop_of_pending_nil (h : list.pending = []) :
    loop read bound list = some ⟨list.opened.reverse, .ok list.kept⟩ := by
  unfold loop
  rw [h]

theorem loop_succ_of_pending_cons (h : list.pending = line :: lines) :
    loop read (bound + 1) list =
      match turn read { list with pending := lines } line with
      | .error fault => some ⟨list.opened.reverse, .error fault⟩
      | .ok next => loop read bound next := by
  rw [loop]
  split
  · next hnil => rw [h] at hnil; cases hnil
  · next first rest hcons =>
    obtain ⟨rfl, rfl⟩ := List.cons.inj (h.symm.trans hcons)
    rfl

/-- A turn keeps the line, passes over a path that was read before, or reads a new one. -/
theorem turn_eq_ok_iff :
    turn read list line = .ok next ↔
      path? line = none ∧ next = { list with kept := list.kept ++ [line] } ∨
      ∃ path, path? line = some path ∧ path ≠ "" ∧
        (path ∈ list.opened ∧ next = list ∨
          path ∉ list.opened ∧ ∃ text, read path = .ok text ∧ next = { list with
            pending := Line.ofText path text ++ list.pending
            opened := path :: list.opened }) := by
  unfold turn
  cases path? line with
  | none => simp [eq_comm]
  | some path =>
      by_cases hempty : path = ""
      · simp [hempty]
      · by_cases hopened : path ∈ list.opened
        · simp [hempty, hopened, eq_comm]
        · cases hread : read path with
          | error reason => simp [hempty, hopened, hread]
          | ok text => simp [hempty, hopened, hread, eq_comm]

/-! ## The loop ends -/

/-- The number of lines still to come, those of files that were not read yet included. -/
def work (read : Reader) (readable : Finset String) (list : Worklist) : Nat :=
  list.pending.length + ∑ path ∈ readable \ list.opened.toFinset, (read.linesAt path).length

/-- **A turn adds no work**: the lines of a file come into the worklist when the file is read, and
it is not read again. -/
theorem work_turn {readable : Finset String}
    (hothers : ∀ path ∉ readable, ∃ reason, read path = .error reason)
    (h : turn read list line = .ok next) : work read readable next = work read readable list := by
  obtain ⟨-, rfl⟩ | ⟨path, -, -, ⟨-, rfl⟩ | ⟨hnew, text, hread, rfl⟩⟩ := turn_eq_ok_iff.mp h
  · rfl
  · rfl
  · have hreadable : path ∈ readable := by
      by_contra hnot
      obtain ⟨reason, hreason⟩ := hothers path hnot
      rw [hread] at hreason
      cases hreason
    have hmem : path ∈ readable \ list.opened.toFinset := by
      rw [Finset.mem_sdiff, List.mem_toFinset]
      exact ⟨hreadable, hnew⟩
    -- the lines of the file move from the sum into the worklist
    have hsum := Finset.add_sum_erase _ (fun path => (read.linesAt path).length) hmem
    rw [Reader.linesAt_of_read hread, ← Finset.sdiff_insert] at hsum
    simp only [work, List.length_append, List.toFinset_cons]
    omega

/-- **The loop ends** after at most as many turns as there is work. -/
theorem exists_loop {readable : Finset String}
    (hothers : ∀ path ∉ readable, ∃ reason, read path = .error reason)
    (h : work read readable list ≤ bound) : ∃ expansion, loop read bound list = some expansion := by
  induction bound generalizing list with
  | zero =>
      have hpending : list.pending = [] := by
        rw [work, Nat.le_zero, Nat.add_eq_zero_iff] at h
        exact List.length_eq_zero_iff.mp h.1
      exact ⟨_, loop_of_pending_nil hpending⟩
  | succ bound ih =>
      cases hpending : list.pending with
      | nil => exact ⟨_, loop_of_pending_nil hpending⟩
      | cons line lines =>
          rw [loop_succ_of_pending_cons hpending]
          cases hturn : turn read { list with pending := lines } line with
          | error fault => exact ⟨_, rfl⟩
          | ok next =>
              -- the turn has used up a line, and `work_turn` counts what it has added
              refine ih ?_
              rw [work_turn hothers hturn]
              simp only [work, hpending, List.length_cons] at h ⊢
              omega

/-! ## The loop is the pass -/

/-- The expansion of lines behind what has been done already. -/
def complete (list : Worklist) (expansion : Expansion) : Expansion :=
  ⟨list.opened.reverse ++ expansion.opened, expansion.result.map (list.kept ++ ·)⟩

theorem complete_start (lines : List Line) (expansion : Expansion) :
    (start lines).complete expansion = expansion := by
  obtain ⟨opened, result⟩ := expansion
  cases result <;> rfl

theorem complete_turn {files : Files} (h : turn files.read list line = .ok next) :
    list.complete (expandFrom files list.opened (line :: list.pending))
      = next.complete (expandFrom files next.opened next.pending) := by
  obtain ⟨hnone, rfl⟩ | ⟨path, hpath, hempty, ⟨hopened, rfl⟩ | ⟨hnew, text, hread, rfl⟩⟩ :=
    turn_eq_ok_iff.mp h
  · rw [expandFrom_of_path?_eq_none hnone]
    simp only [complete, Expansion.keep]
    cases (expandFrom files list.opened list.pending).result with
    | error fault => rfl
    | ok rest => simp [Except.map]
  · rw [expandFrom_of_path?_eq_some hpath, if_neg hempty, if_pos hopened]
  · rw [expandFrom_of_path?_eq_some hpath, if_neg hempty, if_neg hnew, hread]
    simp [complete, Expansion.opening]

theorem complete_turn_error {files : Files} (h : turn files.read list line = .error fault) :
    list.complete (expandFrom files list.opened (line :: list.pending))
      = ⟨list.opened.reverse, .error fault⟩ := by
  have hfail : ∀ cause, list.complete (.fail line cause)
      = ⟨list.opened.reverse, .error (.inLine line cause)⟩ := fun cause => by
    simp [complete, Expansion.fail, Except.map]
  unfold turn at h
  cases hpath : path? line with
  | none => rw [hpath] at h; cases h
  | some path =>
      rw [hpath] at h
      dsimp only at h
      rw [expandFrom_of_path?_eq_some hpath]
      split_ifs at h ⊢ with hempty hopened
      · obtain rfl := Except.error.inj h
        exact hfail _
      · cases hread : files.read path with
        | ok text => rw [hread] at h; cases h
        | error reason =>
            rw [hread] at h
            obtain rfl := Except.error.inj h
            exact hfail _

/-- Whatever the loop ends with is what the pass computes. -/
theorem eq_complete_of_loop {files : Files} (h : loop files.read bound list = some expansion) :
    expansion = list.complete (expandFrom files list.opened list.pending) := by
  fun_induction loop files.read bound list with
  | case1 bound list hpending =>
      obtain rfl := Option.some.inj h
      simp [hpending, complete, expandFrom, Except.map]
  | case2 => cases h
  | case3 list line lines hpending bound fault hturn =>
      obtain rfl := Option.some.inj h
      rw [hpending]
      exact (complete_turn_error hturn).symm
  | case4 list line lines hpending bound next hturn ih =>
      rw [hpending]
      exact (ih h).trans (complete_turn hturn).symm

/-! ## What the loop has done -/

/-- The paths that were read are different, each of them could be read, and what was kept is no
directive. -/
structure Sound (read : Reader) (list : Worklist) : Prop where
  nodup : list.opened.Nodup
  read : ∀ path ∈ list.opened, ∃ text, read path = .ok text
  kept : ∀ line ∈ list.kept, path? line = none

theorem sound_start (read : Reader) (lines : List Line) : Sound read (start lines) where
  nodup := List.nodup_nil
  read := List.forall_mem_nil _
  kept := List.forall_mem_nil _

theorem Sound.turn (h : Sound read list) (hturn : turn read list line = .ok next) :
    Sound read next := by
  obtain ⟨hnone, rfl⟩ | ⟨path, -, -, ⟨-, rfl⟩ | ⟨hnew, text, hread, rfl⟩⟩ :=
    turn_eq_ok_iff.mp hturn
  · refine ⟨h.nodup, h.read, List.forall_mem_append.mpr ⟨h.kept, ?_⟩⟩
    exact List.forall_mem_singleton.mpr hnone
  · exact h
  · exact ⟨List.nodup_cons.mpr ⟨hnew, h.nodup⟩, List.forall_mem_cons.mpr ⟨⟨text, hread⟩, h.read⟩,
      h.kept⟩

/-- **No path is read twice**, and no directive is left in a result. -/
theorem Sound.loop (h : Sound read list) (hloop : loop read bound list = some expansion) :
    expansion.opened.Nodup ∧ (∀ path ∈ expansion.opened, ∃ text, read path = .ok text) ∧
      ∀ lines, expansion.result = .ok lines → ∀ line ∈ lines, path? line = none := by
  fun_induction Worklist.loop read bound list with
  | case1 bound list hpending =>
      obtain rfl := Option.some.inj hloop
      refine ⟨List.nodup_reverse.mpr h.nodup, by simpa using h.read, fun lines hlines => ?_⟩
      obtain rfl := Except.ok.inj hlines
      exact h.kept
  | case2 => cases hloop
  | case3 list line lines hpending bound fault hturn =>
      obtain rfl := Option.some.inj hloop
      refine ⟨List.nodup_reverse.mpr h.nodup, by simpa using h.read, fun lines hlines => ?_⟩
      cases hlines
  | case4 list line lines hpending bound next hturn ih =>
      have hrest : Sound read { list with pending := lines } := ⟨h.nodup, h.read, h.kept⟩
      exact ih (hrest.turn hturn) hloop

/-- Lines without directives are kept, one in a turn, and nothing is read for them. -/
theorem loop_of_no_directive (read : Reader) (list : Worklist)
    (h : ∀ line ∈ list.pending, path? line = none) :
    loop read list.pending.length list
      = some ⟨list.opened.reverse, .ok (list.kept ++ list.pending)⟩ := by
  obtain ⟨kept, pending, opened⟩ := list
  induction pending generalizing kept with
  | nil => rw [loop_of_pending_nil rfl, List.append_nil]
  | cons line lines ih =>
      obtain ⟨hline, hlines⟩ := List.forall_mem_cons.mp h
      have hturn : turn read ⟨kept, lines, opened⟩ line = .ok ⟨kept ++ [line], lines, opened⟩ :=
        turn_eq_ok_iff.mpr (.inl ⟨hline, rfl⟩)
      rw [List.length_cons, loop_succ_of_pending_cons rfl, hturn]
      exact (ih (kept ++ [line]) hlines).trans (by simp)

end Worklist

open Worklist in
/-- **Expansion ends, reads no path twice and leaves no directive.** Let `readable` be the paths
that can be read; a file may import any of them, itself included. For all lines the loop ends after
at most as many turns as there are lines in the program and in these files together, and what it
ends with is what the pass computes. The paths that it has read are different. If it succeeds, then
no line of the result is a directive, and expanding the result again reads nothing and returns it
unchanged, wherever files come from then. -/
theorem expansion_ends_reading_once {read : Reader} {readable : Finset String}
    (hothers : ∀ path ∉ readable, ∃ reason, read path = .error reason) (lines : List Line) :
    ∃ expansion : Expansion,
      loop read (lines.length + ∑ path ∈ readable, (read.linesAt path).length) (start lines)
        = some expansion ∧
      (∀ files : Files, files.read = read → expandFrom files [] lines = expansion) ∧
      expansion.opened.Nodup ∧ (∀ path ∈ expansion.opened, ∃ text, read path = .ok text) ∧
      ∀ result, expansion.result = .ok result →
        (∀ line ∈ result, path? line = none) ∧
        (∀ other : Reader, loop other result.length (start result) = some ⟨[], .ok result⟩) ∧
        ∀ files : Files, expandFrom files [] result = ⟨[], .ok result⟩ := by
  have hpass : ∀ {files : Files} {bound : Nat} {lines : List Line} {found : Expansion},
      loop files.read bound (start lines) = some found → expandFrom files [] lines = found :=
    fun h => ((eq_complete_of_loop h).trans (complete_start _ _)).symm
  have hwork : work read readable (start lines)
      = lines.length + ∑ path ∈ readable, (read.linesAt path).length := by
    simp [work, start]
  obtain ⟨expansion, hloop⟩ := exists_loop hothers hwork.le
  obtain ⟨hnodup, hread, hresult⟩ := (sound_start read lines).loop hloop
  refine ⟨expansion, hloop, ?_, hnodup, hread, fun result hok => ⟨hresult result hok, ?_⟩⟩
  · rintro files rfl
    exact hpass hloop
  · have hagain : ∀ other : Reader,
        loop other result.length (start result) = some ⟨[], .ok result⟩ := fun other =>
      loop_of_no_directive other (start result) (hresult result hok)
    exact ⟨hagain, fun files => hpass (hagain files.read)⟩

namespace Worklist.Sample

/-- A file that imports itself and another one, which imports it in turn, and a file that both of
them import. -/
def files : Files where
  entries := [("a", .ok "#import a\n#import b\n#import c\nHALT"),
    ("b", .ok "#import <c>\n#import a"), ("c", .ok "MOV [0] 1")]

def lines : List Line := Line.ofText "main" "#import b\nDPRINT [0]\n#import c"

end Worklist.Sample

open Worklist Worklist.Sample in
theorem expansion_ends_reading_once_sample :
    ∃ expansion, loop files.read 10 (start lines) = some expansion ∧
      expandFrom files [] lines = expansion ∧ expansion.opened = ["b", "c", "a"] ∧
      expansion.opened.Nodup ∧ ∃ result, expansion.result = .ok result ∧
        result.map Line.contents = ["MOV [0] 1", "HALT", "DPRINT [0]"] ∧
        ∀ other : Files, expandFrom other [] result = ⟨[], .ok result⟩ := by
  have hothers : ∀ path ∉ files.paths, ∃ reason, files.read path = .error reason := by
    intro path hpath
    cases hread : files.read path with
    | error reason => exact ⟨reason, rfl⟩
    | ok text => exact absurd (Files.mem_paths_of_read hread) hpath
  obtain ⟨expansion, hloop, hpass, hnodup, -, hresult⟩ :=
    expansion_ends_reading_once hothers lines
  have hturns : lines.length + ∑ path ∈ files.paths, (Reader.linesAt files.read path).length
      = 10 := by
    decide +kernel
  rw [hturns] at hloop
  have hopened : (loop files.read 10 (start lines)).map Expansion.opened
      = some ["b", "c", "a"] := by
    decide +kernel
  have hcontents : (loop files.read 10 (start lines)).map
      (fun found => found.result.toOption.map (·.map Line.contents))
        = some (some ["MOV [0] 1", "HALT", "DPRINT [0]"]) := by
    decide +kernel
  rw [hloop] at hopened hcontents
  have hlines : expansion.result.toOption.map (·.map Line.contents)
      = some ["MOV [0] 1", "HALT", "DPRINT [0]"] := Option.some.inj hcontents
  refine ⟨expansion, hloop, hpass files rfl, Option.some.inj hopened, hnodup, ?_⟩
  cases hok : expansion.result with
  | error fault => rw [hok] at hlines; cases hlines
  | ok result =>
      rw [hok] at hlines
      exact ⟨result, rfl, Option.some.inj hlines, (hresult result hok).2.2⟩

end CellAsm.Import
