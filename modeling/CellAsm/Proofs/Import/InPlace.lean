import CellAsm.Proofs.Pass.Import
import CellAsm.Proofs.Success
import Mathlib.Data.Finset.Card
import Mathlib.Data.Finset.SDiff

set_option autoImplicit false

/-! # Imports are expanded in place

The pass works on one list of pending lines and puts the lines of an imported file in front of it.
What it computes is a depth-first expansion: each directive is replaced by the expansion of its
file before the lines behind it are looked at, and the set of expanded paths is carried along
(`inPlace`). The two agree on every list of lines, results and faults alike
(`expand_eq_inPlace`).
-/

namespace CellAsm

/-- The paths that have an entry. -/
def Files.paths (files : Files) : Finset String := (files.entries.map Prod.fst).toFinset

theorem Files.mem_paths_of_read {files : Files} {path text : String}
    (h : files.read path = .ok text) : path ∈ files.paths := by
  obtain ⟨entry, hentry, rfl⟩ := exists_mem_of_read h
  exact List.mem_toFinset.mpr (List.mem_map_of_mem hentry)

/-- Only finitely many paths can be expanded, so there is one less after each of them. -/
theorem Files.card_sdiff_insert_lt {files : Files} {path text : String} {seen : Finset String}
    (hread : files.read path = .ok text) (hseen : path ∉ seen) :
    (files.paths \ insert path seen).card < (files.paths \ seen).card := by
  apply Finset.card_lt_card
  rw [Finset.ssubset_iff_of_subset
    (Finset.sdiff_subset_sdiff subset_rfl (Finset.subset_insert _ _))]
  refine ⟨path, Finset.mem_sdiff.mpr ⟨mem_paths_of_read hread, hseen⟩, ?_⟩
  simp

namespace Import

/-! ## Expansion in place -/

/-- What lines expand to when the paths `seen` have been expanded before them. -/
structure InPlace (seen : Finset String) where
  /-- The paths that have been expanded after the lines. -/
  expanded : Finset String
  /-- The lines without directives. -/
  lines : List Line
  subset : seen ⊆ expanded

namespace InPlace

variable {seen : Finset String} {path : String}

/-- A line that is kept, in front of what the lines behind it expand to. -/
def keep (line : Line) (rest : InPlace seen) : InPlace seen :=
  { rest with lines := line :: rest.lines }

/-- What the lines of a file expand to, in front of what the lines behind the directive do. -/
def splice (own : InPlace (insert path seen)) (rest : InPlace own.expanded) : InPlace seen where
  expanded := rest.expanded
  lines := own.lines ++ rest.lines
  subset := (Finset.subset_insert path seen).trans (own.subset.trans rest.subset)

end InPlace

/-- The lines with every directive replaced, one line after the other. A directive of a path that
has been expanded vanishes. One of any other path is replaced by the expansion of the lines of its
file, and the lines behind it are expanded when that is done. -/
def inPlace (files : Files) (seen : Finset String) : List Line → Except Fault (InPlace seen)
  | [] => .ok ⟨seen, [], subset_rfl⟩
  | line :: lines =>
    match path? line with
    | none => (inPlace files seen lines).map (.keep line)
    | some path =>
      if path = "" then .error (.inLine line .missingPath)
      else if _hseen : path ∈ seen then inPlace files seen lines
      else
        match _hread : files.read path with
        | .error fault => .error (.inLine line (fault.cause path))
        | .ok text => do
          let own ← inPlace files (insert path seen) (Line.ofText path text)
          let rest ← inPlace files own.expanded lines
          return own.splice rest
termination_by lines => ((files.paths \ seen).card, lines.length)
decreasing_by
  · exact Prod.Lex.right _ (by simp)
  · exact Prod.Lex.right _ (by simp)
  · exact Prod.Lex.left _ _ (Files.card_sdiff_insert_lt _hread _hseen)
  · refine Prod.Lex.left _ _ (lt_of_le_of_lt ?_ (Files.card_sdiff_insert_lt _hread _hseen))
    exact Finset.card_le_card (Finset.sdiff_subset_sdiff subset_rfl own.subset)

/-- A fault of a directive, in the line of the directive: it has no path, its file does not exist or
its file cannot be read. -/
def IsDirectiveFault (files : Files) (fault : Fault) : Prop :=
  ∃ line path, path? line = some path ∧ fault.line = some line ∧
    (path = "" ∧ fault.code = .syntaxError ∨
      files.read path = .error .notFound ∧ fault.code = .fileNotFound ∨
      ∃ message, files.read path = .error (.failed message) ∧ fault.code = .ioError)

theorem isDirectiveFault_of_read {files : Files} {line : Line} {path : String} {reason : ReadFault}
    (h : path? line = some path) (hread : files.read path = .error reason) :
    IsDirectiveFault files (.inLine line (reason.cause path)) := by
  refine ⟨line, path, h, rfl, .inr ?_⟩
  cases reason with
  | notFound => exact .inl ⟨hread, rfl⟩
  | failed message => exact .inr ⟨message, hread, rfl⟩

theorem isDirectiveFault_of_inPlace {files : Files} {seen : Finset String} {lines : List Line}
    {fault : Fault} (h : inPlace files seen lines = .error fault) :
    IsDirectiveFault files fault := by
  -- a fault is that of a directive, or it was found in a file that is read or behind it
  fun_induction inPlace files seen lines with
  | case1 seen => cases h
  | case2 seen line lines hpath ih =>
      cases hrest : inPlace files seen lines with
      | error fault' =>
          rw [hrest] at h ih
          obtain rfl := Except.error.inj h
          exact ih rfl
      | ok rest =>
          rw [hrest] at h
          cases h
  | case3 seen line lines hpath =>
      obtain rfl := Except.error.inj h
      exact ⟨line, "", hpath, rfl, .inl ⟨rfl, rfl⟩⟩
  | case4 seen line lines path hpath hne hseen ih => exact ih h
  | case5 seen line lines path hpath hne hseen reason hread =>
      obtain rfl := Except.error.inj h
      exact isDirectiveFault_of_read hpath hread
  | case6 seen line lines path hpath hne hseen text hread ihOwn ihRest =>
      cases hown : inPlace files (insert path seen) (Line.ofText path text) with
      | error fault' =>
          rw [hown] at h ihOwn
          obtain rfl := Except.error.inj h
          exact ihOwn rfl
      | ok own =>
          rw [hown] at h
          change (inPlace files own.expanded lines >>= _) = _ at h
          cases hrest : inPlace files own.expanded lines with
          | error fault' =>
              rw [hrest] at h
              obtain rfl := Except.error.inj h
              exact ihRest own hrest
          | ok rest =>
              rw [hrest] at h
              cases h

/-! ## The worklist expands in place -/

/-- The worklist does with lines in front of others what their expansion in place says: it ends
with the fault, or goes on behind the lines, where the same paths have been expanded. -/
def Agrees (files : Files) (opened : List String) (lines : List Line) {seen : Finset String} :
    Except Fault (InPlace seen) → Prop
  | .error fault => ∀ pending, (expandFrom files opened (lines ++ pending)).result = .error fault
  | .ok own => ∃ later : List String, later.toFinset = own.expanded ∧ ∀ pending,
      (expandFrom files opened (lines ++ pending)).result
        = (expandFrom files later pending).result.map (own.lines ++ ·)

namespace Agrees

variable {files : Files} {opened : List String} {lines own : List Line} {line : Line}
  {seen : Finset String} {path : String}

theorem nil : Agrees files opened [] (.ok ⟨opened.toFinset, [], subset_rfl⟩) := by
  refine ⟨opened, rfl, fun pending => ?_⟩
  rw [List.nil_append]
  cases (expandFrom files opened pending).result with
  | error fault => rfl
  | ok kept => rfl

theorem keep {outcome : Except Fault (InPlace seen)} (h : Agrees files opened lines outcome)
    (hstep : ∀ pending, (expandFrom files opened (line :: lines ++ pending)).result
      = (expandFrom files opened (lines ++ pending)).result.map (line :: ·)) :
    Agrees files opened (line :: lines) (outcome.map (.keep line)) := by
  cases outcome with
  | error fault =>
      intro pending
      rw [hstep, h pending]
      rfl
  | ok rest =>
      obtain ⟨later, hlater, hrest⟩ := h
      refine ⟨later, hlater, fun pending => ?_⟩
      rw [hstep, hrest]
      cases (expandFrom files later pending).result with
      | error fault => rfl
      | ok kept => rfl

theorem skip {outcome : Except Fault (InPlace seen)} (h : Agrees files opened lines outcome)
    (hstep : ∀ pending, (expandFrom files opened (line :: lines ++ pending)).result
      = (expandFrom files opened (lines ++ pending)).result) :
    Agrees files opened (line :: lines) outcome := by
  unfold Agrees at h ⊢
  simpa only [hstep] using h

/-- The lines of a file are expanded to their end before the lines behind the directive. -/
theorem splice {outcome : Except Fault (InPlace (insert path seen))}
    {next : (own : InPlace (insert path seen)) → Except Fault (InPlace own.expanded)}
    (hown : Agrees files (path :: opened) own outcome)
    (hnext : ∀ (found : InPlace (insert path seen)) (later : List String),
      later.toFinset = found.expanded → Agrees files later lines (next found))
    (hstep : ∀ pending, (expandFrom files opened (line :: lines ++ pending)).result
      = (expandFrom files (path :: opened) (own ++ (lines ++ pending))).result) :
    Agrees files opened (line :: lines) (do
      let own ← outcome
      let rest ← next own
      return own.splice rest) := by
  -- the first fault wins: that of the file, then that of the lines behind the directive
  cases outcome with
  | error fault =>
      intro pending
      rw [hstep, hown]
  | ok found =>
      obtain ⟨between, hbetween, hown⟩ := hown
      have hlines := hnext found between hbetween
      show Agrees files opened (line :: lines) (next found >>= _)
      cases hrest : next found with
      | error fault =>
          rw [hrest] at hlines
          intro pending
          rw [hstep, hown, hlines]
          rfl
      | ok rest =>
          rw [hrest] at hlines
          obtain ⟨later, hlater, hlines⟩ := hlines
          refine ⟨later, hlater, fun pending => ?_⟩
          rw [hstep, hown, hlines]
          cases (expandFrom files later pending).result with
          | error fault => rfl
          | ok kept => exact congrArg Except.ok (List.append_assoc ..).symm

end Agrees

/-- **The worklist expands lines in place**, whatever lines are pending behind them. -/
theorem agrees_inPlace {files : Files} {opened : List String} {seen : Finset String}
    (hopened : opened.toFinset = seen) (lines : List Line) :
    Agrees files opened lines (inPlace files seen lines) := by
  -- one turn of the worklist for each case of the recursion, with the same lines pending
  fun_induction inPlace files seen lines generalizing opened with
  | case1 seen =>
      subst hopened
      exact .nil
  | case2 seen line lines hpath ih =>
      refine (ih hopened).keep fun pending => ?_
      rw [List.cons_append, expandFrom_of_path?_eq_none hpath]
      rfl
  | case3 seen line lines hpath =>
      intro pending
      rw [List.cons_append, expandFrom_of_path?_eq_some hpath, if_pos rfl]
      rfl
  | case4 seen line lines path hpath hne hseen ih =>
      have hmem : path ∈ opened := by rwa [← List.mem_toFinset, hopened]
      refine (ih hopened).skip fun pending => ?_
      rw [List.cons_append, expandFrom_of_path?_eq_some hpath, if_neg hne, if_pos hmem]
  | case5 seen line lines path hpath hne hseen fault hread =>
      have hmem : path ∉ opened := by rwa [← List.mem_toFinset, hopened]
      intro pending
      rw [List.cons_append, expandFrom_of_path?_eq_some hpath, if_neg hne, if_neg hmem, hread]
      rfl
  | case6 seen line lines path hpath hne hseen text hread ihOwn ihRest =>
      have hmem : path ∉ opened := by rwa [← List.mem_toFinset, hopened]
      have hown : (path :: opened).toFinset = insert path seen := by
        rw [List.toFinset_cons, hopened]
      refine (ihOwn hown).splice (fun own later hlater => ihRest own hlater) fun pending => ?_
      rw [List.cons_append, expandFrom_of_path?_eq_some hpath, if_neg hne, if_neg hmem, hread]
      rfl

/-- **Imports are a depth-first expansion in place.** For all lines and all files the pass returns
the lines that they expand to in place when nothing has been expanded before, or the fault that
this expansion meets first. Such a fault has the line of its own directive, and its code tells a
missing path, a missing file and a file that cannot be read apart. -/
theorem expand_eq_inPlace (files : Files) (lines : List Line) :
    expand files lines = (inPlace files ∅ lines).map InPlace.lines ∧
      ∀ fault, expand files lines = .error fault → IsDirectiveFault files fault := by
  have hagrees : Agrees files [] lines (inPlace files ∅ lines) := agrees_inPlace rfl lines
  rw [expand]
  cases houtcome : inPlace files ∅ lines with
  | error fault =>
      rw [houtcome] at hagrees
      have hresult := hagrees []
      rw [List.append_nil] at hresult
      rw [hresult]
      refine ⟨rfl, fun fault' hfault => ?_⟩
      obtain rfl := Except.error.inj hfault
      exact isDirectiveFault_of_inPlace houtcome
  | ok own =>
      rw [houtcome] at hagrees
      obtain ⟨later, -, hresult⟩ := hagrees
      have hlines : (expandFrom files [] lines).result = .ok own.lines := by
        -- nothing is pending behind the whole program
        have hend := hresult []
        rw [List.append_nil, expandFrom] at hend
        rw [hend]
        exact congrArg Except.ok (List.append_nil _)
      rw [hlines]
      exact ⟨rfl, fun fault hfault => by cases hfault⟩

end Import

end CellAsm
