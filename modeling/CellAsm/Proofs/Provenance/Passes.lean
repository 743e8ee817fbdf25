import CellAsm.Assembler
import CellAsm.Proofs.Pass.ConstantLine
import CellAsm.Proofs.Pass.Import
import CellAsm.Proofs.Provenance.Origin
import CellAsm.Proofs.Subroutine.Cells

set_option autoImplicit false

/-! # What each pass keeps and what it blames

For every pass there are two facts: the lines that it leaves come from the lines that it is given,
and a fault of it has one of these lines. Imports and subroutines bring lines of their own. Those of
an import are the lines of a file that the pass has opened (`Import.forall_of_expandFrom`). Those in
front of a program with subroutines leave nothing behind once their constants are replaced
(`Subroutine.exists_table_of_front`).
-/

namespace CellAsm

/-! ## Imports and comments -/

namespace Import

/-- What holds of the pending lines and of the lines of every file that is opened holds of the lines
that are left, and of the line of a fault. -/
theorem forall_of_expandFrom {files : Files} {opened : List String} {pending : List Line}
    {P : Line → Prop} (hpending : ∀ line ∈ pending, P line)
    (hopened : ∀ path ∈ (expandFrom files opened pending).opened, ∀ text,
      files.read path = .ok text → ∀ line ∈ Line.ofText path text, P line) :
    (∀ lines, (expandFrom files opened pending).result = .ok lines → ∀ line ∈ lines, P line) ∧
      Blames P (expandFrom files opened pending).result := by
  fun_induction expandFrom files opened pending with
  | case1 opened =>
      refine ⟨fun lines h => ?_, .ok []⟩
      obtain rfl := Except.ok.inj h
      simp
  | case2 opened line pending hpath ih =>
      obtain ⟨hline, hpending⟩ := List.forall_mem_cons.mp hpending
      obtain ⟨hkept, hblames⟩ := ih hpending hopened
      refine ⟨fun lines h => ?_, hblames.map _⟩
      obtain ⟨rest, hrest, rfl⟩ := Success.map_iff.mp h
      exact List.forall_mem_cons.mpr ⟨hline, hkept rest hrest⟩
  | case3 opened line pending hpath =>
      exact ⟨fun lines h => (by cases h), .inLine (hpending line List.mem_cons_self) _⟩
  | case4 opened line pending path hpath hne hmem ih =>
      exact ih (List.forall_mem_cons.mp hpending).2 hopened
  | case5 opened line pending path hpath hne hmem reason hread =>
      exact ⟨fun lines h => (by cases h), .inLine (hpending line List.mem_cons_self) _⟩
  | case6 opened line pending path hpath hne hmem text hread ih =>
      -- the lines of the file are pending now, and it is among the files that are opened
      have hfile : ∀ line ∈ Line.ofText path text, P line :=
        hopened path List.mem_cons_self text hread
      refine ih (List.forall_mem_append.mpr ⟨hfile, (List.forall_mem_cons.mp hpending).2⟩) ?_
      exact fun other hother => hopened other (List.mem_cons_of_mem path hother)

end Import

namespace Comment

theorem origin_of_remaining? {line kept : Line} (h : remaining? line = some kept) :
    kept.origin = line.origin := by
  simp only [remaining?] at h
  split at h
  · cases h
  · rw [← Option.some.inj h, Line.origin_withContents]

theorem descends_remove (lines : List Line) : Descends (remove lines) lines := by
  induction lines with
  | nil => exact .nil
  | cons line lines ih =>
      unfold remove at ih ⊢
      cases hkept : remaining? line with
      | none =>
          rw [List.filterMap_cons_none hkept]
          exact .drop line ih
      | some kept =>
          rw [List.filterMap_cons_some hkept]
          exact .keep (origin_of_remaining? hkept) (.drop line ih)

end Comment

/-! ## Subroutines -/

namespace Subroutine

variable {table final : Table} {n m : Nat} {line : Line}
  {lines own expanded : List Line} {P : Line → Prop}

theorem origin_handOver (line : Line) (i : Nat) (arguments : List Token) :
    ∀ made ∈ handOver line i arguments, made.origin = line.origin := by
  induction arguments generalizing i with
  | nil => simp [handOver]
  | cons argument rest ih =>
      rw [handOver, List.forall_mem_cons]
      exact ⟨Line.origin_withContents line _, ih (i + 1)⟩

theorem origin_call (line : Line) (n : Nat) (name : Token) (arguments : List Token) :
    ∀ made ∈ call line n name arguments, made.origin = line.origin := by
  rw [call, List.forall_mem_append]
  refine ⟨origin_handOver line 0 arguments, ?_⟩
  simp [Line.origin_withContents]

/-- All lines that a marker stands for are made of its line. -/
theorem ExpandsLine.origin (h : ExpandsLine table n line own m) :
    ∀ made ∈ own, made.origin = line.origin := by
  cases h with
  | plain hmarker => simp
  | call hmarker hcall =>
      obtain ⟨name, arguments, d, -, -, -, -, rfl⟩ := callLines_eq_ok hcall
      exact origin_call line n name arguments
  | start hmarker hdeclaration => simp [opening, Line.origin_withContents]
  | finish hmarker => simp [closing, Line.origin_withContents]

theorem Expands.descends (h : Expands table n lines m expanded) : Descends expanded lines := by
  induction h with
  | nil n => exact .nil
  | cons hline _ ih => exact .cons_of_forall hline.origin ih

theorem blames_declare (table : Table) (hlines : ∀ line ∈ lines, P line) :
    Blames P (declare table lines) := by
  induction lines generalizing table with
  | nil => exact .ok table
  | cons line lines ih =>
      obtain ⟨hline, hlines⟩ := List.forall_mem_cons.mp hlines
      rw [declare]
      split
      · refine .bind (.check hline _) fun d _ => ?_
        split
        · exact .inLine hline _
        · exact ih (d :: table) hlines
      · exact ih table hlines

theorem blames_expandMarkers (table : Table) (n : Nat) {isOpen : Option Line}
    (hopen : ∀ line, isOpen = some line → P line)
    (hlines : ∀ line ∈ lines, P line) :
    Blames P (expandMarkers table n isOpen lines) := by
  induction lines generalizing n isOpen with
  | nil =>
      cases isOpen with
      | none => exact .ok []
      | some line => exact .inLine (hopen line rfl) _
  | cons line lines ih =>
      obtain ⟨hline, hlines⟩ := List.forall_mem_cons.mp hlines
      -- a body that is never ended is blamed on the line that began it
      have hstarted : ∀ opened, some line = some opened → P opened := by
        rintro opened ⟨⟩
        exact hline
      rw [expandMarkers]
      cases Marker.of? line with
      | none => exact .bind (ih n hopen hlines) fun rest _ => .ok _
      | some marker =>
          cases marker with
          | call =>
              refine .bind (.check hline _) fun own _ => ?_
              exact .bind (ih (n + 1) hopen hlines) fun rest _ => .ok _
          | start =>
              dsimp only
              split
              · exact .inLine hline _
              · refine .bind (.check hline _) fun d _ => ?_
                exact .bind (ih n hstarted hlines) fun rest _ => .ok _
          | finish =>
              dsimp only
              split
              · exact .inLine hline _
              · exact .bind (ih n (by simp) hlines) fun rest _ => .ok _

theorem blames_checkUnused (hlines : ∀ line ∈ lines, P line) : Blames P (checkUnused lines) := by
  unfold checkUnused
  split
  · next line hline => exact .inLine (hlines line (List.mem_of_find?_eq_some hline)) _
  · split
    · next line hline => exact .inLine (hlines line (List.mem_of_find?_eq_some hline)) _
    · exact .ok lines

theorem blames_expand (hlines : ∀ line ∈ lines, P line) : Blames P (expand lines) := by
  refine .bind (blames_declare [] hlines) fun table _ => ?_
  split
  · exact blames_checkUnused hlines
  · refine .bind (blames_expandMarkers table 0 (by simp) hlines) fun body _ => ?_
    exact .ok _

/-- The lines that come in front of a program. -/
def front (lines : List Line) : List Line :=
  match declare [] lines with
  | .ok [] => []
  | .ok table => preamble table.maxArity
  | .error _ => []

/-- Behind the lines in front of a program there are only lines that come from its own. -/
theorem exists_body_of_expand (h : expand lines = .ok expanded) :
    ∃ body, expanded = front lines ++ body ∧ Descends body lines := by
  obtain ⟨table, htable, ⟨rfl, hunused⟩ | ⟨hne, calls, body, hbody, rfl⟩⟩ := expand_eq_ok h
  · obtain rfl := checkUnused_eq_ok hunused
    exact ⟨expanded, by rw [front, htable, List.nil_append], .refl expanded⟩
  · refine ⟨body, ?_, hbody.descends⟩
    rw [front, htable]
    cases table with
    | nil => exact absurd rfl hne
    | cons d table => rfl

end Subroutine

/-! ## Constants -/

namespace Constant

variable {policy : Policy} {cells : Nat} {table next : Table} {line : Line}
  {lines own kept : List Line} {P : Line → Prop}

theorem own_of_advance (h : (advance policy cells table line).result = .ok (next, own)) :
    (∀ made ∈ own, made.origin = line.origin) ∧ ((definedName? line).isSome = true → own = []) := by
  rw [definedName?]
  cases hstatement : Statement.ofTokens line.tokens with
  | unfinished => rw [advance_of_unfinished hstatement] at h; cases h
  | overlong extra => rw [advance_of_overlong hstatement] at h; cases h
  | definition name value =>
      rw [advance_of_definition hstatement] at h
      obtain ⟨found, -, h⟩ := Success.andThen_iff.mp h
      obtain ⟨rfl, rfl⟩ := Prod.mk.inj (Except.ok.inj h)
      simp
  | code tokens =>
      rw [advance_of_code hstatement] at h
      obtain ⟨resolved, -, h⟩ := Success.andThen_iff.mp h
      obtain ⟨rfl, rfl⟩ := Prod.mk.inj (Except.ok.inj h)
      simp [Line.origin_withContents]

theorem replaceFrom_cons_eq_ok
    (h : (replaceFrom policy cells table (line :: lines)).result = .ok kept) :
    ∃ next own rest, (advance policy cells table line).result = .ok (next, own) ∧
      (replaceFrom (policy.after (advance policy cells table line).warnings) cells next
        lines).result = .ok rest ∧
      kept = own ++ rest := by
  rw [replaceFrom_cons] at h
  obtain ⟨⟨next, own⟩, hline, h⟩ := Success.andThen_iff.mp h
  obtain ⟨rest, hrest, h⟩ := Success.andThen_iff.mp h
  exact ⟨next, own, rest, hline, hrest, (Except.ok.inj h).symm⟩

theorem descends_of_replaceFrom (h : (replaceFrom policy cells table lines).result = .ok kept) :
    Descends kept lines := by
  induction lines generalizing policy table kept with
  | nil =>
      obtain rfl := Except.ok.inj h
      exact .nil
  | cons line lines ih =>
      obtain ⟨next, own, rest, hline, hrest, rfl⟩ := replaceFrom_cons_eq_ok h
      exact .cons_of_forall (own_of_advance hline).1 (ih hrest)

/-- Definitions of different names in front of a program leave a table and nothing else, and they
are worth no warning. -/
theorem exists_table_of_definitions {front : List Line} {names : List Token}
    (hfront : front.map definedName? = names.map some) (hnames : names.Nodup)
    (hfresh : ∀ name ∈ names, table.isDefined name = false)
    (h : (replaceFrom policy cells table (front ++ lines)).result = .ok kept) :
    ∃ next, (replaceFrom policy cells next lines).result = .ok kept := by
  induction front generalizing table names kept with
  | nil => exact ⟨table, h⟩
  | cons line front ih =>
      obtain ⟨name, names, rfl, hline, hfront⟩ := List.map_eq_cons_iff.mp hfront.symm
      obtain ⟨hnotMem, hnames⟩ := List.nodup_cons.mp hnames
      obtain ⟨hname, hfresh⟩ := List.forall_mem_cons.mp hfresh
      obtain ⟨next, own, rest, hadvance, hrest, rfl⟩ := replaceFrom_cons_eq_ok h
      rw [warnings_advance_of_fresh hline.symm hname, Policy.after_nil] at hrest
      rw [(own_of_advance hadvance).2 (by rw [← hline]; rfl)]
      refine ih hfront.symm hnames (fun other hother => ?_) hrest
      -- the line has defined its own name, which is none of the others
      rw [Bool.eq_false_iff, ne_eq, isDefined_of_advance hadvance, ← hline, Option.some.injEq]
      rintro (hdefined | rfl)
      · rw [hfresh other hother] at hdefined; cases hdefined
      · exact hnotMem hother

theorem blames_advance (hline : P line) :
    Blames P (advance policy cells table line).result := by
  cases hstatement : Statement.ofTokens line.tokens with
  | unfinished => rw [advance_of_unfinished hstatement]; exact .inLine hline _
  | overlong extra => rw [advance_of_overlong hstatement]; exact .inLine hline _
  | code tokens =>
      rw [advance_of_code hstatement]
      exact .andThen (.check hline _) fun resolved _ => .ok _
  | definition name value =>
      rw [advance_of_definition hstatement]
      refine .andThen ?_ fun next _ => .ok _
      unfold process
      split
      · exact .inLine hline _
      · split
        · refine .andThen ?_ fun _ _ => .check hline _
          unfold Report.warn
          split
          · exact .inLine hline _
          · exact .ok ()
        · exact .check hline _

theorem blames_replaceFrom (hlines : ∀ line ∈ lines, P line) :
    Blames P (replaceFrom policy cells table lines).result := by
  induction lines generalizing policy table with
  | nil => exact .ok []
  | cons line lines ih =>
      obtain ⟨hline, hlines⟩ := List.forall_mem_cons.mp hlines
      rw [replaceFrom_cons]
      refine .andThen (blames_advance hline) fun step _ => ?_
      exact .andThen (ih hlines) fun rest _ => .ok _

end Constant

theorem Constant.definedName?_typed {number : Nat} {file : String} {name : Token}
    (hname : name ≠ []) (hblank : ∀ c ∈ name, Text.isBlank c = false) :
    definedName? (.typed number file (allocationText name)) = some name := by
  rw [definedName?, Line.tokens, Line.typed, String.toList_ofList, scan_allocationText hblank]
  exact if_neg hname

theorem Constant.map_definedName?_allocations {first : Nat} {file : String} {names : List Token}
    (hnames : ∀ name ∈ names, name ≠ [] ∧ ∀ c ∈ name, Text.isBlank c = false) :
    (Line.numberedFrom first file (names.map allocationText)).map definedName?
      = names.map some := by
  induction names generalizing first with
  | nil => rfl
  | cons name names ih =>
      obtain ⟨⟨hname, hblank⟩, hnames⟩ := List.forall_mem_cons.mp hnames
      rw [List.map_cons, Line.numberedFrom, List.map_cons, definedName?_typed hname hblank,
        ih hnames, List.map_cons]

namespace Subroutine

/-- **The lines in front of a program leave nothing behind**: what is left of the program is what is
left of the lines behind them, where some constants are known. -/
theorem exists_table_of_front {policy : Policy} {cells : Nat} {lines body kept : List Line}
    (h : (Constant.replace policy cells (front lines ++ body)).result = .ok kept) :
    ∃ table, (Constant.replaceFrom policy cells table body).result = .ok kept := by
  unfold front at h
  split at h
  · exact ⟨{}, h⟩
  · next table _ _ =>
    have hdefined : (preamble table.maxArity).map Constant.definedName?
        = (sharedNames table.maxArity).map some := by
      rw [preamble_eq]
      exact Constant.map_definedName?_allocations fun name hname =>
        ⟨ne_nil_of_mem_sharedNames name hname, isBlank_of_mem_sharedNames name hname⟩
    exact Constant.exists_table_of_definitions hdefined (nodup_sharedNames _) (fun _ _ => rfl) h
  · exact ⟨{}, h⟩

end Subroutine

/-! ## Labels and characters -/

namespace Label.Table

variable {table : Table} {lines kept : List Line} {P : Line → Prop}

theorem descends_of_replaceLines (h : table.replaceLines lines = .ok kept) :
    Descends kept lines := by
  induction lines generalizing kept with
  | nil =>
      obtain rfl := Except.ok.inj h
      exact .nil
  | cons line lines ih =>
      obtain ⟨tokens, -, h⟩ := Success.bind_iff.mp h
      obtain ⟨rest, hrest, h⟩ := Success.bind_iff.mp h
      obtain rfl := Success.pure_iff.mp h
      split
      · exact .drop line (ih hrest)
      · exact .keep rfl (.drop line (ih hrest))

theorem blames_enterLines (hlines : ∀ line ∈ lines, P line) :
    Blames P (table.enterLines lines) := by
  induction lines generalizing table with
  | nil => exact .ok table
  | cons line lines ih =>
      obtain ⟨hline, hlines⟩ := List.forall_mem_cons.mp hlines
      exact .bind (.check hline _) fun next _ => ih hlines

theorem blames_replaceLines (hlines : ∀ line ∈ lines, P line) :
    Blames P (table.replaceLines lines) := by
  induction lines with
  | nil => exact .ok []
  | cons line lines ih =>
      obtain ⟨hline, hlines⟩ := List.forall_mem_cons.mp hlines
      refine .bind (.check hline _) fun tokens _ => ?_
      exact .bind (ih hlines) fun rest _ => .ok _

end Label.Table

namespace Label

theorem descends_of_replace {lines kept : List Line} (h : replace lines = .ok kept) :
    Descends kept lines := by
  obtain ⟨table, -, h⟩ := Success.bind_iff.mp h
  exact Table.descends_of_replaceLines h

theorem blames_replace {P : Line → Prop} {lines : List Line} (hlines : ∀ line ∈ lines, P line) :
    Blames P (replace lines) :=
  .bind (Table.blames_enterLines hlines) fun _ _ => Table.blames_replaceLines hlines

end Label

namespace Character

theorem descends_of_replace {lines coded : List Line} (h : replace lines = .ok coded) :
    Descends coded lines := by
  have hlines := Success.mapM_iff.mp h
  induction hlines with
  | nil => exact .nil
  | cons hline hlines ih =>
      obtain ⟨codes, -, rfl⟩ := replaceLine_eq_ok_iff.mp hline
      exact .keep rfl (.drop _ (ih (Success.mapM_iff.mpr hlines)))

theorem blames_replace {P : Line → Prop} {lines : List Line} (hlines : ∀ line ∈ lines, P line) :
    Blames P (replace lines) :=
  .mapM fun line hline => .bind (.check (hlines line hline) _) fun _ _ => .ok _

end Character

/-! ## Encoding -/

theorem Listing.blames_ofLines {P : Line → Prop} {lines : List Line}
    (hlines : ∀ line ∈ lines, P line) :
    Blames P (ofLines lines) := by
  induction lines with
  | nil => exact .ok []
  | cons line lines ih =>
      obtain ⟨hline, hlines⟩ := List.forall_mem_cons.mp hlines
      refine .bind ?_ fun first _ => .bind (ih hlines) fun rest _ => .ok _
      exact .bind (.check hline _) fun instructions _ => .ok _

end CellAsm
