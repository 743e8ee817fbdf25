import CellAsm.Pass.Constant
import CellAsm.Proofs.Success
import CellAsm.Proofs.Text.Decimal
import CellAsm.Proofs.Token.Rejoin

set_option autoImplicit false

/-! # Constants along the lines of a program

The pass carries a table of constants from line to line. `Substitutes cells policy table lines last
kept` says that it comes out of `lines` with the table `last` when it goes into them with
`table`, and that the lines `kept` are left. It is compositional (`Substitutes.append_inv`); the
policy of the later lines knows the warnings of the earlier ones. Under the strict policy nothing
is defined twice, so what a name stands for never changes (`Substitutes.valueOf_eq`), and lines
that allocate cells give each name a cell of its own (`Substitutes.valueOf_of_allocations`).
-/

namespace CellAsm.Constant

/-! ## Definitions -/

/-- The token for a cell. -/
def cell (n : Nat) : Token := ['['] ++ Text.decimal n ++ [']']

namespace Table

/-- A definition puts the name with a value in front of the table. -/
theorem define_eq_ok {table next : Table} {cells : Nat} {name value : Token}
    (h : table.define cells name value = .ok next) :
    value = allocation ∧ table.nextCell < cells ∧
        next = { table.insert name (cell table.nextCell) with nextCell := table.nextCell + 1 } ∨
      value ≠ allocation ∧ ∃ resolved, table.resolve value = .ok resolved ∧
        next = table.insert name resolved := by
  unfold define at h
  by_cases hvalue : value = allocation
  · rw [if_pos hvalue] at h
    by_cases hcell : table.nextCell < cells
    · rw [if_pos hcell] at h
      exact .inl ⟨hvalue, hcell, (Except.ok.inj h).symm⟩
    · rw [if_neg hcell] at h
      cases h
  · rw [if_neg hvalue] at h
    obtain ⟨resolved, hresolved, h⟩ := Success.bind_iff.mp h
    exact .inr ⟨hvalue, resolved, hresolved, (Success.pure_iff.mp h).symm⟩

theorem valueOf_eq_ok_iff {table : Table} {name value : Token} :
    table.valueOf name = .ok value ↔ table.values.lookup name = some value := by
  unfold valueOf
  cases table.values.lookup name with
  | none => simp
  | some found => simp

theorem valueOf_define_self {table next : Table} {cells : Nat} {name value : Token}
    (h : table.define cells name value = .ok next) :
    ∃ resolved, next.valueOf name = .ok resolved ∧
      next.values = (name, resolved) :: table.values := by
  rcases define_eq_ok h with ⟨-, -, rfl⟩ | ⟨-, resolved, -, rfl⟩
  · exact ⟨_, valueOf_eq_ok_iff.mpr (List.lookup_cons_self ..), rfl⟩
  · exact ⟨_, valueOf_eq_ok_iff.mpr (List.lookup_cons_self ..), rfl⟩

/-- A definition of a new name changes no other. -/
theorem valueOf_define_of_fresh {table next : Table} {cells : Nat} {name value other found : Token}
    (h : table.define cells name value = .ok next) (hfresh : table.isDefined name = false)
    (hfound : table.valueOf other = .ok found) : next.valueOf other = .ok found := by
  rw [valueOf_eq_ok_iff] at hfound ⊢
  have hne : other ≠ name := by
    rintro rfl
    rw [isDefined, hfound] at hfresh
    cases hfresh
  obtain ⟨resolved, -, hvalues⟩ := valueOf_define_self h
  rw [hvalues, List.lookup_cons, beq_false_of_ne hne]
  exact hfound

end Table

/-- A definition needs a name, and a value that can be used. -/
theorem process_eq_ok {policy : Policy} {cells : Nat} {table next : Table} {line : Line}
    {name value : Token} (h : (process policy cells table line name value).result = .ok next) :
    name ≠ [] ∧ table.define cells name value = .ok next := by
  unfold process at h
  by_cases hname : name = []
  · rw [if_pos hname] at h
    cases h
  · rw [if_neg hname] at h
    refine ⟨hname, ?_⟩
    split at h
    · obtain ⟨_, -, h⟩ := Success.andThen_iff.mp h
      exact Success.check_iff.mp h
    · exact Success.check_iff.mp h

/-- Under the strict policy a constant can be defined only once. -/
theorem process_strict_eq_ok {cells : Nat} {table next : Table} {line : Line}
    {name value : Token} (h : (process .strict cells table line name value).result = .ok next) :
    name ≠ [] ∧ table.isDefined name = false ∧ table.define cells name value = .ok next := by
  obtain ⟨hname, hdefine⟩ := process_eq_ok h
  refine ⟨hname, ?_, hdefine⟩
  rw [process, if_neg hname] at h
  cases hdefined : table.isDefined name with
  | true => rw [if_pos hdefined] at h; cases h
  | false => rfl

/-! ## Line by line -/

section

variable {policy : Policy} {cells : Nat} {table next : Table} {line : Line} {lines : List Line}

theorem replaceFrom_of_definition {name value : Token}
    (hline : Statement.ofTokens line.tokens = .definition name value) :
    replaceFrom policy cells table (line :: lines) =
      process policy cells table line name value >>=
        fun next => replaceFrom
          (policy.after (process policy cells table line name value).warnings) cells next lines := by
  rw [replaceFrom, hline]
  rfl

theorem replaceFrom_of_code {tokens resolved : List Token}
    (hline : Statement.ofTokens line.tokens = .code tokens)
    (hresolved : tokens.mapM table.resolve = .ok resolved) :
    replaceFrom policy cells table (line :: lines) =
      ⟨(replaceFrom policy cells table lines).warnings,
        (replaceFrom policy cells table lines).result.map
          (line.withContents (Token.join resolved) :: ·)⟩ := by
  rw [replaceFrom, hline, ← Report.bind_pure_comp]
  simp only [hresolved]
  rfl

/-- Behind a definition the policy has noted what that was worth. -/
theorem after_replaceFrom_of_definition {name value : Token}
    (hline : Statement.ofTokens line.tokens = .definition name value)
    (hprocess : (process policy cells table line name value).result = .ok next) :
    policy.after (replaceFrom policy cells table (line :: lines)).warnings =
      (policy.after (process policy cells table line name value).warnings).after
        (replaceFrom (policy.after (process policy cells table line name value).warnings) cells next
          lines).warnings := by
  rw [replaceFrom_of_definition hline, Report.warnings_bind_of_ok hprocess, Policy.after_after]

end

/-- The pass goes into lines with a table and comes out of them with a table and what is left of
the lines. -/
inductive Substitutes (cells : Nat) :
    Policy → Table → List Line → Table → List Line → Prop
  | nil (policy : Policy) (table : Table) : Substitutes cells policy table [] table []
  | definition {policy : Policy} {table next last : Table} {line : Line} {name value : Token}
      {lines kept : List Line} (hline : Statement.ofTokens line.tokens = .definition name value)
      (hprocess : (process policy cells table line name value).result = .ok next)
      (hlines : Substitutes cells
        (policy.after (process policy cells table line name value).warnings) next lines last kept) :
      Substitutes cells policy table (line :: lines) last kept
  | code {policy : Policy} {table last : Table} {line : Line} {tokens resolved : List Token}
      {lines kept : List Line} (hline : Statement.ofTokens line.tokens = .code tokens)
      (hresolved : tokens.mapM table.resolve = .ok resolved)
      (hlines : Substitutes cells policy table lines last kept) :
      Substitutes cells policy table (line :: lines) last
        (line.withContents (Token.join resolved) :: kept)

theorem substitutes_of_replaceFrom {policy : Policy} {cells : Nat} {table : Table}
    {lines kept : List Line} (h : (replaceFrom policy cells table lines).result = .ok kept) :
    ∃ last, Substitutes cells policy table lines last kept := by
  induction lines generalizing policy table kept with
  | nil =>
      obtain rfl := Except.ok.inj h
      exact ⟨table, .nil policy table⟩
  | cons line lines ih =>
      rw [replaceFrom] at h
      -- the pass stops at the first line that is no statement, so success leaves two shapes
      cases hline : Statement.ofTokens line.tokens with
      | unfinished => rw [hline] at h; cases h
      | overlong extra => rw [hline] at h; cases h
      | definition name value =>
          rw [hline] at h
          obtain ⟨next, hnext, h⟩ := Success.andThen_iff.mp h
          obtain ⟨last, hlast⟩ := ih h
          exact ⟨last, .definition hline hnext hlast⟩
      | code tokens =>
          rw [hline] at h
          obtain ⟨resolved, hresolved, h⟩ := Success.andThen_iff.mp h
          obtain ⟨rest, hrest, h⟩ := Success.andThen_iff.mp h
          obtain rfl := Except.ok.inj h
          obtain ⟨last, hlast⟩ := ih hrest
          exact ⟨last, .code hline (Success.check_iff.mp hresolved) hlast⟩

namespace Substitutes

variable {policy : Policy} {cells : Nat} {table last : Table} {lines more kept : List Line}

theorem append_inv (h : Substitutes cells policy table (lines ++ more) last kept) :
    ∃ next front back, Substitutes cells policy table lines next front ∧
      Substitutes cells (policy.after (replaceFrom policy cells table lines).warnings) next more
        last back ∧
      kept = front ++ back := by
  induction lines generalizing policy table kept with
  | nil => exact ⟨table, [], kept, .nil policy table, h, rfl⟩
  | cons line lines ih =>
      cases h with
      | definition hline hprocess hlines =>
          obtain ⟨next, front, back, hfront, hback, rfl⟩ := ih hlines
          refine ⟨next, front, back, .definition hline hprocess hfront, ?_, rfl⟩
          rwa [after_replaceFrom_of_definition hline hprocess]
      | code hline hresolved hlines =>
          obtain ⟨next, front, back, hfront, hback, rfl⟩ := ih hlines
          refine ⟨next, _ :: front, back, .code hline hresolved hfront, ?_, rfl⟩
          rwa [replaceFrom_of_code hline hresolved]

/-- **What a name stands for never changes** under the strict policy. -/
theorem valueOf_eq (h : Substitutes cells .strict table lines last kept) {name value : Token}
    (hvalue : table.valueOf name = .ok value) : last.valueOf name = .ok value := by
  generalize hpolicy : Policy.strict = policy at h
  induction h with
  | nil policy table => exact hvalue
  | definition hline hprocess _ ih =>
      subst hpolicy
      obtain ⟨-, hfresh, hdefine⟩ := process_strict_eq_ok hprocess
      exact ih (Table.valueOf_define_of_fresh hdefine hfresh hvalue) (Policy.after_strict _).symm
  | code _ _ _ ih => exact ih hvalue hpolicy

end Substitutes

/-- A line that is no definition is left with its own tokens. -/
theorem Statement.tokens_of_code {tokens tokens' : List Token}
    (h : Statement.ofTokens tokens = .code tokens') : tokens' = tokens := by
  unfold Statement.ofTokens at h
  split at h
  · split at h <;> cases h
  · exact (Statement.code.inj h).symm

/-- A token without a sigil stands for itself. -/
theorem Table.resolve_of_head? {table : Table} {token : Token} (h : token.head? ≠ some '$') :
    table.resolve token = .ok token := by
  unfold Table.resolve
  split
  · exact absurd rfl h
  · rfl

/-- A line that does not begin with a constant defines none. -/
theorem Statement.ofTokens_of_head? {token : Token} (h : token.head? ≠ some '$')
    (tokens : List Token) : Statement.ofTokens (token :: tokens) = .code (token :: tokens) := by
  unfold Statement.ofTokens
  split
  · next heq =>
    obtain ⟨rfl, -⟩ := List.cons.inj heq
    exact absurd rfl h
  · rfl

/-! ## Lines that allocate cells -/

/-- The text that allocates a cell for a constant. -/
def allocationText (name : Token) : List Char := '$' :: name ++ " = [_]".toList

theorem scan_allocationText {name : Token} (hname : ∀ c ∈ name, Text.isBlank c = false) :
    Token.scan (allocationText name) = ['$' :: name, ['='], allocation] := by
  have hjoin : allocationText name = Token.join ['$' :: name, ['='], allocation] := by
    simp [allocationText, Token.join_cons_cons, allocation]
  rw [hjoin]
  refine Token.scan_join ?_ ?_
  · intro token htoken
    simp only [List.mem_cons, List.not_mem_nil, or_false] at htoken
    rcases htoken with rfl | rfl | rfl
    · refine Token.isProper_of_blankless (by simp) ?_
      exact List.forall_mem_cons.mpr ⟨by decide, hname⟩
    · decide
    · decide
  · exact Token.isRejoinable_of_forall_ne (by simp [allocation])

theorem tokens_typed_allocationText {name : Token} (hname : ∀ c ∈ name, Text.isBlank c = false)
    (number : Nat) (file : String) :
    (Line.typed number file (allocationText name)).tokens = ['$' :: name, ['='], allocation] := by
  rw [Line.tokens, Line.typed, String.toList_ofList, scan_allocationText hname]

/-- **Each name gets a cell of its own**, the next one after those that are used. -/
theorem Substitutes.valueOf_of_allocations {cells first : Nat} {file : String}
    {names : List Token} (hnames : ∀ name ∈ names, ∀ c ∈ name, Text.isBlank c = false)
    {table last : Table} {kept : List Line}
    (h : Substitutes cells .strict table
      (Line.numberedFrom first file (names.map allocationText)) last kept) :
    kept = [] ∧ ∀ j name, names[j]? = some name →
      last.valueOf name = .ok (cell (table.nextCell + j)) ∧ table.nextCell + j < cells := by
  induction names generalizing first table with
  | nil =>
      cases h
      exact ⟨rfl, by simp⟩
  | cons name names ih =>
      obtain ⟨hname, hnames⟩ := List.forall_mem_cons.mp hnames
      have htokens := tokens_typed_allocationText hname first file
      cases h with
      | code hline => rw [htokens] at hline; cases hline
      -- a definition: strict, so the name is fresh and its value is never changed again
      | definition hline hprocess hlines =>
          rw [htokens] at hline
          cases hline
          obtain ⟨-, hfresh, hdefine⟩ := process_strict_eq_ok hprocess
          -- the value is an allocation, so the table hands out its next cell
          rcases Table.define_eq_ok hdefine with ⟨-, hcell, rfl⟩ | ⟨hne, -⟩
          · obtain ⟨hkept, hrest⟩ := ih hnames hlines
            refine ⟨hkept, ?_⟩
            intro j other hother
            cases j with
            | zero =>
                obtain rfl : name = other := by simpa using hother
                refine ⟨hlines.valueOf_eq ?_, hcell⟩
                exact Table.valueOf_eq_ok_iff.mpr (List.lookup_cons_self ..)
            | succ j =>
                -- one cell is gone, so the later names count from the next one
                have hnext := hrest j other (by simpa using hother)
                have hindex : table.nextCell + 1 + j = table.nextCell + (j + 1) := by omega
                rwa [hindex] at hnext
          · exact absurd rfl hne

/-! ## More cells -/

section

variable {policy : Policy} {cells cells' : Nat} {table next last : Table} {lines kept : List Line}

theorem replaceFrom_of_substitutes (h : Substitutes cells policy table lines last kept) :
    (replaceFrom policy cells table lines).result = .ok kept := by
  induction h with
  | nil policy table => rfl
  | definition hline hprocess _ ih =>
      rw [replaceFrom_of_definition hline]
      exact Success.andThen_iff.mpr ⟨_, hprocess, ih⟩
  | code hline hresolved _ ih =>
      rw [replaceFrom_of_code hline hresolved]
      exact Success.map_iff.mpr ⟨_, ih, rfl⟩

theorem Table.define_of_le (hle : cells ≤ cells') {name value : Token}
    (h : table.define cells name value = .ok next) : table.define cells' name value = .ok next := by
  unfold define at h ⊢
  by_cases hvalue : value = allocation
  · rw [if_pos hvalue] at h ⊢
    by_cases hcell : table.nextCell < cells
    · rw [if_pos hcell] at h
      rw [if_pos (Nat.lt_of_lt_of_le hcell hle)]
      exact h
    · rw [if_neg hcell] at h
      cases h
  · rw [if_neg hvalue] at h ⊢
    exact h

theorem process_of_le (hle : cells ≤ cells') {line : Line} {name value : Token}
    (h : (process policy cells table line name value).result = .ok next) :
    process policy cells' table line name value = process policy cells table line name value := by
  obtain ⟨-, hdefine⟩ := process_eq_ok h
  rw [process, process, Table.define_of_le hle hdefine, hdefine]

theorem Substitutes.of_le (hle : cells ≤ cells')
    (h : Substitutes cells policy table lines last kept) :
    Substitutes cells' policy table lines last kept := by
  induction h with
  | nil policy table => exact .nil policy table
  | definition hline hprocess _ ih =>
      have hsame := process_of_le hle hprocess
      rw [← hsame] at hprocess ih
      exact .definition hline hprocess ih
  | code hline hresolved _ ih => exact .code hline hresolved ih

/-- **More cells change nothing** in a program whose constants fit fewer. -/
theorem replaceFrom_of_le (hle : cells ≤ cells')
    (h : (replaceFrom policy cells table lines).result = .ok kept) :
    (replaceFrom policy cells' table lines).result = .ok kept := by
  obtain ⟨last, hlast⟩ := substitutes_of_replaceFrom h
  exact replaceFrom_of_substitutes (hlast.of_le hle)

end

end CellAsm.Constant
