import CellAsm.Proofs.Pass.Constant

set_option autoImplicit false

/-! # One line of the constant pass

The pass goes from line to line with a table of constants. `advance` is what it does with one line:
it gives the next table and what is left of the line. The pass is `advance` on the first line and
then the pass on the others, with what the policy has seen by then (`replaceFrom_cons`), so what
holds of every single line is carried along the lines of a program.
-/

namespace CellAsm.Constant

/-- What the pass does with one line: the table behind it, and what is left of the line. -/
def advance (policy : Policy) (cells : Nat) (table : Table) (line : Line) :
    Report (Table × List Line) :=
  match Statement.ofTokens line.tokens with
  | .unfinished => .fail (.inLine line .missingValue)
  | .overlong extra => .fail (.inLine line (.unexpected extra))
  | .definition name value => do
    let next ← process policy cells table line name value
    return (next, [])
  | .code tokens => do
    let resolved ← line.check (tokens.mapM table.resolve)
    return (table, [line.withContents (Token.join resolved)])

/-- The name that a line defines. A definition is well-formed when it has a name and one value. -/
def definedName? (line : Line) : Option Token :=
  match Statement.ofTokens line.tokens with
  | .definition name _ => if name = [] then none else some name
  | _ => none

theorem definedName?_eq_some_iff {line : Line} {name : Token} :
    definedName? line = some name ↔
      name ≠ [] ∧ ∃ value, Statement.ofTokens line.tokens = .definition name value := by
  rw [definedName?]
  cases Statement.ofTokens line.tokens with
  | unfinished => simp
  | overlong extra => simp
  | code tokens => simp
  | definition defined value =>
      simp only [Statement.definition.injEq, exists_and_left, exists_eq', and_true]
      split_ifs with hname
      · simp [hname, eq_comm]
      · rw [Option.some.injEq, iff_and_self]
        rintro rfl
        exact hname

variable {policy : Policy} {cells : Nat} {table next : Table} {line : Line} {own : List Line}

section Equations

variable {name value extra : Token} {tokens : List Token}

theorem advance_of_unfinished (h : Statement.ofTokens line.tokens = .unfinished) :
    advance policy cells table line = .fail (.inLine line .missingValue) := by
  rw [advance, h]

theorem advance_of_overlong (h : Statement.ofTokens line.tokens = .overlong extra) :
    advance policy cells table line = .fail (.inLine line (.unexpected extra)) := by
  rw [advance, h]

theorem advance_of_definition (h : Statement.ofTokens line.tokens = .definition name value) :
    advance policy cells table line = do
      let next ← process policy cells table line name value
      return (next, []) := by
  rw [advance, h]

theorem advance_of_code (h : Statement.ofTokens line.tokens = .code tokens) :
    advance policy cells table line = do
      let resolved ← Report.ofExcept (line.check (tokens.mapM table.resolve))
      return (table, [line.withContents (Token.join resolved)]) := by
  rw [advance, h]
  rfl

/-- Only a definition can be worth a warning. -/
theorem warnings_advance_of_code (h : Statement.ofTokens line.tokens = .code tokens) :
    (advance policy cells table line).warnings = [] := by
  rw [advance_of_code h, Report.bind_pure_comp, Report.ofExcept]

end Equations

/-- **The pass goes line by line.** -/
theorem replaceFrom_cons (policy : Policy) (cells : Nat) (table : Table) (line : Line)
    (lines : List Line) :
    replaceFrom policy cells table (line :: lines) = do
      let step ← advance policy cells table line
      let rest ← replaceFrom (policy.after (advance policy cells table line).warnings) cells step.1
        lines
      return step.2 ++ rest := by
  cases hstatement : Statement.ofTokens line.tokens with
  | unfinished => rw [advance_of_unfinished hstatement, replaceFrom, hstatement]; rfl
  | overlong extra => rw [advance_of_overlong hstatement, replaceFrom, hstatement]; rfl
  | definition name value =>
      have hwarnings : (advance policy cells table line).warnings =
          (process policy cells table line name value).warnings := by
        rw [advance_of_definition hstatement, Report.bind_pure_comp]
      rw [replaceFrom_of_definition hstatement, hwarnings, advance_of_definition hstatement]
      simp only [bind_assoc, pure_bind, List.nil_append, bind_pure]
  | code tokens =>
      rw [replaceFrom, hstatement, warnings_advance_of_code hstatement,
        advance_of_code hstatement]
      simp only [bind_assoc, pure_bind, List.singleton_append]
      rfl

theorem isDefined_define {name value : Token} (h : table.define cells name value = .ok next)
    (other : Token) :
    next.isDefined other = true ↔ table.isDefined other = true ∨ other = name := by
  obtain ⟨resolved, -, hvalues⟩ := Table.valueOf_define_self h
  rw [Table.isDefined, Table.isDefined, hvalues, List.lookup_cons]
  by_cases hname : other = name
  · simp [hname]
  · rw [beq_false_of_ne hname, or_iff_left hname]

/-- Behind a line one more name is defined, if the line defines one. -/
theorem isDefined_of_advance (h : (advance policy cells table line).result = .ok (next, own))
    (name : Token) :
    next.isDefined name = true ↔ table.isDefined name = true ∨ definedName? line = some name := by
  rw [definedName?]
  cases hstatement : Statement.ofTokens line.tokens with
  | unfinished => rw [advance_of_unfinished hstatement] at h; cases h
  | overlong extra => rw [advance_of_overlong hstatement] at h; cases h
  | definition defined value =>
      rw [advance_of_definition hstatement] at h
      obtain ⟨found, hfound, h⟩ := Success.andThen_iff.mp h
      obtain ⟨rfl, rfl⟩ := Prod.mk.inj (Except.ok.inj h)
      obtain ⟨hname, hdefine⟩ := process_eq_ok hfound
      simp only [if_neg hname, Option.some.injEq]
      rw [isDefined_define hdefine, eq_comm (a := defined)]
  | code tokens =>
      rw [advance_of_code hstatement] at h
      obtain ⟨resolved, -, h⟩ := Success.andThen_iff.mp h
      obtain ⟨rfl, rfl⟩ := Prod.mk.inj (Except.ok.inj h)
      simp

/-- A name that is new is worth no warning. -/
theorem warnings_advance_of_fresh {name : Token} (hline : definedName? line = some name)
    (hfresh : table.isDefined name = false) : (advance policy cells table line).warnings = [] := by
  obtain ⟨hname, value, hstatement⟩ := definedName?_eq_some_iff.mp hline
  rw [advance_of_definition hstatement, Report.bind_pure_comp, process, if_neg hname,
    if_neg (by simp [hfresh])]
  rfl

end CellAsm.Constant
