import CellAsm.Proofs.Pass.ConstantLine

set_option autoImplicit false

/-! # What constants stand for

The value of a constant at a line is fixed by the last definition of it before that line, which is
looked at where it stands (`IsValue`): `[_]` is the cell with the number of the `[_]` before it,
another constant is the value that it has there, and any other token is itself. This looks back
from a line, while the pass goes forward with a table of values. The two agree: the table in front
of a line holds the values at that line (`Describes`), because a line changes the value of the
constant that it defines and of no other (`Describes.of_advance`).
-/

namespace CellAsm.Constant

/-! ## Definitions -/

/-- The line is the definition `$name = value`. -/
def Defines (line : Line) (name value : Token) : Prop :=
  line.tokens = ['$' :: name, ['='], value]

/-- Whether a line begins like a definition, with a constant and an equals sign. -/
def isDefinition (line : Line) : Bool :=
  match line.tokens with
  | ('$' :: _) :: ['='] :: _ => true
  | _ => false

/-- Whether a line is a definition that allocates a cell. -/
def isAllocation (line : Line) : Bool :=
  match line.tokens with
  | ['$' :: _, ['='], value] => value = allocation
  | _ => false

/-- The number of definitions in the lines that allocate a cell. -/
def allocations (lines : List Line) : Nat := lines.countP isAllocation

/-- The last definition of a constant in the lines `before` gives it the value token `value`, and
the lines `front` stand before that definition. -/
def IsLastDefinition (before : List Line) (name value : Token) (front : List Line) : Prop :=
  ∃ line back, before = front ++ line :: back ∧ Defines line name value ∧
    ∀ later ∈ back, ∀ other, ¬ Defines later name other

/-- The value of a constant at a line that has the lines `before` in front of it. -/
inductive IsValue : List Line → Token → Token → Prop where
  /-- The constant has been given the next cell. -/
  | allocated {before front : List Line} {name : Token}
      (last : IsLastDefinition before name allocation front) :
      IsValue before name (cell (allocations front))
  /-- The constant has been given the value that another one had. -/
  | renamed {before front : List Line} {name other value : Token}
      (last : IsLastDefinition before name ('$' :: other) front)
      (known : IsValue front other value) : IsValue before name value
  /-- The constant has been given a token that stands for itself. -/
  | literal {before front : List Line} {name token : Token}
      (last : IsLastDefinition before name token front) (cellless : token ≠ allocation)
      (plain : token.head? ≠ some '$') : IsValue before name token

/-- What a token stands for at a line that has the lines `before` in front of it. -/
inductive StandsFor (before : List Line) : Token → Token → Prop where
  | constant {name value : Token} (known : IsValue before name value) :
      StandsFor before ('$' :: name) value
  | literal {token : Token} (plain : token.head? ≠ some '$') : StandsFor before token token

/-! ### The tokens of a line and what they say -/

namespace Statement

variable {tokens : List Token} {name value extra : Token}

theorem ofTokens_eq_definition_iff :
    ofTokens tokens = .definition name value ↔ tokens = ['$' :: name, ['='], value] := by
  constructor
  · intro h
    unfold ofTokens at h
    split at h
    · split at h
      · cases h
      · obtain ⟨rfl, rfl⟩ := Statement.definition.inj h
        rfl
      · cases h
    · cases h
  · rintro rfl
    rfl

theorem ofTokens_eq_unfinished_iff :
    ofTokens tokens = .unfinished ↔ ∃ name, tokens = ['$' :: name, ['=']] := by
  constructor
  · intro h
    unfold ofTokens at h
    split at h
    · next name _ =>
      split at h
      · exact ⟨name, rfl⟩
      · cases h
      · cases h
    · cases h
  · rintro ⟨name, rfl⟩
    rfl

theorem ofTokens_eq_overlong_iff :
    ofTokens tokens = .overlong extra ↔
      ∃ name value rest, tokens = ('$' :: name) :: ['='] :: value :: extra :: rest := by
  constructor
  · intro h
    unfold ofTokens at h
    split at h
    · next name _ =>
      split at h
      · cases h
      · cases h
      · next value found rest =>
        obtain rfl := Statement.overlong.inj h
        exact ⟨name, value, rest, rfl⟩
    · cases h
  · rintro ⟨name, value, rest, rfl⟩
    rfl

end Statement

variable {line : Line} {before front : List Line} {name value : Token}

theorem defines_iff :
    Defines line name value ↔ Statement.ofTokens line.tokens = .definition name value :=
  Statement.ofTokens_eq_definition_iff.symm

theorem Defines.unique {name' value' : Token} (h : Defines line name value)
    (h' : Defines line name' value') : name = name' ∧ value = value' :=
  Statement.definition.inj ((defines_iff.mp h).symm.trans (defines_iff.mp h'))

theorem ofTokens_of_not_isDefinition (h : isDefinition line = false) :
    Statement.ofTokens line.tokens = .code line.tokens := by
  unfold isDefinition at h
  unfold Statement.ofTokens
  split
  · next heq => rw [heq] at h; cases h
  · rfl

theorem isDefinition_of_ofTokens_code {tokens : List Token}
    (h : Statement.ofTokens line.tokens = .code tokens) : isDefinition line = false := by
  unfold isDefinition
  split
  · next name rest heq =>
    rw [heq] at h
    unfold Statement.ofTokens at h
    split at h
    · split at h <;> cases h
    · next hno => exact absurd rfl (hno name rest)
  · rfl

theorem Defines.isDefinition (h : Defines line name value) : isDefinition line = true := by
  rw [Defines] at h
  rw [Constant.isDefinition, h]
  rfl

theorem Defines.isAllocation (h : Defines line name value) :
    isAllocation line = decide (value = allocation) := by
  rw [Defines] at h
  rw [Constant.isAllocation, h]
  rfl

theorem isAllocation_iff : isAllocation line = true ↔ ∃ name, Defines line name allocation := by
  constructor
  · intro h
    unfold isAllocation at h
    split at h
    · next name value heq =>
      obtain rfl := of_decide_eq_true h
      exact ⟨name, heq⟩
    · cases h
  · rintro ⟨name, h⟩
    rw [h.isAllocation, decide_eq_true rfl]

theorem allocations_append (lines more : List Line) :
    allocations (lines ++ more) = allocations lines + allocations more :=
  List.countP_append

theorem allocations_singleton (line : Line) :
    allocations [line] = if isAllocation line then 1 else 0 :=
  List.countP_singleton

/-! ## One more line -/

theorem not_isLastDefinition_nil : ¬ IsLastDefinition [] name value front := by
  rintro ⟨line, back, hsplit, -⟩
  simp at hsplit

/-- The last definition in lines is the one in their last line, if there is one. -/
theorem isLastDefinition_concat_iff :
    IsLastDefinition (before ++ [line]) name value front ↔
      Defines line name value ∧ front = before ∨
        (∀ other, ¬ Defines line name other) ∧ IsLastDefinition before name value front := by
  constructor
  · rintro ⟨found, back, hsplit, hdefines, hlater⟩
    rcases concat_eq_append_cons_iff.mp hsplit with ⟨rfl, rfl, -⟩ | ⟨rest, rfl, rfl⟩
    · exact .inl ⟨hdefines, rfl⟩
    · obtain ⟨hrest, hline⟩ := List.forall_mem_append.mp hlater
      exact .inr ⟨hline line List.mem_cons_self, found, rest, rfl, hdefines, hrest⟩
  · rintro (⟨hdefines, rfl⟩ | ⟨hline, found, back, rfl, hdefines, hback⟩)
    · exact ⟨line, [], rfl, hdefines, List.forall_mem_nil _⟩
    · refine ⟨found, back ++ [line], by simp, hdefines, ?_⟩
      exact List.forall_mem_append.mpr ⟨hback, List.forall_mem_singleton.mpr hline⟩

theorem IsLastDefinition.unique {value' : Token} {front' : List Line}
    (h : IsLastDefinition before name value front)
    (h' : IsLastDefinition before name value' front') : value = value' ∧ front = front' := by
  induction before using List.reverseRecOn with
  | nil => exact absurd h not_isLastDefinition_nil
  | append_singleton before line ih =>
      rcases isLastDefinition_concat_iff.mp h with ⟨hline, rfl⟩ | ⟨hline, h⟩
      · rcases isLastDefinition_concat_iff.mp h' with ⟨hline', rfl⟩ | ⟨hline', -⟩
        · exact ⟨(hline.unique hline').2, rfl⟩
        · exact absurd hline (hline' value)
      · rcases isLastDefinition_concat_iff.mp h' with ⟨hline', -⟩ | ⟨-, h'⟩
        · exact absurd hline' (hline value')
        · exact ih h h'

/-- The definition in the last line gives the constant its value. -/
theorem isValue_concat_of_defines {token : Token} (hline : Defines line name token) :
    IsValue (before ++ [line]) name value ↔
      token = allocation ∧ value = cell (allocations before) ∨
        token ≠ allocation ∧ StandsFor before token value := by
  have hlast : IsLastDefinition (before ++ [line]) name token before :=
    isLastDefinition_concat_iff.mpr (.inl ⟨hline, rfl⟩)
  constructor
  · intro h
    cases h with
    | allocated last =>
        obtain ⟨rfl, rfl⟩ := hlast.unique last
        exact .inl ⟨rfl, rfl⟩
    | renamed last known =>
        obtain ⟨rfl, rfl⟩ := hlast.unique last
        exact .inr ⟨by simp [allocation], .constant known⟩
    | literal last cellless plain =>
        obtain ⟨rfl, rfl⟩ := hlast.unique last
        exact .inr ⟨cellless, .literal plain⟩
  · rintro (⟨rfl, rfl⟩ | ⟨hcell, hstands⟩)
    · exact .allocated hlast
    · cases hstands with
      | constant known => exact .renamed hlast known
      | literal plain => exact .literal hlast hcell plain

/-- A line that does not define a constant leaves it its value. -/
theorem isValue_concat_of_not_defines (hline : ∀ token, ¬ Defines line name token) :
    IsValue (before ++ [line]) name value ↔ IsValue before name value := by
  have hlast : ∀ token front, IsLastDefinition (before ++ [line]) name token front ↔
      IsLastDefinition before name token front := fun token front =>
    isLastDefinition_concat_iff.trans <| (or_iff_right fun h => hline token h.1).trans <|
      and_iff_right hline
  constructor
  · intro h
    cases h with
    | allocated last => exact .allocated ((hlast _ _).mp last)
    | renamed last known => exact .renamed ((hlast _ _).mp last) known
    | literal last cellless plain => exact .literal ((hlast _ _).mp last) cellless plain
  · intro h
    cases h with
    | allocated last => exact .allocated ((hlast _ _).mpr last)
    | renamed last known => exact .renamed ((hlast _ _).mpr last) known
    | literal last cellless plain => exact .literal ((hlast _ _).mpr last) cellless plain

/-- A constant that has a value is defined. -/
theorem IsValue.exists_isLastDefinition (h : IsValue before name value) :
    ∃ token front, IsLastDefinition before name token front := by
  cases h with
  | allocated last => exact ⟨_, _, last⟩
  | renamed last _ => exact ⟨_, _, last⟩
  | literal last _ _ => exact ⟨_, _, last⟩

theorem not_isValue_nil : ¬ IsValue [] name value := by
  intro h
  obtain ⟨_, _, hlast⟩ := h.exists_isLastDefinition
  exact not_isLastDefinition_nil hlast

/-! ## Values -/

/-- A constant has at most one value. -/
theorem IsValue.unique {value' : Token} (h : IsValue before name value)
    (h' : IsValue before name value') : value = value' := by
  induction h with
  | allocated last =>
      cases h' with
      | allocated last' => rw [(last.unique last').2]
      | renamed last' _ => cases (last.unique last').1
      | literal last' cellless _ => exact absurd (last.unique last').1.symm cellless
  | renamed last known ih =>
      cases h' with
      | allocated last' => cases (last.unique last').1
      | renamed last' known' =>
          obtain ⟨hother, rfl⟩ := last.unique last'
          obtain rfl := (List.cons.inj hother).2
          exact ih known'
      | literal last' _ plain =>
          rw [← (last.unique last').1] at plain
          exact absurd rfl plain
  | literal last cellless plain =>
      cases h' with
      | allocated last' => exact absurd (last.unique last').1 cellless
      | renamed last' _ =>
          rw [(last.unique last').1] at plain
          exact absurd rfl plain
      | literal last' _ _ => exact (last.unique last').1

theorem cell_ne_allocation (n : Nat) : cell n ≠ allocation := by
  intro h
  have hrest : Text.decimal n ++ [']'] = ['_'] ++ [']'] := (List.cons.inj h).2
  have hnumber : '_' ∈ Text.decimal n := by
    rw [List.append_cancel_right hrest]
    exact List.mem_cons_self
  exact Text.not_mem_decimal (by decide) hnumber

/-- **A value needs no more looking up**: it is no constant, and it allocates nothing. -/
theorem IsValue.settled (h : IsValue before name value) :
    value.head? ≠ some '$' ∧ value ≠ allocation := by
  induction h with
  | allocated _ => exact ⟨by simp [cell], cell_ne_allocation _⟩
  | renamed _ _ ih => exact ih
  | literal _ cellless plain => exact ⟨plain, cellless⟩

/-! ## The table in front of a line -/

/-- A table that holds the values at a line with the lines `before` in front of it. -/
structure Describes (table : Table) (before : List Line) : Prop where
  values : ∀ name value, table.valueOf name = .ok value ↔ IsValue before name value
  nextCell : table.nextCell = allocations before

theorem describes_nil : Describes {} [] where
  values _ _ := iff_of_false (by simp [Table.valueOf]) not_isValue_nil
  nextCell := rfl

namespace Describes

variable {table next : Table} {token : Token}

theorem resolve_eq_ok_iff (h : Describes table before) :
    table.resolve token = .ok value ↔ StandsFor before token value := by
  unfold Table.resolve
  split
  · next name =>
    rw [h.values]
    refine ⟨.constant, fun hstands => ?_⟩
    cases hstands with
    | constant known => exact known
    | literal plain => exact absurd rfl plain
  · next hplain =>
    constructor
    · intro hvalue
      obtain rfl := Except.ok.inj hvalue
      refine .literal fun hhead => ?_
      obtain ⟨name, rfl⟩ := List.head?_eq_some_iff.mp hhead
      exact hplain name rfl
    · intro hstands
      cases hstands with
      | constant known => exact absurd rfl (hplain _)
      | literal plain => rfl

theorem mapM_resolve_eq_ok_iff (h : Describes table before) {tokens resolved : List Token} :
    tokens.mapM table.resolve = .ok resolved ↔ List.Forall₂ (StandsFor before) tokens resolved := by
  rw [Success.mapM_iff]
  exact ⟨.imp fun _ _ => h.resolve_eq_ok_iff.mp, .imp fun _ _ => h.resolve_eq_ok_iff.mpr⟩

theorem resolve_eq_error_iff (h : Describes table before) {cause : Fault.Cause} :
    table.resolve token = .error cause ↔
      ∃ name, token = '$' :: name ∧ (∀ value, ¬ IsValue before name value) ∧
        cause = .noSuchConstant token := by
  unfold Table.resolve
  split
  · next name =>
    have hvalues := h.values name
    cases hvalue : table.valueOf name with
    | ok value =>
        rw [hvalue] at hvalues
        refine iff_of_false (by simp) ?_
        rintro ⟨other, hother, hnone, -⟩
        obtain rfl := (List.cons.inj hother).2
        exact hnone value ((hvalues value).mp rfl)
    | error found =>
        -- a look-up has one way to fail
        obtain rfl : found = .noSuchConstant ('$' :: name) := by
          unfold Table.valueOf at hvalue
          split at hvalue
          · cases hvalue
          · exact (Except.error.inj hvalue).symm
        rw [hvalue] at hvalues
        constructor
        · intro hcause
          obtain rfl := Except.error.inj hcause
          exact ⟨name, rfl, fun value hknown => by simpa using (hvalues value).mpr hknown, rfl⟩
        · rintro ⟨_, -, -, rfl⟩
          rfl
  · next hplain =>
    refine iff_of_false (by simp) ?_
    rintro ⟨name, rfl, -⟩
    exact hplain name rfl

/-- A definition that can be made turns the table into the one behind its line. -/
theorem of_define (h : Describes table before) {cells : Nat} (hline : Defines line name token)
    (hdefine : table.define cells name token = .ok next) : Describes next (before ++ [line]) := by
  have hother : ∀ other, other ≠ name → ∀ token', ¬ Defines line other token' :=
    fun other hne token' hdefines => hne (hdefines.unique hline).1
  -- an allocation takes the next cell, any other value is resolved and takes none
  obtain ⟨resolved, hvalues, hcells, hresolved⟩ : ∃ resolved,
      next.values = (name, resolved) :: table.values ∧
      next.nextCell = table.nextCell + (if token = allocation then 1 else 0) ∧
      ∀ value, value = resolved ↔ IsValue (before ++ [line]) name value := by
    rcases Table.define_eq_ok hdefine with ⟨rfl, -, rfl⟩ | ⟨hcell, resolved, hresolve, rfl⟩
    · refine ⟨_, rfl, rfl, fun value => ?_⟩
      rw [isValue_concat_of_defines hline, h.nextCell]
      simp
    · refine ⟨resolved, rfl, by rw [if_neg hcell]; rfl, fun value => ?_⟩
      rw [isValue_concat_of_defines hline, ← h.resolve_eq_ok_iff, hresolve]
      simp [hcell, eq_comm]
  refine ⟨fun other value => ?_, ?_⟩
  · rw [Table.valueOf_eq_ok_iff, hvalues, List.lookup_cons]
    by_cases hname : other = name
    · subst hname
      rw [beq_self_eq_true, ← hresolved]
      simp [eq_comm]
    · rw [beq_false_of_ne hname, isValue_concat_of_not_defines (hother other hname),
        ← h.values, Table.valueOf_eq_ok_iff]
  · rw [hcells, h.nextCell, allocations_append, allocations_singleton, hline.isAllocation]
    simp

/-- A line without a definition leaves the table as it is. -/
theorem of_not_isDefinition (h : Describes table before) (hline : isDefinition line = false) :
    Describes table (before ++ [line]) := by
  have hnone : ∀ name token, ¬ Defines line name token := fun name token hdefines => by
    rw [hdefines.isDefinition] at hline
    cases hline
  refine ⟨fun name value => ?_, ?_⟩
  · rw [h.values, isValue_concat_of_not_defines (hnone name)]
  · have hkeeps : isAllocation line = false :=
      Bool.eq_false_iff.mpr fun hallocation =>
        let ⟨name, hdefines⟩ := isAllocation_iff.mp hallocation
        hnone name allocation hdefines
    rw [h.nextCell, allocations_append, allocations_singleton, hkeeps]
    rfl

/-- **Behind a line the table holds the values there.** -/
theorem of_advance (h : Describes table before) {policy : Policy} {cells : Nat} {own : List Line}
    (hline : (advance policy cells table line).result = .ok (next, own)) :
    Describes next (before ++ [line]) := by
  cases hstatement : Statement.ofTokens line.tokens with
  | unfinished => rw [advance_of_unfinished hstatement] at hline; cases hline
  | overlong extra => rw [advance_of_overlong hstatement] at hline; cases hline
  | definition name token =>
      rw [advance_of_definition hstatement] at hline
      obtain ⟨found, hfound, hline⟩ := Success.andThen_iff.mp hline
      obtain ⟨rfl, -⟩ := Prod.mk.inj (Except.ok.inj hline)
      exact h.of_define (defines_iff.mpr hstatement) (process_eq_ok hfound).2
  | code tokens =>
      rw [advance_of_code hstatement] at hline
      obtain ⟨resolved, -, hline⟩ := Success.andThen_iff.mp hline
      obtain ⟨rfl, -⟩ := Prod.mk.inj (Except.ok.inj hline)
      exact h.of_not_isDefinition (isDefinition_of_ofTokens_code hstatement)

end Describes

end CellAsm.Constant
