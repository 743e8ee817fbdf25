import CellAsm.Proofs.Constant.Value

set_option autoImplicit false

/-! # Constants are replaced by their values

What the pass makes of lines is told line by line, each line with the lines in front of it
(`placed`). A line can be at fault (`Fails`): it begins like a definition and is none, it allocates
a cell where all are used up, or it needs the value of a constant that has none. The pass stops at
the first such line. If there is none, the definitions vanish and every other line stays with its
tokens replaced by what they stand for (`IsReplaced`).
-/

namespace CellAsm.Constant

/-! ## Lines in their places -/

/-- Each of the lines with all the lines in front of it, where the lines `before` come first. -/
def placed (before : List Line) : List Line → List (List Line × Line)
  | [] => []
  | line :: lines => (before, line) :: placed (before ++ [line]) lines

/-- What is wrong with a line that has the lines `before` in front of it, in a memory of `cells`
cells. -/
inductive Fails (cells : Nat) (before : List Line) (line : Line) : Fault.Cause → Prop where
  | unfinished {name : Token} (shape : line.tokens = ['$' :: name, ['=']]) :
      Fails cells before line .missingValue
  | overlong {name value extra : Token} {rest : List Token}
      (shape : line.tokens = ('$' :: name) :: ['='] :: value :: extra :: rest) :
      Fails cells before line (.unexpected extra)
  | nameless {value : Token} (defines : Defines line [] value) :
      Fails cells before line .missingConstantName
  | exhausted {name : Token} (defines : Defines line name allocation) (named : name ≠ [])
      (full : cells ≤ allocations before) : Fails cells before line .outOfMemory
  /-- The constant is given the value of another one, which has none. -/
  | unknownValue {name other : Token} (defines : Defines line name ('$' :: other))
      (named : name ≠ []) (unknown : ∀ value, ¬ IsValue before other value) :
      Fails cells before line (.noSuchConstant ('$' :: other))
  /-- The first token of the line that stands for nothing is a constant without a value. -/
  | unknownToken {known rest : List Token} {name : Token} (code : isDefinition line = false)
      (split : line.tokens = known ++ ('$' :: name) :: rest)
      (stands : ∀ token ∈ known, ∃ value, StandsFor before token value)
      (unknown : ∀ value, ¬ IsValue before name value) :
      Fails cells before line (.noSuchConstant ('$' :: name))

/-- The value of a constant is needed in a line: it is given to another constant, or a token of a
line that defines nothing stands for it. -/
inductive Needs (line : Line) : Token → Prop where
  | value {name other : Token} (defines : Defines line name ('$' :: other)) (named : name ≠ []) :
      Needs line other
  | token {name : Token} (code : isDefinition line = false) (mem : '$' :: name ∈ line.tokens) :
      Needs line name

/-- A line is left with the tokens that its tokens stand for. -/
def IsReplaced (before : List Line) (line left : Line) : Prop :=
  ∃ tokens, List.Forall₂ (StandsFor before) line.tokens tokens ∧
    left = line.withContents (Token.join tokens)

section

variable {cells : Nat} {table next : Table} {before lines kept own : List Line} {line left : Line}
  {name value : Token} {cause : Fault.Cause} {fault : Fault}

/-! ## One line -/

/-- The faults of a line by what its tokens say. -/
theorem fails_iff :
    Fails cells before line cause ↔
      match Statement.ofTokens line.tokens with
      | .unfinished => cause = .missingValue
      | .overlong extra => cause = .unexpected extra
      | .definition name value =>
        name = [] ∧ cause = .missingConstantName ∨
        name ≠ [] ∧ value = allocation ∧ cells ≤ allocations before ∧ cause = .outOfMemory ∨
        name ≠ [] ∧ ∃ other, value = '$' :: other ∧ (∀ known, ¬ IsValue before other known) ∧
          cause = .noSuchConstant value
      | .code tokens =>
        ∃ known token rest, tokens = known ++ token :: rest ∧
          (∀ token ∈ known, ∃ value, StandsFor before token value) ∧
          ∃ name, token = '$' :: name ∧ (∀ value, ¬ IsValue before name value) ∧
            cause = .noSuchConstant token := by
  constructor
  · intro h
    -- each fault fixes the shape of the statement
    cases h with
    | unfinished shape => rw [Statement.ofTokens_eq_unfinished_iff.mpr ⟨_, shape⟩]
    | overlong shape => rw [Statement.ofTokens_eq_overlong_iff.mpr ⟨_, _, _, shape⟩]
    | nameless defines =>
        rw [defines_iff.mp defines]
        exact .inl ⟨rfl, rfl⟩
    | exhausted defines named full =>
        rw [defines_iff.mp defines]
        exact .inr (.inl ⟨named, rfl, full, rfl⟩)
    | unknownValue defines named unknown =>
        rw [defines_iff.mp defines]
        exact .inr (.inr ⟨named, _, rfl, unknown, rfl⟩)
    | unknownToken code split stands unknown =>
        rw [ofTokens_of_not_isDefinition code]
        exact ⟨_, _, _, split, stands, _, rfl, unknown, rfl⟩
  · intro h
    -- the shape leaves only the faults of its own
    cases hstatement : Statement.ofTokens line.tokens with
    | unfinished =>
        rw [hstatement] at h
        obtain rfl := h
        obtain ⟨name, shape⟩ := Statement.ofTokens_eq_unfinished_iff.mp hstatement
        exact .unfinished shape
    | overlong extra =>
        rw [hstatement] at h
        obtain rfl := h
        obtain ⟨name, value, rest, shape⟩ := Statement.ofTokens_eq_overlong_iff.mp hstatement
        exact .overlong shape
    | definition name value =>
        rw [hstatement] at h
        have defines := defines_iff.mpr hstatement
        rcases h with ⟨rfl, rfl⟩ | ⟨named, rfl, full, rfl⟩ | ⟨named, other, rfl, unknown, rfl⟩
        · exact .nameless defines
        · exact .exhausted defines named full
        · exact .unknownValue defines named unknown
    | code tokens =>
        rw [hstatement] at h
        obtain ⟨known, _, rest, rfl, stands, name, rfl, unknown, rfl⟩ := h
        exact .unknownToken (isDefinition_of_ofTokens_code hstatement)
          (Statement.tokens_of_code hstatement).symm stands unknown

theorem Table.define_eq_error_iff :
    table.define cells name value = .error cause ↔
      value = allocation ∧ cells ≤ table.nextCell ∧ cause = .outOfMemory ∨
        value ≠ allocation ∧ table.resolve value = .error cause := by
  unfold Table.define
  by_cases hvalue : value = allocation
  · rw [if_pos hvalue]
    by_cases hcell : table.nextCell < cells
    · rw [if_pos hcell]
      simp [hvalue, Nat.not_le.mpr hcell]
    · rw [if_neg hcell]
      simp [hvalue, Nat.not_lt.mp hcell, eq_comm]
  · rw [if_neg hvalue, Failure.bind_iff]
    simp [hvalue, pure, Except.pure]

/-- What a definition comes to if a warning does not end the work. -/
theorem result_process {policy : Policy}
    (hwarning : policy.ends [] (.inLine line (.constantRedefined name)) = false ∨
      table.isDefined name = false) :
    (process policy cells table line name value).result =
      if name = [] then .error (.inLine line .missingConstantName)
      else line.check (table.define cells name value) := by
  unfold process
  by_cases hname : name = []
  · rw [if_pos hname, if_pos hname]
    rfl
  · rw [if_neg hname, if_neg hname]
    by_cases hdefined : table.isDefined name = true
    · rw [if_pos hdefined]
      rcases hwarning with hgoesOn | hfresh
      · rw [Report.warn, if_neg (by simp [hgoesOn])]
        rfl
      · rw [hdefined] at hfresh
        cases hfresh
    · rw [if_neg hdefined]
      rfl

/-- The pass stops at a line exactly when something is wrong with it. -/
theorem Describes.advance_eq_error_iff (h : Describes table before) :
    (advance .collect cells table line).result = .error fault ↔
      ∃ cause, Fails cells before line cause ∧ fault = .inLine line cause := by
  simp only [fails_iff]
  cases hstatement : Statement.ofTokens line.tokens with
  | unfinished =>
      rw [advance_of_unfinished hstatement]
      simp [Report.fail, eq_comm]
  | overlong extra =>
      rw [advance_of_overlong hstatement]
      simp [Report.fail, eq_comm]
  | definition name value =>
      rw [advance_of_definition hstatement, Report.bind_pure_comp, Failure.map_iff,
        result_process (.inl rfl)]
      by_cases hname : name = []
      · simp [hname, eq_comm]
      · -- an allocation is no reference, so it can only run out of memory
        rw [if_neg hname, Failure.check_iff]
        simp only [Table.define_eq_error_iff, h.resolve_eq_error_iff, h.nextCell]
        refine exists_congr fun cause => and_congr_left fun _ => ?_
        simp only [hname, false_and, false_or, ne_eq, not_false_eq_true, true_and]
        refine or_congr_right (and_iff_right_of_imp ?_)
        rintro ⟨other, rfl, -⟩
        simp [allocation]
  | code tokens =>
      rw [advance_of_code hstatement, Report.bind_pure_comp, Failure.map_iff]
      show line.check _ = _ ↔ _
      simp only [Failure.check_iff, Failure.mapM_iff, h.resolve_eq_ok_iff, h.resolve_eq_error_iff]

/-- What is left of a line that the pass goes past. -/
theorem Describes.left_of_advance (h : Describes table before)
    (hline : (advance .collect cells table line).result = .ok (next, own)) :
    if isDefinition line then own = []
    else ∃ left, own = [left] ∧ ∀ other, IsReplaced before line other ↔ other = left := by
  cases hstatement : Statement.ofTokens line.tokens with
  | unfinished => rw [advance_of_unfinished hstatement] at hline; cases hline
  | overlong extra => rw [advance_of_overlong hstatement] at hline; cases hline
  | definition name value =>
      rw [advance_of_definition hstatement] at hline
      obtain ⟨_, -, hline⟩ := Success.andThen_iff.mp hline
      obtain ⟨-, rfl⟩ := Prod.mk.inj (Except.ok.inj hline)
      rw [if_pos (defines_iff.mpr hstatement).isDefinition]
  | code tokens =>
      rw [advance_of_code hstatement] at hline
      obtain ⟨resolved, hresolved, hline⟩ := Success.andThen_iff.mp hline
      obtain ⟨-, rfl⟩ := Prod.mk.inj (Except.ok.inj hline)
      obtain rfl := Statement.tokens_of_code hstatement
      replace hresolved := Success.check_iff.mp hresolved
      rw [if_neg (by simp [isDefinition_of_ofTokens_code hstatement])]
      refine ⟨_, rfl, fun other => ?_⟩
      simp only [IsReplaced, ← h.mapM_resolve_eq_ok_iff, hresolved, Except.ok.injEq,
        exists_eq_left']

/-! ## All lines -/

/-- The pass goes past lines with nothing wrong, and replaces those that are no definitions. -/
theorem Describes.replaceFrom_eq_ok_iff (h : Describes table before) :
    (replaceFrom .collect cells table lines).result = .ok kept ↔
      (∀ place ∈ placed before lines, ∀ cause, ¬ Fails cells place.1 place.2 cause) ∧
        List.Forall₂ (fun place left => IsReplaced place.1 place.2 left)
          ((placed before lines).filter fun place => !isDefinition place.2) kept := by
  induction lines generalizing table before kept with
  | nil =>
      rw [replaceFrom, placed, List.filter_nil, List.forall₂_nil_left_iff, Report.pure_eq,
        Except.ok.injEq, eq_comm]
      simp
  | cons line lines ih =>
      rw [placed, List.forall_mem_cons, replaceFrom_cons, Report.bind_eq, Success.andThen_iff]
      cases hline : (advance .collect cells table line).result with
      | error fault =>
          obtain ⟨cause, hfails, -⟩ := h.advance_eq_error_iff.mp hline
          refine iff_of_false (by simp) ?_
          rintro ⟨⟨hnone, -⟩, -⟩
          exact hnone cause hfails
      | ok step =>
          obtain ⟨next, own⟩ := step
          -- no fault is left for this line; what it leaves depends on whether it is a definition
          have hnone : ∀ cause, ¬ Fails cells before line cause := fun cause hfails => by
            rw [h.advance_eq_error_iff.mpr ⟨cause, hfails, rfl⟩] at hline
            cases hline
          have hleft := h.left_of_advance hline
          simp only [Except.ok.injEq, exists_eq_left', Report.bind_eq, Success.andThen_iff,
            Report.pure_eq, Policy.after_collect, ih (h.of_advance hline)]
          by_cases hdefinition : isDefinition line = true
          · rw [if_pos hdefinition] at hleft
            rw [List.filter_cons_of_neg (by simp [hdefinition])]
            simp [hleft, hnone]
          · rw [if_neg hdefinition] at hleft
            obtain ⟨left, rfl, hleft⟩ := hleft
            rw [List.filter_cons_of_pos (by simp [hdefinition]), List.forall₂_cons_left_iff]
            simp only [hleft, List.singleton_append]
            constructor
            · rintro ⟨rest, ⟨hrest, hkept⟩, rfl⟩
              exact ⟨⟨hnone, hrest⟩, left, rest, rfl, hkept, rfl⟩
            · rintro ⟨⟨-, hrest⟩, _, rest, rfl, hkept, rfl⟩
              exact ⟨rest, ⟨hrest, hkept⟩, rfl⟩

/-- The pass stops at the first line with something wrong. -/
theorem Describes.replaceFrom_eq_error_iff (h : Describes table before) :
    (replaceFrom .collect cells table lines).result = .error fault ↔
      ∃ front line back cause, lines = front ++ line :: back ∧
        (∀ place ∈ placed before front, ∀ cause, ¬ Fails cells place.1 place.2 cause) ∧
        Fails cells (before ++ front) line cause ∧ fault = .inLine line cause := by
  induction lines generalizing table before with
  | nil => simp [replaceFrom]
  | cons first lines ih =>
      rw [replaceFrom_cons, Report.bind_eq, Failure.andThen_iff]
      -- the first line is at fault, or it is not and the first fault is in a line behind it
      constructor
      · rintro (hline | ⟨⟨next, own⟩, hline, hlines⟩)
        · obtain ⟨cause, hfails, rfl⟩ := h.advance_eq_error_iff.mp hline
          exact ⟨[], first, lines, cause, rfl, List.forall_mem_nil _,
            by rwa [List.append_nil], rfl⟩
        · rw [Report.bind_pure_comp, Failure.map_iff, Policy.after_collect,
            ih (h.of_advance hline)] at hlines
          obtain ⟨front, line, back, cause, rfl, hfront, hfails, rfl⟩ := hlines
          refine ⟨first :: front, line, back, cause, rfl, ?_, ?_, rfl⟩
          · refine List.forall_mem_cons.mpr ⟨fun cause hfirst => ?_, hfront⟩
            rw [h.advance_eq_error_iff.mpr ⟨cause, hfirst, rfl⟩] at hline
            cases hline
          · rwa [List.append_assoc] at hfails
      · rintro ⟨front, line, back, cause, hsplit, hfront, hfails, rfl⟩
        cases front with
        | nil =>
            obtain ⟨rfl, rfl⟩ := List.cons.inj hsplit
            rw [List.append_nil] at hfails
            exact .inl (h.advance_eq_error_iff.mpr ⟨cause, hfails, rfl⟩)
        | cons _ front =>
            obtain ⟨rfl, rfl⟩ := List.cons.inj hsplit
            obtain ⟨hnone, hfront⟩ := List.forall_mem_cons.mp hfront
            cases hline : (advance .collect cells table first).result with
            | error fault =>
                obtain ⟨cause, hfirst, -⟩ := h.advance_eq_error_iff.mp hline
                exact absurd hfirst (hnone cause)
            | ok step =>
                refine .inr ⟨step, rfl, ?_⟩
                rw [Report.bind_pure_comp, Failure.map_iff, Policy.after_collect,
                  ih (h.of_advance hline)]
                exact ⟨front, line, back, cause, rfl, hfront, by rwa [List.append_assoc], rfl⟩

end

/-! ## The codes of the faults -/

section

variable {cells : Nat} {before : List Line} {line : Line} {cause : Fault.Cause}

theorem Defines.needs_iff {name value other : Token} (h : Defines line name value) :
    Needs line other ↔ name ≠ [] ∧ value = '$' :: other := by
  constructor
  · intro hneeds
    cases hneeds with
    | value defines named =>
        obtain ⟨rfl, rfl⟩ := h.unique defines
        exact ⟨named, rfl⟩
    | token code mem =>
        rw [h.isDefinition] at code
        cases code
  · rintro ⟨hname, rfl⟩
    exact .value h hname

/-- A line that begins like a definition and is none needs no value. -/
theorem not_needs (hline : isDefinition line = true)
    (hnone : ∀ name value, ¬ Defines line name value) (name : Token) : ¬ Needs line name := by
  intro h
  cases h with
  | value defines named => exact hnone _ _ defines
  | token code mem =>
      rw [hline] at code
      cases code

/-- The fault names a missing value exactly where the line needs one that there is not. -/
theorem Fails.code_eq_noSuchConstant_iff (h : Fails cells before line cause) :
    cause.code = .noSuchConstant ↔
      ∃ name, Needs line name ∧ ∀ value, ¬ IsValue before name value := by
  cases h with
  | unfinished shape =>
      refine iff_of_false (by decide) ?_
      rintro ⟨name, hname, -⟩
      exact not_needs (by simp [isDefinition, shape]) (by simp [Defines, shape]) name hname
  | overlong shape =>
      refine iff_of_false (by simp [Fault.Cause.code]) ?_
      rintro ⟨name, hname, -⟩
      exact not_needs (by simp [isDefinition, shape]) (by simp [Defines, shape]) name hname
  | nameless defines =>
      refine iff_of_false (by decide) ?_
      rintro ⟨_, hneeds, -⟩
      exact (defines.needs_iff.mp hneeds).1 rfl
  | exhausted defines named full =>
      refine iff_of_false (by decide) ?_
      rintro ⟨_, hneeds, -⟩
      exact absurd (defines.needs_iff.mp hneeds).2 (by simp [allocation])
  | unknownValue defines named unknown =>
      exact iff_of_true rfl ⟨_, .value defines named, unknown⟩
  | unknownToken code split stands unknown =>
      exact iff_of_true rfl ⟨_, .token code (by simp [split]), unknown⟩

/-- The fault is a lack of memory exactly where the line allocates a cell and all are used up. -/
theorem Fails.code_eq_outOfMemory_iff (h : Fails cells before line cause) :
    cause.code = .outOfMemory ↔
      ∃ name, name ≠ [] ∧ Defines line name allocation ∧ cells ≤ allocations before := by
  cases h with
  | unfinished shape =>
      refine iff_of_false (by decide) ?_
      rintro ⟨_, _, hdefines, -⟩
      simp [Defines, shape] at hdefines
  | overlong shape =>
      refine iff_of_false (by simp [Fault.Cause.code]) ?_
      rintro ⟨_, _, hdefines, -⟩
      simp [Defines, shape] at hdefines
  | nameless defines =>
      refine iff_of_false (by decide) ?_
      rintro ⟨_, named, hdefines, -⟩
      exact named (hdefines.unique defines).1
  | exhausted defines named full => exact iff_of_true rfl ⟨_, named, defines, full⟩
  | unknownValue defines named unknown =>
      refine iff_of_false (by simp [Fault.Cause.code]) ?_
      rintro ⟨_, _, hdefines, -⟩
      exact absurd (hdefines.unique defines).2 (by simp [allocation])
  | unknownToken code split stands unknown =>
      refine iff_of_false (by simp [Fault.Cause.code]) ?_
      rintro ⟨_, _, hdefines, -⟩
      rw [hdefines.isDefinition] at code
      cases code

/-- What begins like a definition and is none breaks the rules of notation. -/
theorem Fails.code_mem (h : Fails cells before line cause) :
    cause.code ∈ [.noSuchConstant, .outOfMemory, .syntaxError] := by
  cases h <;> simp [Fault.Cause.code]

end

/-- **Constants are replaced by their values.** With warnings collected, the pass succeeds exactly
if nothing is wrong with any line; then the definitions are gone and every other line is left in
its order with what its tokens stand for there. Otherwise the first line with something wrong is
the fault, so a constant that has no value where it is needed is one unless an earlier line has
another. The code of the fault says which of these it is. A constant has one value at a line, and
the value needs no more looking up. -/
theorem replace_collect_iff (cells : Nat) (lines : List Line) :
    (∀ kept, (replace .collect cells lines).result = .ok kept ↔
      (∀ place ∈ placed [] lines, ∀ cause, ¬ Fails cells place.1 place.2 cause) ∧
        List.Forall₂ (fun place left => IsReplaced place.1 place.2 left)
          ((placed [] lines).filter fun place => !isDefinition place.2) kept) ∧
    (∀ fault, (replace .collect cells lines).result = .error fault ↔
      ∃ front line back cause, lines = front ++ line :: back ∧
        (∀ place ∈ placed [] front, ∀ cause, ¬ Fails cells place.1 place.2 cause) ∧
        Fails cells front line cause ∧ fault = .inLine line cause) ∧
    (∀ before line cause, Fails cells before line cause →
      (cause.code = .noSuchConstant ↔
        ∃ name, Needs line name ∧ ∀ value, ¬ IsValue before name value) ∧
      (cause.code = .outOfMemory ↔
        ∃ name, name ≠ [] ∧ Defines line name allocation ∧ cells ≤ allocations before) ∧
      cause.code ∈ [.noSuchConstant, .outOfMemory, .syntaxError]) ∧
    ∀ before name value, IsValue before name value →
      (∀ other, IsValue before name other → other = value) ∧
        value.head? ≠ some '$' ∧ value ≠ allocation := by
  refine ⟨fun kept => describes_nil.replaceFrom_eq_ok_iff,
    fun fault => describes_nil.replaceFrom_eq_error_iff, fun before line cause hfails => ?_,
    fun before name value hvalue => ?_⟩
  · exact ⟨hfails.code_eq_noSuchConstant_iff, hfails.code_eq_outOfMemory_iff, hfails.code_mem⟩
  · exact ⟨fun other hother => hother.unique hvalue, hvalue.settled⟩

/-- Another name keeps the value that a constant had when the name was given to it. -/
example :
    let line (number : Nat) (text : String) : Line := ⟨number, "sample", text, text⟩
    let code : Line := line 4 "MOV $b $a"
    (replace .collect 1 [line 1 "$a = [_]", line 2 "$b = $a", line 3 "$a = 5", code]).result
      = .ok [code.withContents "MOV [0] 5".toList] := by
  decide +kernel

end CellAsm.Constant
