import CellAsm.Pass.Label
import CellAsm.Proofs.Pass.Character
import CellAsm.Proofs.Success

set_option autoImplicit false

/-! # Label addresses count tokens

The label pass reads the tokens of a program twice: once to fill the table of labels and once to
replace them. Main statements:

* `Table.Collects`: the first reading keeps the table and the tokens behind it in step.
* `Table.address?_of_enterLines`: the address of a label is the number of tokens before its
  definition that define no label (`width`).
* `Table.kept?_of_replaceTokens`: what the second reading keeps of a line is what each of its
  tokens becomes on its own (`Table.kept?`), which is nothing exactly for a definition.
-/

namespace CellAsm

namespace Label

/-- Whether a token defines a label. -/
def isDefinition (token : Token) : Bool :=
  match ofToken? token with
  | some (.definition _) => true
  | _ => false

/-- The number of tokens that define no label. -/
def width (tokens : List Token) : Nat := tokens.countP fun token => !isDefinition token

@[simp] theorem width_append (tokens more : List Token) :
    width (tokens ++ more) = width tokens + width more :=
  List.countP_append

theorem width_cons (token : Token) (tokens : List Token) :
    width (token :: tokens) = width [token] + width tokens := by
  rw [← List.singleton_append, width_append]

theorem isDefinition_of_ofToken? {token name : Token}
    (h : ofToken? token = some (.definition name)) : isDefinition token = true := by
  rw [isDefinition, h]

theorem width_of_isDefinition {token : Token} (h : isDefinition token = true) :
    width [token] = 0 := by
  simp [width, h]

theorem width_of_not_isDefinition {token : Token} (h : isDefinition token = false) :
    width [token] = 1 := by
  simp [width, h]

theorem ofToken?_colon_cons (name : Token) : ofToken? (':' :: name) = some (.reference name) := rfl

/-- A token without a colon at either end is no label. -/
theorem ofToken?_eq_none {token : Token} (hhead : token.head? ≠ some ':')
    (hlast : token.getLast? ≠ some ':') : ofToken? token = none := by
  unfold ofToken?
  split
  · exact absurd rfl hhead
  · rw [if_neg hlast]

/-! ## The labels that tokens define -/

/-- The token `name:` defines the label. -/
def Defines (token name : Token) : Prop := token = name ++ [':'] ∧ token.head? ≠ some ':'

/-- The token `:name` refers to the label. -/
def Refers (token name : Token) : Prop := token = ':' :: name

/-- One of the tokens defines the label. -/
def IsDefined (tokens : List Token) (name : Token) : Prop := ∃ token ∈ tokens, Defines token name

/-- No two of the tokens define the same label. -/
def AreDistinct (tokens : List Token) : Prop :=
  tokens.Pairwise fun token later => ∀ name, Defines token name → ¬ Defines later name

/-- The label is defined behind tokens of which `address` define no label. -/
def IsDefinedAt (tokens : List Token) (name : Token) (address : Nat) : Prop :=
  ∃ front token back, tokens = front ++ token :: back ∧ Defines token name ∧ address = width front

section

variable {token name : Token} {before : List Token} {address : Nat}

theorem ofToken?_eq_definition_iff :
    ofToken? token = some (.definition name) ↔ Defines token name := by
  unfold ofToken? Defines
  split
  · simp
  · next hother =>
    have hhead : token.head? ≠ some ':' := fun hhead => by
      obtain ⟨rest, rfl⟩ := List.head?_eq_some_iff.mp hhead
      exact hother rest rfl
    rw [and_iff_left hhead]
    constructor
    · intro h
      split at h
      · next hlast =>
        obtain rfl := Label.definition.inj (Option.some.inj h)
        exact (List.dropLast_append_getLast? _ hlast).symm
      · cases h
    · rintro rfl
      rw [if_pos List.getLast?_concat, List.dropLast_concat]

theorem ofToken?_append_colon (h : name.head? ≠ some ':') (hne : name ≠ []) :
    ofToken? (name ++ [':']) = some (.definition name) := by
  obtain ⟨c, rest, rfl⟩ := List.exists_cons_of_ne_nil hne
  exact ofToken?_eq_definition_iff.mpr ⟨rfl, h⟩

theorem ofToken?_eq_reference_iff :
    ofToken? token = some (.reference name) ↔ Refers token name := by
  unfold ofToken? Refers
  split
  · simp
  · next hother =>
    refine iff_of_false (fun h => ?_) (hother name)
    split at h <;> cases h

theorem isDefinition_iff : isDefinition token = true ↔ ∃ name, Defines token name := by
  simp only [← ofToken?_eq_definition_iff]
  unfold isDefinition
  split
  · next name htoken => simp [htoken]
  · next hother => simpa using fun name htoken => hother name htoken

theorem Defines.unique {other : Token} (h : Defines token name) (h' : Defines token other) :
    name = other :=
  List.append_cancel_right (h.1.symm.trans h'.1)

theorem isDefined_iff_exists_isDefinedAt :
    IsDefined before name ↔ ∃ address, IsDefinedAt before name address := by
  constructor
  · rintro ⟨token, hmem, hdefines⟩
    obtain ⟨front, back, hsplit⟩ := List.append_of_mem hmem
    exact ⟨_, front, token, back, hsplit, hdefines, rfl⟩
  · rintro ⟨_, front, token, back, rfl, hdefines, -⟩
    exact ⟨token, by simp, hdefines⟩

/-- One more token can be a definition. -/
theorem isDefinedAt_concat_iff :
    IsDefinedAt (before ++ [token]) name address ↔
      IsDefinedAt before name address ∨ Defines token name ∧ address = width before := by
  constructor
  · rintro ⟨front, found, back, hsplit, hdefines, haddress⟩
    rcases concat_eq_append_cons_iff.mp hsplit with ⟨rfl, rfl, -⟩ | ⟨rest, -, rfl⟩
    · exact .inr ⟨hdefines, haddress⟩
    · exact .inl ⟨front, found, rest, rfl, hdefines, haddress⟩
  · rintro (⟨front, found, back, rfl, hdefines, haddress⟩ | ⟨hdefines, haddress⟩)
    · exact ⟨front, found, back ++ [token], by simp, hdefines, haddress⟩
    · exact ⟨before, token, [], rfl, hdefines, haddress⟩

/-- One more token must not define a label again. -/
theorem areDistinct_concat_iff :
    AreDistinct (before ++ [token]) ↔
      AreDistinct before ∧ ∀ name, Defines token name → ¬ IsDefined before name := by
  rw [AreDistinct, List.pairwise_append]
  refine and_congr_right fun _ => ?_
  simp only [List.pairwise_singleton, List.mem_singleton, forall_eq, true_and]
  exact ⟨fun h name hdefines ⟨earlier, hmem, hearlier⟩ => h earlier hmem name hearlier hdefines,
    fun h earlier hmem name hearlier hdefines => h name hdefines ⟨earlier, hmem, hearlier⟩⟩

end

namespace Table

/-! ## The first reading -/

/-- The table holds the labels that the tokens `before` define. Its position is the number of these
tokens, and as many of them as there are labels in the table are definitions. -/
structure Collects (table : Table) (before : List Token) : Prop where
  distinct : AreDistinct before
  addresses : ∀ name address, table.address? name = some address ↔ IsDefinedAt before name address
  position : table.position = before.length
  count : width before + table.addresses.length = before.length

section

variable {table next : Table} {before tokens : List Token} {token name : Token}
  {cause : Fault.Cause}

theorem collects_nil : Collects {} [] where
  distinct := List.Pairwise.nil
  addresses name address := iff_of_false (by simp [address?]) (by simp [IsDefinedAt])
  position := rfl
  count := rfl

namespace Collects

theorem address?_isSome_iff (h : table.Collects before) :
    (table.address? name).isSome = true ↔ IsDefined before name := by
  rw [isDefined_iff_exists_isDefinedAt, Option.isSome_iff_exists]
  exact exists_congr (h.addresses name)

/-- A token is at fault if it defines a label again. -/
theorem enter_eq_error_iff (h : table.Collects before) :
    table.enter token = .error cause ↔
      ∃ name, Defines token name ∧ IsDefined before name ∧ cause = .labelRedefined name := by
  simp only [← ofToken?_eq_definition_iff, ← h.address?_isSome_iff]
  unfold enter
  -- only a definition can be at fault, and only one of a label that the table has
  split
  · next name htoken =>
    split
    · next hdefined =>
      constructor
      · intro h
        exact ⟨name, htoken, hdefined, (Except.error.inj h).symm⟩
      · rintro ⟨other, hother, -, rfl⟩
        rw [Label.definition.inj (Option.some.inj (htoken.symm.trans hother))]
    · next hfresh =>
      refine iff_of_false (by simp) ?_
      rintro ⟨other, hother, hdefined, -⟩
      rw [← Label.definition.inj (Option.some.inj (htoken.symm.trans hother))] at hdefined
      exact hfresh hdefined
  · next hother =>
    refine iff_of_false (by simp) ?_
    rintro ⟨name, htoken, -⟩
    exact hother name htoken

/-- The position less the number of labels is the number of tokens that define none. -/
theorem sub_eq_width (h : table.Collects before) :
    table.position - table.addresses.length = width before := by
  have hcount := h.count
  rw [h.position]
  omega

/-- A new definition gets the number of tokens that define no label. -/
theorem of_definition (h : table.Collects before) (hdefines : Defines token name)
    (hfresh : ¬ IsDefined before name) :
    Collects ⟨(name, table.position - table.addresses.length) :: table.addresses,
      table.position + 1⟩ (before ++ [token]) where
  distinct := by
    refine areDistinct_concat_iff.mpr ⟨h.distinct, fun other hother => ?_⟩
    rwa [hother.unique hdefines]
  addresses other address := by
    rw [isDefinedAt_concat_iff, address?, List.lookup_cons]
    by_cases hname : other = name
    · -- the label of this token is in no earlier one, so its address is the new one
      subst hname
      have hnone : ¬ IsDefinedAt before other address := fun hat =>
        hfresh (isDefined_iff_exists_isDefinedAt.mpr ⟨address, hat⟩)
      rw [beq_self_eq_true, or_iff_right hnone, and_iff_right hdefines, h.sub_eq_width]
      simp [eq_comm]
    · rw [beq_false_of_ne hname, or_iff_left fun hother => hname (hother.1.unique hdefines)]
      exact h.addresses other address
  position := by rw [h.position, List.length_append, List.length_singleton]
  count := by
    have hcount := h.count
    rw [width_append, width_of_isDefinition (isDefinition_iff.mpr ⟨_, hdefines⟩)]
    simp only [List.length_cons, List.length_append, List.length_nil]
    omega

/-- A token that defines nothing moves the position only. -/
theorem of_not_defines (h : table.Collects before) (hplain : ∀ name, ¬ Defines token name) :
    Collects { table with position := table.position + 1 } (before ++ [token]) where
  distinct := areDistinct_concat_iff.mpr
    ⟨h.distinct, fun name hdefines => absurd hdefines (hplain name)⟩
  addresses other address := by
    rw [isDefinedAt_concat_iff, or_iff_left fun hother => hplain other hother.1]
    exact h.addresses other address
  position := by rw [h.position, List.length_append, List.length_singleton]
  count := by
    have hcount := h.count
    have hnot : isDefinition token = false := by
      refine Bool.eq_false_iff.mpr fun hdefinition => ?_
      obtain ⟨name, hdefines⟩ := isDefinition_iff.mp hdefinition
      exact hplain name hdefines
    rw [width_append, width_of_not_isDefinition hnot]
    simp only [List.length_append, List.length_cons, List.length_nil]
    omega

/-- **A token turns the table into the one behind it.** -/
theorem of_enter (h : table.Collects before) (hnext : table.enter token = .ok next) :
    next.Collects (before ++ [token]) := by
  unfold enter at hnext
  split at hnext
  · next name htoken =>
    split at hnext
    · cases hnext
    · next hfresh =>
      obtain rfl := Except.ok.inj hnext
      rw [h.address?_isSome_iff] at hfresh
      exact h.of_definition (ofToken?_eq_definition_iff.mp htoken) hfresh
  · next hother =>
    obtain rfl := Except.ok.inj hnext
    exact h.of_not_defines fun name hdefines =>
      hother name (ofToken?_eq_definition_iff.mpr hdefines)

/-- Behind many tokens the table holds the labels that all of them define. -/
theorem of_foldlM (h : table.Collects before) (hnext : tokens.foldlM enter table = .ok next) :
    next.Collects (before ++ tokens) := by
  induction tokens generalizing table before with
  | nil =>
      obtain rfl := Success.pure_iff.mp hnext
      rwa [List.append_nil]
  | cons token tokens ih =>
      rw [List.foldlM_cons] at hnext
      obtain ⟨middle, hmiddle, hnext⟩ := Success.bind_iff.mp hnext
      have hlast := ih (h.of_enter hmiddle) hnext
      rwa [List.append_assoc] at hlast

end Collects

end

/-- The tokens of a program in reading order. -/
def stream (lines : List Line) : List Token := lines.flatMap Line.tokens

@[simp] theorem stream_nil : stream [] = [] := rfl

@[simp] theorem stream_cons (line : Line) (lines : List Line) :
    stream (line :: lines) = line.tokens ++ stream lines :=
  List.flatMap_cons

@[simp] theorem stream_append (lines more : List Line) :
    stream (lines ++ more) = stream lines ++ stream more :=
  List.flatMap_append

/-- The lines only matter through the stream of their tokens. -/
theorem enterLines_eq_ok_iff {lines : List Line} {table final : Table} :
    table.enterLines lines = .ok final ↔ (stream lines).foldlM enter table = .ok final := by
  induction lines generalizing table with
  | nil =>
      rw [enterLines, stream_nil, List.foldlM_nil, Success.pure_iff, Except.ok.injEq]
  | cons line lines ih =>
      rw [enterLines, stream_cons, List.foldlM_append, Success.bind_iff, Success.bind_iff]
      simp only [Success.check_iff, ih]

theorem collects_of_enterLines {lines : List Line} {labels : Table}
    (h : ({} : Table).enterLines lines = .ok labels) : labels.Collects (stream lines) :=
  collects_nil.of_foldlM (enterLines_eq_ok_iff.mp h)

/-- **A label stands for the number of tokens before its definition that define no label.** -/
theorem address?_of_enterLines {lines : List Line} {labels : Table}
    (h : ({} : Table).enterLines lines = .ok labels) {before after : List Token}
    {token name : Token} (hsplit : stream lines = before ++ token :: after)
    (htoken : ofToken? token = some (.definition name)) :
    labels.address? name = some (width before) :=
  ((collects_of_enterLines h).addresses name _).mpr
    ⟨before, token, after, hsplit, ofToken?_eq_definition_iff.mp htoken, rfl⟩

/-! ## The second reading -/

/-- What remains of a token: nothing of a definition, the address in the place of a reference,
and any other token itself. -/
def kept? (table : Table) (token : Token) : Option Token :=
  match ofToken? token with
  | some (.definition _) => none
  | some (.reference name) => (table.address? name).map Text.decimal
  | none => some token

theorem kept?_reference {table : Table} {name : Token} {address : Nat}
    (h : table.address? name = some address) :
    table.kept? (':' :: name) = some (Text.decimal address) := by
  rw [kept?, ofToken?_colon_cons]
  simp [h]

theorem kept?_of_ofToken?_eq_none {table : Table} {token : Token} (h : ofToken? token = none) :
    table.kept? token = some token := by
  rw [kept?, h]

/-- What remains of tokens is what remains of each of them, and only definitions vanish. -/
theorem kept?_of_replaceTokens {table : Table} {tokens kept : List Token}
    (h : table.replaceTokens tokens = .ok kept) :
    kept = tokens.filterMap table.kept? ∧
      ∀ token ∈ tokens, table.kept? token = none ↔ isDefinition token = true := by
  induction tokens generalizing kept with
  | nil =>
      injection h with h
      exact ⟨h.symm, by simp⟩
  | cons token tokens ih =>
      unfold replaceTokens at h
      split at h
      -- a definition leaves nothing, a reference its address, any other token itself
      · next name htoken =>
        obtain ⟨hkept, hnone⟩ := ih h
        have htoken' : table.kept? token = none := by rw [kept?, htoken]
        refine ⟨by rw [List.filterMap_cons_none htoken', hkept], ?_⟩
        rw [List.forall_mem_cons]
        exact ⟨iff_of_true htoken' (isDefinition_of_ofToken? htoken), hnone⟩
      · next name htoken =>
        split at h
        · exact absurd h (by simp)
        · next address haddress =>
          obtain ⟨rest, hrest, h⟩ := Success.bind_iff.mp h
          obtain rfl := Success.pure_iff.mp h
          obtain ⟨hkept, hnone⟩ := ih hrest
          have htoken' : table.kept? token = some (Text.decimal address) := by
            rw [kept?, htoken]
            simp [haddress]
          refine ⟨by rw [List.filterMap_cons_some htoken', hkept], ?_⟩
          rw [List.forall_mem_cons]
          exact ⟨by simp [htoken', isDefinition, htoken], hnone⟩
      · next htoken =>
        obtain ⟨rest, hrest, h⟩ := Success.bind_iff.mp h
        obtain rfl := Success.pure_iff.mp h
        obtain ⟨hkept, hnone⟩ := ih hrest
        have htoken' : table.kept? token = some token := kept?_of_ofToken?_eq_none htoken
        refine ⟨by rw [List.filterMap_cons_some htoken', hkept], ?_⟩
        rw [List.forall_mem_cons]
        exact ⟨by simp [htoken', isDefinition, htoken], hnone⟩

theorem isProper_of_kept? {table : Table} {token kept : Token} (htoken : token.IsProper)
    (h : table.kept? token = some kept) : kept.IsProper := by
  unfold kept? at h
  split at h
  · exact absurd h (by simp)
  · obtain ⟨address, -, rfl⟩ := Option.map_eq_some_iff.mp h
    exact Character.isProper_decimal address
  · injection h with h
    exact h ▸ htoken

theorem isProper_of_mem_kept {table : Table} {line : Line} {kept : List Token}
    (h : table.replaceTokens line.tokens = .ok kept) : ∀ token ∈ kept, token.IsProper := by
  obtain ⟨rfl, -⟩ := kept?_of_replaceTokens h
  intro token hmem
  obtain ⟨source, hsource, hkept⟩ := List.mem_filterMap.mp hmem
  exact isProper_of_kept? (Token.isProper_of_mem_scan hsource) hkept

end Table

end Label

end CellAsm
