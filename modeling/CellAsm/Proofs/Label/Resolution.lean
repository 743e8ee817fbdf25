import CellAsm.Proofs.Pass.Label

set_option autoImplicit false

/-! # Labels are resolved

A label is resolved by looking at all tokens of a program: it stands for the number of tokens in
front of its definition that define no label (`Becomes`). The pass reads the tokens twice. The first
reading fails at the first definition of a label that is defined already. The second one is only
made if there is none; it fails at the first reference to a label that is not defined, and otherwise
leaves the lines without definitions (`IsLeft`). The addresses are counted along the way, and the
count is always the number of tokens behind less the number of labels in the table
(`replace_iff`).
-/

namespace CellAsm.Label

/-! ## What is left of a program -/

/-- What a token stands for in a program with the tokens `all`. -/
inductive Becomes (all : List Token) : Token → Token → Prop where
  | reference {name : Token} {address : Nat} (defined : IsDefinedAt all name address) :
      Becomes all (':' :: name) (Text.decimal address)
  | other {token : Token} (plain : token.head? ≠ some ':') : Becomes all token token

/-- Whether a line has a token that defines no label. -/
def hasCode (line : Line) : Bool := line.tokens.any fun token => !isDefinition token

/-- A line is left with what those of its tokens stand for that define no label. -/
def IsLeft (all : List Token) (line left : Line) : Prop :=
  ∃ tokens,
    List.Forall₂ (Becomes all) (line.tokens.filter fun token => !isDefinition token) tokens ∧
      left = line.withContents (Token.join tokens)

namespace Table

/-! ## The second reading, token by token -/

/-- What the second reading makes of a token that defines no label. -/
def resolve (table : Table) (token : Token) : Except Fault.Cause Token :=
  match ofToken? token with
  | some (.reference name) =>
    match table.address? name with
    | some address => .ok (Text.decimal address)
    | none => .error (.noSuchLabel name)
  | _ => .ok token

/-- What the second reading makes of a line. -/
def resolveLine (table : Table) (line : Line) : Except Fault Line :=
  line.check <|
    (table.replaceTokens line.tokens).map fun tokens => line.withContents (Token.join tokens)

section

variable {table : Table} {all : List Token} {token left name : Token} {cause : Fault.Cause}

/-- The second reading goes over the definitions. -/
theorem replaceTokens_eq_mapM (table : Table) (tokens : List Token) :
    table.replaceTokens tokens
      = (tokens.filter fun token => !isDefinition token).mapM table.resolve := by
  induction tokens with
  | nil => rfl
  | cons token tokens ih =>
      rw [replaceTokens]
      split
      · next name htoken =>
        rw [List.filter_cons_of_neg (by simp [isDefinition_of_ofToken? htoken]), ih]
      · next name htoken =>
        have hplain : isDefinition token = false := by rw [isDefinition, htoken]
        rw [List.filter_cons_of_pos (by rw [hplain]; rfl), List.mapM_cons, resolve, htoken]
        dsimp only
        cases table.address? name with
        | none => rfl
        | some address => rw [ih]; rfl
      · next htoken =>
        have hplain : isDefinition token = false := by rw [isDefinition, htoken]
        rw [List.filter_cons_of_pos (by rw [hplain]; rfl), List.mapM_cons, resolve, htoken, ih]
        rfl

/-- The second reading drops the lines in which there are only definitions. -/
theorem replaceLines_eq_mapM (table : Table) (lines : List Line) :
    table.replaceLines lines = (lines.filter hasCode).mapM table.resolveLine := by
  induction lines with
  | nil => rfl
  | cons line lines ih =>
      rw [replaceLines, ih]
      by_cases hcode : hasCode line = true
      · rw [List.filter_cons_of_pos hcode, List.mapM_cons, resolveLine]
        cases htokens : table.replaceTokens line.tokens with
        | error cause => rfl
        | ok tokens =>
            -- something is left of a line with code, as every token of it gives one
            have hne : tokens ≠ [] := by
              rintro rfl
              rw [replaceTokens_eq_mapM] at htokens
              have hlength := (Success.mapM_iff.mp htokens).length_eq
              rw [List.length_nil, List.length_eq_zero_iff, List.filter_eq_nil_iff] at hlength
              obtain ⟨token, hmem, htoken⟩ := List.any_eq_true.mp hcode
              exact hlength token hmem htoken
            cases (lines.filter hasCode).mapM table.resolveLine with
            | error fault => rfl
            | ok rest => exact congrArg Except.ok (if_neg hne)
      · have hnone : (line.tokens.filter fun token => !isDefinition token) = [] := by
          rw [List.filter_eq_nil_iff]
          exact fun token hmem htoken => hcode (List.any_eq_true.mpr ⟨token, hmem, htoken⟩)
        rw [List.filter_cons_of_neg hcode, replaceTokens_eq_mapM, hnone]
        cases (lines.filter hasCode).mapM table.resolveLine with
        | error fault => rfl
        | ok rest => rfl

theorem Collects.resolve_eq_ok_iff (h : table.Collects all) :
    table.resolve token = .ok left ↔ Becomes all token left := by
  unfold resolve
  split
  · next name htoken =>
    obtain rfl := ofToken?_eq_reference_iff.mp htoken
    constructor
    · intro hleft
      split at hleft
      · next address haddress =>
        obtain rfl := Except.ok.inj hleft
        exact .reference ((h.addresses name address).mp haddress)
      · cases hleft
    · intro hleft
      cases hleft with
      | reference defined => rw [(h.addresses name _).mpr defined]
      | other plain => exact absurd rfl plain
  · next hother =>
    -- without a colon in front it is no reference
    have hplain : token.head? ≠ some ':' := fun hhead => by
      obtain ⟨name, rfl⟩ := List.head?_eq_some_iff.mp hhead
      exact hother name rfl
    constructor
    · intro hleft
      obtain rfl := Except.ok.inj hleft
      exact .other hplain
    · intro hleft
      cases hleft with
      | reference defined => exact absurd rfl hplain
      | other _ => rfl

theorem Collects.resolve_eq_error_iff (h : table.Collects all) :
    table.resolve token = .error cause ↔
      ∃ name, Refers token name ∧ ¬ IsDefined all name ∧ cause = .noSuchLabel name := by
  simp only [← ofToken?_eq_reference_iff, ← h.address?_isSome_iff]
  unfold resolve
  split
  · next name htoken =>
    constructor
    · intro hcause
      split at hcause
      · cases hcause
      · next haddress =>
        exact ⟨name, htoken, by simp [haddress], (Except.error.inj hcause).symm⟩
    · rintro ⟨other, hother, hnone, rfl⟩
      obtain rfl := Label.reference.inj (Option.some.inj (htoken.symm.trans hother))
      rw [Option.not_isSome_iff_eq_none.mp hnone]
  · next hother =>
    refine iff_of_false (by simp) ?_
    rintro ⟨name, htoken, -⟩
    exact hother name htoken

/-- A definition refers to no label. -/
theorem isDefinition_of_refers (h : Refers token name) : isDefinition token = false := by
  rw [isDefinition, ofToken?_eq_reference_iff.mpr h]

/-- A token gives a value unless it refers to a label that is not defined. -/
theorem Collects.exists_resolve_iff (h : table.Collects all) :
    (∃ left, table.resolve token = .ok left) ↔ ∀ name, Refers token name → IsDefined all name := by
  constructor
  · rintro ⟨left, hleft⟩ name hrefers
    by_contra hnone
    rw [h.resolve_eq_error_iff.mpr ⟨name, hrefers, hnone, rfl⟩] at hleft
    cases hleft
  · intro hdefined
    cases hresolve : table.resolve token with
    | ok left => exact ⟨left, rfl⟩
    | error cause =>
        obtain ⟨name, hrefers, hnone, -⟩ := h.resolve_eq_error_iff.mp hresolve
        exact absurd (hdefined name hrefers) hnone

/-! ## The second reading, line by line -/

variable {line kept : Line} {lines : List Line} {fault : Fault}

theorem Collects.resolveLine_eq_ok_iff (h : table.Collects all) :
    table.resolveLine line = .ok kept ↔ IsLeft all line kept := by
  have htokens : ∀ tokens, table.replaceTokens line.tokens = .ok tokens ↔
      List.Forall₂ (Becomes all) (line.tokens.filter fun token => !isDefinition token) tokens := by
    intro tokens
    rw [replaceTokens_eq_mapM, Success.mapM_iff]
    exact ⟨.imp fun _ _ => h.resolve_eq_ok_iff.mp, .imp fun _ _ => h.resolve_eq_ok_iff.mpr⟩
  rw [resolveLine, Success.check_iff, Success.map_iff]
  simp only [htokens, IsLeft, eq_comm (b := kept)]

/-- A line is at fault for its first reference to a label that is not defined. -/
theorem Collects.resolveLine_eq_error_iff (h : table.Collects all) :
    table.resolveLine line = .error fault ↔
      ∃ before name after, line.tokens = before ++ (':' :: name) :: after ∧
        (∀ token ∈ before, ∀ other, Refers token other → IsDefined all other) ∧
        ¬ IsDefined all name ∧ fault = .inLine line (.noSuchLabel name) := by
  rw [resolveLine, Failure.check_iff]
  simp only [Failure.map_iff, replaceTokens_eq_mapM, Failure.mapM_filter_iff, h.exists_resolve_iff,
    h.resolve_eq_error_iff]
  constructor
  · rintro ⟨_, ⟨before, _, after, hsplit, hbefore, -, name, rfl, hnone, rfl⟩, rfl⟩
    refine ⟨before, name, after, hsplit, fun token hmem other hrefers => ?_, hnone, rfl⟩
    exact hbefore token hmem (by rw [isDefinition_of_refers hrefers]; rfl) other hrefers
  · rintro ⟨before, name, after, hsplit, hbefore, hnone, rfl⟩
    exact ⟨_, ⟨before, _, after, hsplit, fun token hmem _ => hbefore token hmem,
      by rw [isDefinition_of_refers rfl]; rfl, name, rfl, hnone, rfl⟩, rfl⟩

theorem Collects.exists_resolveLine_iff (h : table.Collects all) :
    (∃ kept, table.resolveLine line = .ok kept) ↔
      ∀ token ∈ line.tokens, ∀ name, Refers token name → IsDefined all name := by
  constructor
  · rintro ⟨kept, hkept⟩ token hmem name hrefers
    obtain ⟨tokens, htokens, -⟩ := Success.map_iff.mp (Success.check_iff.mp hkept)
    rw [replaceTokens_eq_mapM] at htokens
    have hmem : token ∈ line.tokens.filter fun token => !isDefinition token :=
      List.mem_filter.mpr ⟨hmem, by rw [isDefinition_of_refers hrefers]; rfl⟩
    obtain ⟨left, -, hleft⟩ := Success.exists_mem_of_mapM htokens hmem
    exact h.exists_resolve_iff.mp ⟨left, hleft⟩ name hrefers
  · intro hdefined
    cases hline : table.resolveLine line with
    | ok kept => exact ⟨kept, rfl⟩
    | error fault =>
        obtain ⟨before, name, after, hsplit, -, hnone, -⟩ := h.resolveLine_eq_error_iff.mp hline
        exact absurd (hdefined (':' :: name) (by simp [hsplit]) name rfl) hnone

theorem hasCode_of_refers (hmem : token ∈ line.tokens) (h : Refers token name) :
    hasCode line = true :=
  List.any_eq_true.mpr ⟨token, hmem, by rw [isDefinition_of_refers h]; rfl⟩

/-- The second reading fails at the first reference to a label that is not defined. -/
theorem Collects.replaceLines_eq_error_iff (h : table.Collects all) :
    table.replaceLines lines = .error fault ↔
      ∃ front line back before name after, lines = front ++ line :: back ∧
        line.tokens = before ++ (':' :: name) :: after ∧
        (∀ token ∈ stream front ++ before, ∀ other, Refers token other → IsDefined all other) ∧
        ¬ IsDefined all name ∧ fault = .inLine line (.noSuchLabel name) := by
  simp only [replaceLines_eq_mapM, Failure.mapM_filter_iff, h.exists_resolveLine_iff,
    h.resolveLine_eq_error_iff]
  constructor
  · rintro ⟨front, line, back, hlines, hfront, -, before, name, after, hsplit, hbefore, h⟩
    refine ⟨front, line, back, before, name, after, hlines, hsplit, ?_, h⟩
    refine List.forall_mem_append.mpr ⟨fun token hmem other hrefers => ?_, hbefore⟩
    obtain ⟨earlier, hearlier, hmem⟩ := List.mem_flatMap.mp hmem
    exact hfront earlier hearlier (hasCode_of_refers hmem hrefers) token hmem other hrefers
  · rintro ⟨front, line, back, before, name, after, hlines, hsplit, hbefore, h⟩
    obtain ⟨hfront, hbefore⟩ := List.forall_mem_append.mp hbefore
    have hmem : (':' :: name) ∈ line.tokens := by simp [hsplit]
    refine ⟨front, line, back, hlines, fun earlier hearlier _ token hmem => ?_,
      hasCode_of_refers hmem rfl, before, name, after, hsplit, hbefore, h⟩
    exact hfront token (List.mem_flatMap.mpr ⟨earlier, hearlier, hmem⟩)

theorem Collects.exists_replaceLines_iff (h : table.Collects all) :
    (∃ kept, table.replaceLines lines = .ok kept) ↔
      ∀ token ∈ stream lines, ∀ name, Refers token name → IsDefined all name := by
  constructor
  · rintro ⟨kept, hkept⟩ token hmem name hrefers
    rw [replaceLines_eq_mapM] at hkept
    obtain ⟨line, hline, hmem⟩ := List.mem_flatMap.mp hmem
    have hcode := List.mem_filter.mpr ⟨hline, hasCode_of_refers hmem hrefers⟩
    obtain ⟨left, -, hleft⟩ := Success.exists_mem_of_mapM hkept hcode
    exact h.exists_resolveLine_iff.mp ⟨left, hleft⟩ token hmem name hrefers
  · intro hdefined
    cases hlines : table.replaceLines lines with
    | ok kept => exact ⟨kept, rfl⟩
    | error fault =>
        obtain ⟨front, line, back, before, name, after, rfl, hsplit, -, hnone, -⟩ :=
          h.replaceLines_eq_error_iff.mp hlines
        exact absurd (hdefined (':' :: name) (by simp [hsplit]) name rfl) hnone

theorem Collects.replaceLines_eq_ok_iff (h : table.Collects all) {kept : List Line} :
    table.replaceLines lines = .ok kept ↔
      List.Forall₂ (IsLeft all) (lines.filter hasCode) kept := by
  rw [replaceLines_eq_mapM, Success.mapM_iff]
  exact ⟨.imp fun _ _ => h.resolveLine_eq_ok_iff.mp, .imp fun _ _ => h.resolveLine_eq_ok_iff.mpr⟩

end

/-! ## The first reading -/

section

variable {tokens : List Token} {lines : List Line} {fault : Fault}

theorem exists_foldlM_enter_iff :
    (∃ final, tokens.foldlM enter {} = .ok final) ↔ AreDistinct tokens := by
  constructor
  · rintro ⟨final, hfinal⟩
    exact (collects_nil.of_foldlM hfinal).distinct
  · intro hdistinct
    cases hfold : tokens.foldlM enter {} with
    | ok final => exact ⟨final, rfl⟩
    | error cause =>
        obtain ⟨front, token, back, table, rfl, hfront, htoken⟩ := Failure.foldlM_iff.mp hfold
        obtain ⟨name, hdefines, hdefined, -⟩ :=
          (collects_nil.of_foldlM hfront).enter_eq_error_iff.mp htoken
        have hprefix : AreDistinct (front ++ [token]) := hdistinct.sublist (by simp)
        exact absurd hdefined ((areDistinct_concat_iff.mp hprefix).2 name hdefines)

theorem enterLines_eq_foldlM (table : Table) (lines : List Line) :
    table.enterLines lines
      = lines.foldlM (fun table line => line.check (line.tokens.foldlM enter table)) table := by
  induction lines generalizing table with
  | nil => rfl
  | cons line lines ih =>
      rw [enterLines, List.foldlM_cons]
      exact bind_congr fun next => ih next

/-- The first reading fails at the first definition of a label that is defined already. -/
theorem enterLines_eq_error_iff :
    ({} : Table).enterLines lines = .error fault ↔
      ∃ front line back before token after name, lines = front ++ line :: back ∧
        line.tokens = before ++ token :: after ∧ AreDistinct (stream front ++ before) ∧
        Defines token name ∧ IsDefined (stream front ++ before) name ∧
        fault = .inLine line (.labelRedefined name) := by
  rw [enterLines_eq_foldlM, Failure.foldlM_iff]
  simp only [← enterLines_eq_foldlM, Failure.check_iff, Failure.foldlM_iff]
  constructor
  · rintro ⟨front, line, back, middle, hlines, hfront, _, ⟨before, token, after, last, hsplit,
      hbefore, htoken⟩, rfl⟩
    have hlast := (collects_of_enterLines hfront).of_foldlM hbefore
    obtain ⟨name, hdefines, hdefined, rfl⟩ := hlast.enter_eq_error_iff.mp htoken
    exact ⟨front, line, back, before, token, after, name, hlines, hsplit, hlast.distinct, hdefines,
      hdefined, rfl⟩
  · rintro ⟨front, line, back, before, token, after, name, hlines, hsplit, hdistinct, hdefines,
      hdefined, rfl⟩
    obtain ⟨last, hlast⟩ := exists_foldlM_enter_iff.mpr hdistinct
    have htoken := (collects_nil.of_foldlM hlast).enter_eq_error_iff.mpr
      ⟨name, hdefines, hdefined, rfl⟩
    rw [List.foldlM_append] at hlast
    obtain ⟨middle, hmiddle, hlast⟩ := Success.bind_iff.mp hlast
    exact ⟨front, line, back, middle, hlines, enterLines_eq_ok_iff.mpr hmiddle, _,
      ⟨before, token, after, last, hsplit, hlast, htoken⟩, rfl⟩

theorem exists_enterLines_iff :
    (∃ labels, ({} : Table).enterLines lines = .ok labels) ↔ AreDistinct (stream lines) := by
  simp only [enterLines_eq_ok_iff, exists_foldlM_enter_iff]

/-- The number of labels can be taken from the position, which leaves the number of tokens that
define no label, and a new label gets this number. -/
theorem Collects.address_eq_sub {table : Table} (h : table.Collects tokens) :
    table.position = tokens.length ∧ table.addresses.length ≤ table.position ∧
      table.position - table.addresses.length = width tokens ∧
      ∀ token name next, Defines token name → table.enter token = .ok next →
        next.address? name = some (table.position - table.addresses.length) := by
  have hcount := h.count
  refine ⟨h.position, by rw [h.position]; omega, h.sub_eq_width, ?_⟩
  intro token name next hdefines hnext
  rw [(h.of_enter hnext).addresses, isDefinedAt_concat_iff, h.sub_eq_width]
  exact .inr ⟨hdefines, rfl⟩

end

end Table

section

open Table (stream)

theorem exists_replace_iff (lines : List Line) :
    (∃ kept, replace lines = .ok kept) ↔
      AreDistinct (stream lines) ∧
        ∀ token ∈ stream lines, ∀ name, Refers token name → IsDefined (stream lines) name := by
  rw [← Table.exists_enterLines_iff]
  constructor
  · rintro ⟨kept, hkept⟩
    obtain ⟨labels, hlabels, hkept⟩ := Success.bind_iff.mp hkept
    have hcollects := Table.collects_of_enterLines hlabels
    exact ⟨⟨labels, hlabels⟩, hcollects.exists_replaceLines_iff.mp ⟨kept, hkept⟩⟩
  · rintro ⟨⟨labels, hlabels⟩, hdefined⟩
    have hcollects := Table.collects_of_enterLines hlabels
    obtain ⟨kept, hkept⟩ := hcollects.exists_replaceLines_iff.mpr hdefined
    exact ⟨kept, Success.bind_iff.mpr ⟨labels, hlabels, hkept⟩⟩

/-- The pass fails in the first reading, or in the second one if the first one is done. -/
theorem replace_eq_error_iff {lines : List Line} {fault : Fault} :
    replace lines = .error fault ↔
      ({} : Table).enterLines lines = .error fault ∨
        AreDistinct (stream lines) ∧
          ∃ front line back before name after, lines = front ++ line :: back ∧
            line.tokens = before ++ (':' :: name) :: after ∧
            (∀ token ∈ stream front ++ before, ∀ other, Refers token other →
              IsDefined (stream lines) other) ∧
            ¬ IsDefined (stream lines) name ∧ fault = .inLine line (.noSuchLabel name) := by
  rw [replace, Failure.bind_iff, ← Table.exists_enterLines_iff]
  refine or_congr_right ?_
  constructor
  · rintro ⟨labels, hlabels, h⟩
    have hcollects := Table.collects_of_enterLines hlabels
    exact ⟨⟨labels, hlabels⟩, hcollects.replaceLines_eq_error_iff.mp h⟩
  · rintro ⟨⟨labels, hlabels⟩, h⟩
    have hcollects := Table.collects_of_enterLines hlabels
    exact ⟨labels, hlabels, hcollects.replaceLines_eq_error_iff.mpr h⟩

/-- The code of the fault tells in which reading the pass has failed. -/
theorem code_of_replace_eq_error {lines : List Line} {fault : Fault}
    (h : replace lines = .error fault) :
    (¬ AreDistinct (stream lines) → fault.code = .redefinition) ∧
      (AreDistinct (stream lines) → fault.code = .noSuchLabel) := by
  rcases replace_eq_error_iff.mp h with hfirst | ⟨hdistinct, _, _, _, _, _, _, -, -, -, -, rfl⟩
  · have hrepeated : ¬ AreDistinct (stream lines) := by
      rw [← Table.exists_enterLines_iff]
      rintro ⟨labels, hlabels⟩
      rw [hfirst] at hlabels
      cases hlabels
    obtain ⟨_, _, _, _, _, _, _, -, -, -, -, -, rfl⟩ := Table.enterLines_eq_error_iff.mp hfirst
    exact ⟨fun _ => rfl, fun hdistinct => absurd hdistinct hrepeated⟩
  · exact ⟨fun hrepeated => absurd hdistinct hrepeated, fun _ => rfl⟩

/-- **Labels are resolved by the tokens of the program.** The pass succeeds exactly if no label is
defined twice and every label that is referred to is defined, before or after the reference. Then
every line with a token that is no definition is left, with what such tokens stand for. A label that
is defined twice is a fault at its second definition, whatever the references; if there is none, the
first reference to a label that is not defined is one. While the tokens are counted, the number of
labels never exceeds the number of tokens, so it can be taken from it, and a new label gets the
difference, which is the number of tokens that define no label. -/
theorem replace_iff (lines : List Line) :
    ((∃ kept, replace lines = .ok kept) ↔
      AreDistinct (stream lines) ∧
        ∀ token ∈ stream lines, ∀ name, Refers token name → IsDefined (stream lines) name) ∧
    (∀ kept, replace lines = .ok kept →
      List.Forall₂ (IsLeft (stream lines)) (lines.filter hasCode) kept) ∧
    (∀ fault, replace lines = .error fault ↔
      (∃ front line back before token after name, lines = front ++ line :: back ∧
        line.tokens = before ++ token :: after ∧ AreDistinct (stream front ++ before) ∧
        Defines token name ∧ IsDefined (stream front ++ before) name ∧
        fault = .inLine line (.labelRedefined name)) ∨
      AreDistinct (stream lines) ∧
        ∃ front line back before name after, lines = front ++ line :: back ∧
          line.tokens = before ++ (':' :: name) :: after ∧
          (∀ token ∈ stream front ++ before, ∀ other, Refers token other →
            IsDefined (stream lines) other) ∧
          ¬ IsDefined (stream lines) name ∧ fault = .inLine line (.noSuchLabel name)) ∧
    (∀ fault, replace lines = .error fault →
      (¬ AreDistinct (stream lines) → fault.code = .redefinition) ∧
        (AreDistinct (stream lines) → fault.code = .noSuchLabel)) ∧
    ∀ before table, before <+: stream lines → before.foldlM Table.enter {} = .ok table →
      table.position = before.length ∧ table.addresses.length ≤ table.position ∧
        table.position - table.addresses.length = width before ∧
        ∀ token name next, Defines token name → table.enter token = .ok next →
          next.address? name = some (table.position - table.addresses.length) := by
  refine ⟨exists_replace_iff lines, fun kept hkept => ?_, fun fault => ?_, fun fault => ?_, ?_⟩
  · obtain ⟨labels, hlabels, hkept⟩ := Success.bind_iff.mp hkept
    exact (Table.collects_of_enterLines hlabels).replaceLines_eq_ok_iff.mp hkept
  · rw [replace_eq_error_iff, Table.enterLines_eq_error_iff]
  · exact code_of_replace_eq_error
  · intro before table _ htable
    exact (Table.collects_nil.of_foldlM htable).address_eq_sub

/-- A label is defined again behind a reference to one that is not defined. -/
example :
    let line : Line := ⟨1, "sample", ":b a: HALT a:", ":b a: HALT a:"⟩
    replace [line] = .error (.inLine line (.labelRedefined ['a'])) := by
  decide +kernel

end

end CellAsm.Label
