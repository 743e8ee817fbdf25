import CellAsm.Proofs.Program.Spelling
import CellAsm.Proofs.Text.Numeral

set_option autoImplicit false

/-! # What codegen accepts, and what it reports

The notation of an instruction is given by what its tokens look like: a name in either case, then
as many operands as the operation takes, each of which begins with a bracket exactly if its kind is
an address, and is a decimal numeral apart from its brackets (`Instruction.IsWritten`). Codegen
accepts the lines that are such instructions one after the other. In any other line some
instruction is the first one at fault (`Instruction.Offends`): its name is looked at first, then the
number of its operands, their kinds and at last their numerals.
-/

namespace CellAsm

namespace Instruction

/-! ## The notation -/

/-- The token is the name of the operation, in either case. -/
def Names (token : Token) (mnemonic : Mnemonic) : Prop :=
  token.map Char.toUpper = mnemonic.name.toList

/-- The operands that begin with a bracket are the addresses among the kinds. -/
def AreOfKinds (operands : List Token) (kinds : List Kind) : Prop :=
  List.Forall₂ (fun operand kind => kind = .address ↔ operand.head? = some '[') operands kinds

/-- The operand is a decimal numeral of the word, behind any opening brackets and in front of any
closing brackets. -/
def Denotes (operand : Token) (word : UInt64) : Prop :=
  ∃ opening closing numeral n,
    operand = List.replicate opening '[' ++ numeral ++ List.replicate closing ']' ∧
      Text.IsDecimal numeral n ∧ n < 2 ^ 64 ∧ word = UInt64.ofNat n

/-- The tokens write the instruction. -/
inductive IsWritten : List Token → Instruction → Prop where
  | intro {token : Token} {operands : List Token} {instruction : Instruction}
      (name : Names token instruction.opcode.mnemonic)
      (arity : operands.length = instruction.opcode.mnemonic.arity)
      (listed : instruction.opcode ∈ Opcode.table)
      (kinds : AreOfKinds operands instruction.opcode.kinds)
      (values : List.Forall₂ Denotes operands instruction.operands) :
      IsWritten (token :: operands) instruction

/-- The tokens write the instructions one after the other. -/
def AreWritten (tokens : List Token) (instructions : List Instruction) : Prop :=
  ∃ pieces, List.Forall₂ IsWritten pieces instructions ∧ tokens = pieces.flatten

/-- What is wrong with the instruction that the tokens begin with. -/
inductive Offends : List Token → Fault.Cause → Prop where
  | name {token : Token} {tokens : List Token} (unknown : ∀ mnemonic, ¬ Names token mnemonic) :
      Offends (token :: tokens) (.unknownMnemonic token)
  | arity {token : Token} {tokens : List Token} {mnemonic : Mnemonic}
      (name : Names token mnemonic) (missing : tokens.length < mnemonic.arity) :
      Offends (token :: tokens) (.missingOperands mnemonic)
  | kinds {token : Token} {operands rest : List Token} {mnemonic : Mnemonic} {kinds : List Kind}
      (name : Names token mnemonic) (arity : operands.length = mnemonic.arity)
      (written : AreOfKinds operands kinds)
      (unlisted : ∀ opcode ∈ Opcode.table, opcode.mnemonic = mnemonic → opcode.kinds ≠ kinds) :
      Offends (token :: operands ++ rest) (.operandKinds mnemonic kinds)
  /-- The first operand without a value is reported. -/
  | value {token operand : Token} {known others rest : List Token} {opcode : Opcode}
      (name : Names token opcode.mnemonic)
      (arity : (known ++ operand :: others).length = opcode.mnemonic.arity)
      (listed : opcode ∈ Opcode.table)
      (kinds : AreOfKinds (known ++ operand :: others) opcode.kinds)
      (values : ∀ earlier ∈ known, ∃ word, Denotes earlier word)
      (unreadable : ∀ word, ¬ Denotes operand word) :
      Offends (token :: (known ++ operand :: others) ++ rest) (.operandNumeral operand)

/-! ## Names, kinds and values -/

variable {token operand : Token} {mnemonic : Mnemonic} {operands tokens rest : List Token}
  {kinds : List Kind} {word : UInt64} {cause : Fault.Cause} {instruction : Instruction}
  {instructions : List Instruction}

theorem names_iff : Names token mnemonic ↔ Mnemonic.ofToken? token = some mnemonic := by
  constructor
  · intro h
    rw [Names] at h
    rw [Mnemonic.ofToken?, h]
    cases mnemonic <;> decide
  · intro h
    have hname := List.find?_some h
    exact (of_decide_eq_true hname).symm

theorem Names.unique {mnemonic' : Mnemonic} (h : Names token mnemonic)
    (h' : Names token mnemonic') : mnemonic = mnemonic' :=
  Option.some.inj ((names_iff.mp h).symm.trans (names_iff.mp h'))

theorem forall_not_names_iff :
    (∀ mnemonic, ¬ Names token mnemonic) ↔ Mnemonic.ofToken? token = none := by
  rw [Option.eq_none_iff_forall_ne_some]
  exact forall_congr' fun mnemonic => not_congr names_iff

theorem ofToken_eq_iff {kind : Kind} :
    Kind.ofToken operand = kind ↔ (kind = .address ↔ operand.head? = some '[') := by
  unfold Kind.ofToken
  split
  · cases kind <;> simp
  · next hother =>
    have hhead : operand.head? ≠ some '[' := fun hhead => by
      obtain ⟨rest, rfl⟩ := List.head?_eq_some_iff.mp hhead
      exact hother rest rfl
    cases kind <;> simp [hhead]

theorem areOfKinds_iff : AreOfKinds operands kinds ↔ operands.map Kind.ofToken = kinds := by
  rw [← List.forall₂_eq_eq_eq, List.forall₂_map_left_iff]
  exact ⟨.imp fun _ _ => ofToken_eq_iff.mpr, .imp fun _ _ => ofToken_eq_iff.mp⟩

theorem exists_eq_replicate (p : Char) (s : List Char) :
    ∃ n, s = List.replicate n p ++ s.dropWhile (· = p) := by
  refine ⟨(s.takeWhile (· = p)).length, ?_⟩
  have htake : s.takeWhile (· = p) = List.replicate (s.takeWhile (· = p)).length p := by
    refine List.eq_replicate_iff.mpr ⟨rfl, fun c hc => ?_⟩
    have hp := List.mem_takeWhile_imp hc
    exact of_decide_eq_true hp
  rw [← htake, List.takeWhile_append_dropWhile]

/-- An operand is what is left of it without brackets, and the brackets. -/
theorem exists_eq_bareOperand (operand : Token) :
    ∃ opening closing, operand
      = List.replicate opening '[' ++ bareOperand operand ++ List.replicate closing ']' := by
  obtain ⟨opening, hopening⟩ := exists_eq_replicate '[' operand
  obtain ⟨closing, hclosing⟩ := exists_eq_replicate ']' (operand.dropWhile (· = '[')).reverse
  have hback : operand.dropWhile (· = '[')
      = bareOperand operand ++ List.replicate closing ']' := by
    simpa [bareOperand] using congrArg List.reverse hclosing
  rw [hback, ← List.append_assoc] at hopening
  exact ⟨opening, closing, hopening⟩

theorem denotes_iff : Denotes operand word ↔ operandWord operand = .ok word := by
  have hword : operandWord operand = .ok word ↔
      Text.decimal? (bareOperand operand) = some word := by
    unfold operandWord
    cases Text.decimal? (bareOperand operand) with
    | none => simp
    | some found => simp
  rw [hword, Text.decimal?_eq_some_iff]
  constructor
  · rintro ⟨opening, closing, numeral, n, rfl, hnumeral, hfits⟩
    -- a numeral has no brackets, so what is stripped are the brackets around it
    have hbracket : ∀ c, c.isDigit = false → c ≠ '+' → c ∉ numeral := fun c hdigit hplus hc => by
      rcases hnumeral.isDigit_of_mem hc with rfl | h
      · exact hplus rfl
      · rw [h] at hdigit
        cases hdigit
    rw [bareOperand_replicate (hbracket '[' (by decide) (by decide))
      (hbracket ']' (by decide) (by decide))]
    exact ⟨n, hnumeral, hfits⟩
  · rintro ⟨n, hnumeral, hfits⟩
    obtain ⟨opening, closing, hoperand⟩ := exists_eq_bareOperand operand
    exact ⟨opening, closing, _, n, hoperand, hnumeral, hfits⟩

theorem operandWord_eq_error_iff :
    operandWord operand = .error cause ↔
      (∀ word, ¬ Denotes operand word) ∧ cause = .operandNumeral operand := by
  simp only [denotes_iff]
  unfold operandWord
  cases Text.decimal? (bareOperand operand) with
  | none => simp [eq_comm]
  | some found => simp

theorem forall₂_denotes_iff {words : List UInt64} :
    List.Forall₂ Denotes operands words ↔ operands.mapM operandWord = .ok words := by
  rw [Success.mapM_iff]
  exact ⟨.imp fun _ _ => denotes_iff.mp, .imp fun _ _ => denotes_iff.mpr⟩

/-! ## One instruction -/

theorem select?_eq_none_iff :
    Opcode.select? mnemonic kinds = none ↔
      ∀ opcode ∈ Opcode.table, opcode.mnemonic = mnemonic → opcode.kinds ≠ kinds := by
  simp [Opcode.select?]

/-- An operation with operands is rejected for their kinds or else for one of their numerals. -/
theorem ofTokens_eq_error_iff :
    ofTokens mnemonic operands = .error cause ↔
      ∃ kinds, AreOfKinds operands kinds ∧
        ((∀ opcode ∈ Opcode.table, opcode.mnemonic = mnemonic → opcode.kinds ≠ kinds) ∧
            cause = .operandKinds mnemonic kinds ∨
          ∃ opcode ∈ Opcode.table, opcode.mnemonic = mnemonic ∧ opcode.kinds = kinds ∧
            ∃ known operand others, operands = known ++ operand :: others ∧
              (∀ earlier ∈ known, ∃ word, Denotes earlier word) ∧
              (∀ word, ¬ Denotes operand word) ∧ cause = .operandNumeral operand) := by
  simp only [areOfKinds_iff, exists_eq_left', ofTokens, ← select?_eq_none_iff]
  cases hselect : Opcode.select? mnemonic (operands.map Kind.ofToken) with
  | none =>
      have hnone := select?_eq_none_iff.mp hselect
      constructor
      · intro h
        exact .inl ⟨rfl, (Except.error.inj h).symm⟩
      · rintro (⟨-, rfl⟩ | ⟨opcode, hlisted, hname, hkinds, -⟩)
        · rfl
        · exact absurd hkinds (hnone opcode hlisted hname)
  | some opcode =>
      obtain ⟨hlisted, hname, hkinds⟩ := Opcode.mem_table_of_select? hselect
      -- the first operand without a word stands behind operands that have one
      have hvalues : ∀ {found : Fault.Cause}, operands.mapM operandWord = .error found ↔
          ∃ known operand others, operands = known ++ operand :: others ∧
            (∀ earlier ∈ known, ∃ word, Denotes earlier word) ∧
            (∀ word, ¬ Denotes operand word) ∧ found = .operandNumeral operand := by
        simp only [Failure.mapM_iff, operandWord_eq_error_iff, denotes_iff, implies_true]
      dsimp only
      rw [Failure.bind_iff, hvalues]
      constructor
      · rintro (h | ⟨words, -, h⟩)
        · exact .inr ⟨opcode, hlisted, hname, hkinds, h⟩
        · cases h
      · rintro (⟨h, -⟩ | ⟨_, -, -, -, h⟩)
        · cases h
        · exact .inl h

theorem isWritten_iff {token : Token} :
    IsWritten (token :: operands) instruction ↔
      Names token instruction.opcode.mnemonic ∧
        operands.length = instruction.opcode.mnemonic.arity ∧
        ofTokens instruction.opcode.mnemonic operands = .ok instruction := by
  constructor
  · rintro ⟨hname, harity, hlisted, hkinds, hvalues⟩
    refine ⟨hname, harity, ?_⟩
    rw [ofTokens, areOfKinds_iff.mp hkinds, Opcode.select?_kinds hlisted]
    exact Success.bind_iff.mpr ⟨_, forall₂_denotes_iff.mp hvalues, rfl⟩
  · rintro ⟨hname, harity, hfirst⟩
    obtain ⟨hselect, hvalues⟩ := ofTokens_eq_ok hfirst
    obtain ⟨hlisted, -, hkinds⟩ := Opcode.mem_table_of_select? hselect
    exact .intro hname harity hlisted (areOfKinds_iff.mpr hkinds.symm)
      (hvalues.imp fun _ _ => denotes_iff.mpr)

/-- What is wrong with an instruction by what codegen looks at: the name, the number of tokens
behind it, and as many of them as the operation takes. -/
theorem offends_cons_iff :
    Offends (token :: tokens) cause ↔
      match Mnemonic.ofToken? token with
      | none => cause = .unknownMnemonic token
      | some mnemonic =>
        if tokens.length < mnemonic.arity then cause = .missingOperands mnemonic
        else ofTokens mnemonic (tokens.take mnemonic.arity) = .error cause := by
  constructor
  · intro h
    -- a reason to be rejected cuts the tokens behind the operands, where the parser does
    generalize hlist : token :: tokens = list at h
    cases h with
    | name unknown =>
        obtain ⟨rfl, rfl⟩ := List.cons.inj hlist
        rw [forall_not_names_iff.mp unknown]
    | arity name missing =>
        obtain ⟨rfl, rfl⟩ := List.cons.inj hlist
        rw [names_iff.mp name]
        exact (if_pos missing).mpr rfl
    | kinds name arity written unlisted =>
        rw [List.cons_append] at hlist
        obtain ⟨rfl, rfl⟩ := List.cons.inj hlist
        rw [names_iff.mp name]
        dsimp only
        rw [← arity, if_neg (by simp), List.take_left, ofTokens_eq_error_iff]
        exact ⟨_, written, .inl ⟨unlisted, rfl⟩⟩
    | value name arity listed kinds values unreadable =>
        rw [List.cons_append] at hlist
        obtain ⟨rfl, rfl⟩ := List.cons.inj hlist
        rw [names_iff.mp name]
        dsimp only
        rw [← arity, if_neg (by simp), List.take_left, ofTokens_eq_error_iff]
        exact ⟨_, kinds, .inr ⟨_, listed, rfl, rfl, _, _, _, rfl, values, unreadable, rfl⟩⟩
  · intro h
    cases hname : Mnemonic.ofToken? token with
    | none =>
        rw [hname] at h
        obtain rfl := h
        exact .name (forall_not_names_iff.mpr hname)
    | some mnemonic =>
        rw [hname] at h
        dsimp only at h
        have hnames := names_iff.mpr hname
        split at h
        · next hmissing =>
          obtain rfl := h
          exact .arity hnames hmissing
        · next henough =>
          -- there are operands enough, so the cut can be made
          obtain ⟨operands, rest, hlength, rfl⟩ : ∃ operands rest,
              operands.length = mnemonic.arity ∧ tokens = operands ++ rest :=
            ⟨_, _, List.length_take_of_le (Nat.le_of_not_lt henough),
              (List.take_append_drop _ tokens).symm⟩
          rw [← hlength, List.take_left, ofTokens_eq_error_iff] at h
          obtain ⟨kinds, hkinds, ⟨hunlisted, rfl⟩ | ⟨opcode, hlisted, rfl, rfl, known, operand,
            others, rfl, hvalues, hunreadable, rfl⟩⟩ := h
          · exact .kinds hnames hlength hkinds hunlisted
          · exact .value hnames hlength hlisted hkinds hvalues hunreadable

/-- The code of the fault tells what is wrong: the name, or the number or the kinds of the operands,
or, if these are in order, a numeral. -/
theorem Offends.code_iff (h : Offends (token :: tokens) cause) :
    (cause.code = .unknownMnemonic ↔ ∀ mnemonic, ¬ Names token mnemonic) ∧
      (cause.code = .invalidArgument ↔
        ∃ opcode ∈ Opcode.table, Names token opcode.mnemonic ∧ ∃ operands rest,
          tokens = operands ++ rest ∧ operands.length = opcode.mnemonic.arity ∧
            AreOfKinds operands opcode.kinds) := by
  generalize hlist : token :: tokens = list at h
  -- a known name rules the first code out; each other reason says what is wrong with the operands
  cases h with
  | name unknown =>
      obtain ⟨rfl, rfl⟩ := List.cons.inj hlist
      refine ⟨iff_of_true rfl unknown, iff_of_false (by simp [Fault.Cause.code]) ?_⟩
      rintro ⟨opcode, -, hname, -⟩
      exact unknown _ hname
  | arity name missing =>
      obtain ⟨rfl, rfl⟩ := List.cons.inj hlist
      refine ⟨iff_of_false (by simp [Fault.Cause.code]) fun h => h _ name,
        iff_of_false (by simp [Fault.Cause.code]) ?_⟩
      rintro ⟨opcode, -, hname, operands, rest, rfl, hlength, -⟩
      rw [List.length_append, hlength, hname.unique name] at missing
      omega
  | @kinds _ found behind _ _ name arity written unlisted =>
      rw [List.cons_append] at hlist
      obtain ⟨rfl, rfl⟩ := List.cons.inj hlist
      refine ⟨iff_of_false (by simp [Fault.Cause.code]) fun h => h _ name,
        iff_of_false (by simp [Fault.Cause.code]) ?_⟩
      rintro ⟨opcode, hlisted, hname, operands, rest, hsplit, hlength, hkinds⟩
      have hmnemonic := hname.unique name
      -- the arity fixes where the operands end, and they have only one list of kinds
      obtain ⟨rfl, rfl⟩ := List.append_inj hsplit (by rw [arity, hlength, hmnemonic])
      refine unlisted opcode hlisted hmnemonic ?_
      rw [← areOfKinds_iff.mp hkinds, areOfKinds_iff.mp written]
  | value name arity listed kinds values unreadable =>
      rw [List.cons_append] at hlist
      obtain ⟨rfl, rfl⟩ := List.cons.inj hlist
      refine ⟨iff_of_false (by simp [Fault.Cause.code]) fun h => h _ name, iff_of_true rfl ?_⟩
      exact ⟨_, listed, name, _, _, rfl, arity, kinds⟩

theorem Offends.code_mem (h : Offends tokens cause) :
    cause.code ∈ [.unknownMnemonic, .syntaxError, .invalidArgument] := by
  cases h <;> simp [Fault.Cause.code]

/-! ## One line -/

theorem AreWritten.cons {others : List Instruction}
    (hfirst : IsWritten (token :: operands) instruction) (hothers : AreWritten rest others) :
    AreWritten (token :: operands ++ rest) (instruction :: others) := by
  obtain ⟨pieces, hpieces, rfl⟩ := hothers
  exact ⟨_ :: pieces, .cons hfirst hpieces, rfl⟩

/-- **Codegen accepts a line exactly if it is instructions one after the other.** -/
theorem parse_eq_ok_iff_areWritten :
    parse tokens = .ok instructions ↔ AreWritten tokens instructions := by
  rw [parse_eq_ok_iff]
  constructor
  · intro h
    induction h with
    | nil => exact ⟨[], .nil, rfl⟩
    | cons name listed kinds values _ ih =>
        have hfirst := IsWritten.intro (names_iff.mpr name) (length_of_kinds listed kinds) listed
          (areOfKinds_iff.mpr kinds) (values.imp fun _ _ => denotes_iff.mpr)
        exact ih.cons hfirst
  · rintro ⟨pieces, hpieces, rfl⟩
    induction hpieces with
    | nil => exact .nil
    | cons hfirst _ ih =>
        obtain ⟨name, -, listed, kinds, values⟩ := hfirst
        exact .cons (names_iff.mp name) listed (areOfKinds_iff.mp kinds)
          (values.imp fun _ _ => denotes_iff.mp) ih

/-- A line is rejected for its first instruction, or it begins with an instruction and what is
behind it is rejected. -/
theorem parse_cons_eq_error_iff :
    parse (token :: tokens) = .error cause ↔
      Offends (token :: tokens) cause ∨
        ∃ operands rest first, tokens = operands ++ rest ∧ IsWritten (token :: operands) first ∧
          parse rest = .error cause := by
  rw [offends_cons_iff, parse]
  simp only [isWritten_iff, names_iff]
  cases hname : Mnemonic.ofToken? token with
  | none => simp [eq_comm]
  | some mnemonic =>
      dsimp only
      by_cases hmissing : tokens.length < mnemonic.arity
      · rw [if_pos hmissing, if_pos hmissing]
        constructor
        · intro h
          exact .inl (Except.error.inj h).symm
        · rintro (rfl | ⟨operands, rest, first, rfl, ⟨hfirst, hlength, -⟩, -⟩)
          · rfl
          · rw [Option.some.inj hfirst, List.length_append] at hmissing
            omega
      · -- with operands enough, it is the first instruction or one behind it that is rejected
        rw [if_neg hmissing, if_neg hmissing, Failure.bind_iff]
        refine or_congr_right ?_
        constructor
        · rintro ⟨first, hfirst, h⟩
          obtain ⟨hselect, -⟩ := ofTokens_eq_ok hfirst
          obtain ⟨-, rfl, -⟩ := Opcode.mem_table_of_select? hselect
          have hlength := List.length_take_of_le (Nat.le_of_not_lt hmissing)
          refine ⟨_, _, first, (List.take_append_drop _ tokens).symm, ⟨rfl, hlength, hfirst⟩, ?_⟩
          rcases Failure.bind_iff.mp h with hrest | ⟨_, -, h⟩
          · exact hrest
          · cases h
        · rintro ⟨operands, rest, first, rfl, ⟨hfirst, hlength, hread⟩, hrest⟩
          obtain rfl := Option.some.inj hfirst
          rw [← hlength, List.take_left, List.drop_left]
          exact ⟨first, hread, Failure.bind_iff.mpr (.inl hrest)⟩

/-- **A line is rejected for its first instruction at fault.** -/
theorem parse_eq_error_iff :
    parse tokens = .error cause ↔
      ∃ done rest instructions, tokens = done ++ rest ∧ AreWritten done instructions ∧
        Offends rest cause := by
  constructor
  · intro h
    -- the tokens after an instruction are fewer, so the induction is on their number
    generalize hn : tokens.length = n
    induction n using Nat.strongRecOn generalizing tokens with
    | _ n ih =>
      cases tokens with
      | nil =>
          rw [parse_nil] at h
          cases h
      | cons token tokens =>
          rcases parse_cons_eq_error_iff.mp h with
            hoffends | ⟨operands, rest, first, rfl, hfirst, hrest⟩
          · exact ⟨[], _, [], rfl, ⟨[], .nil, rfl⟩, hoffends⟩
          · have hfewer : rest.length < n := by
              rw [← hn, List.length_cons, List.length_append]
              omega
            obtain ⟨done, rest, instructions, rfl, hdone, hoffends⟩ := ih _ hfewer hrest rfl
            exact ⟨_, rest, _, by simp, hdone.cons hfirst, hoffends⟩
  · rintro ⟨_, rest, instructions, rfl, ⟨pieces, hpieces, rfl⟩, hoffends⟩
    induction hpieces with
    | nil =>
        cases rest with
        | nil => generalize hlist : [] = list at hoffends; cases hoffends <;> cases hlist
        | cons token rest => exact parse_cons_eq_error_iff.mpr (.inl hoffends)
    | @cons piece first pieces _ hfirst _ ih =>
        obtain ⟨token, operands, rfl⟩ : ∃ token operands, piece = token :: operands := by
          cases hfirst
          exact ⟨_, _, rfl⟩
        rw [List.flatten_cons, List.append_assoc, List.cons_append]
        exact parse_cons_eq_error_iff.mpr (.inr ⟨operands, _, first, rfl, hfirst, ih⟩)

end Instruction

/-! ## All lines -/

namespace Listing

theorem ofLine_eq_ok_iff {line : Line} {listing : Listing} :
    ofLine line = .ok listing ↔ ∃ instructions, Instruction.AreWritten line.tokens instructions ∧
      listing = instructions.map fun instruction => (line, instruction) := by
  rw [ofLine, Success.bind_iff]
  simp only [Success.check_iff, Instruction.parse_eq_ok_iff_areWritten, Success.pure_iff,
    eq_comm (b := listing)]

theorem ofLine_eq_error_iff {line : Line} {fault : Fault} :
    ofLine line = .error fault ↔ ∃ done rest instructions cause, line.tokens = done ++ rest ∧
      Instruction.AreWritten done instructions ∧ Instruction.Offends rest cause ∧
      fault = .inLine line cause := by
  rw [ofLine, Failure.bind_iff, Failure.check_iff]
  simp only [Instruction.parse_eq_error_iff]
  constructor
  · rintro (⟨cause, ⟨done, rest, instructions, h⟩, rfl⟩ | ⟨_, -, h⟩)
    · exact ⟨done, rest, instructions, cause, h.1, h.2.1, h.2.2, rfl⟩
    · cases h
  · rintro ⟨done, rest, instructions, cause, hsplit, hdone, hoffends, rfl⟩
    exact .inl ⟨cause, ⟨done, rest, instructions, hsplit, hdone, hoffends⟩, rfl⟩

/-- The listings of the lines are put together. -/
theorem ofLines_eq_mapM (lines : List Line) :
    ofLines lines = (lines.mapM ofLine).map List.flatten := by
  induction lines with
  | nil => rfl
  | cons line lines ih =>
      rw [ofLines, ih, List.mapM_cons]
      cases ofLine line with
      | error fault => rfl
      | ok first =>
          cases lines.mapM ofLine with
          | error fault => rfl
          | ok others => rfl

/-- The words of lines that codegen accepts are those of their instructions. -/
theorem exists_ofLines_iff {lines : List Line} {words : List UInt64} :
    (∃ listing, ofLines lines = .ok listing ∧ listing.words = words) ↔
      ∃ written, List.Forall₂ (fun line => Instruction.AreWritten line.tokens) lines written ∧
        words = written.flatten.flatMap Instruction.words := by
  rw [ofLines_eq_mapM]
  simp only [Success.map_iff, Success.mapM_iff, ofLine_eq_ok_iff]
  constructor
  · rintro ⟨_, ⟨listings, hlistings, rfl⟩, rfl⟩
    -- the induction is on the lines: each is put in front of what the others give
    induction hlistings with
    | nil => exact ⟨[], .nil, rfl⟩
    | cons hline _ ih =>
        obtain ⟨instructions, hinstructions, rfl⟩ := hline
        obtain ⟨written, hwritten, hwords⟩ := ih
        refine ⟨instructions :: written, .cons hinstructions hwritten, ?_⟩
        rw [List.flatten_cons, words_append, words_map_pair, hwords, List.flatten_cons,
          List.flatMap_append]
  · rintro ⟨written, hwritten, rfl⟩
    induction hwritten with
    | nil => exact ⟨[], ⟨[], .nil, rfl⟩, rfl⟩
    | cons hinstructions _ ih =>
        obtain ⟨_, ⟨listings, hlistings, rfl⟩, hwords⟩ := ih
        refine ⟨_, ⟨_ :: listings, .cons ⟨_, hinstructions, rfl⟩ hlistings, rfl⟩, ?_⟩
        rw [List.flatten_cons, words_append, words_map_pair, hwords, List.flatten_cons,
          List.flatMap_append]

theorem ofLines_eq_error_iff {lines : List Line} {fault : Fault} :
    ofLines lines = .error fault ↔
      ∃ front line back done rest cause, lines = front ++ line :: back ∧
        (∀ earlier ∈ front, ∃ instructions, Instruction.AreWritten earlier.tokens instructions) ∧
        line.tokens = done ++ rest ∧ (∃ instructions, Instruction.AreWritten done instructions) ∧
        Instruction.Offends rest cause ∧ fault = .inLine line cause := by
  have hreads : ∀ line, (∃ listing, ofLine line = .ok listing) ↔
      ∃ instructions, Instruction.AreWritten line.tokens instructions := fun line => by
    simp only [ofLine_eq_ok_iff]
    exact ⟨fun ⟨_, instructions, h, _⟩ => ⟨instructions, h⟩, fun ⟨_, h⟩ => ⟨_, _, h, rfl⟩⟩
  rw [ofLines_eq_mapM, Failure.map_iff, Failure.mapM_iff]
  simp only [hreads, ofLine_eq_error_iff]
  constructor
  · rintro ⟨front, line, back, hsplit, hfront, done, rest, instructions, cause, hline, hdone, h⟩
    exact ⟨front, line, back, done, rest, cause, hsplit, hfront, hline, ⟨instructions, hdone⟩, h⟩
  · rintro ⟨front, line, back, done, rest, cause, hsplit, hfront, hline, ⟨instructions, hdone⟩, h⟩
    exact ⟨front, line, back, hsplit, hfront, done, rest, instructions, cause, hline, hdone, h⟩

end Listing

/-- **Codegen accepts exactly its notation and reports the first fault.** It succeeds if every line
is instructions one after the other, and then gives the words of all of them in their order, for
each the opcode and behind it the operands. If it fails, then for the first instruction at fault,
which has only well-written instructions in front of it in its line and well-written lines before
that; the code of the fault says what is wrong with it. -/
theorem Program.ofLines_iff (lines : List Line) :
    (∀ words, (∃ program, Program.ofLines lines = .ok program ∧ program.words.toList = words) ↔
      ∃ written, List.Forall₂ (fun line => Instruction.AreWritten line.tokens) lines written ∧
        words = written.flatten.flatMap fun instruction =>
          instruction.opcode.byte.toUInt64 :: instruction.operands) ∧
    (∀ fault, Program.ofLines lines = .error fault ↔
      ∃ front line back done rest cause, lines = front ++ line :: back ∧
        (∀ earlier ∈ front, ∃ instructions, Instruction.AreWritten earlier.tokens instructions) ∧
        line.tokens = done ++ rest ∧ (∃ instructions, Instruction.AreWritten done instructions) ∧
        Instruction.Offends rest cause ∧ fault = .inLine line cause) ∧
    ∀ token tokens cause, Instruction.Offends (token :: tokens) cause →
      (cause.code = .unknownMnemonic ↔ ∀ mnemonic, ¬ Instruction.Names token mnemonic) ∧
      (cause.code = .invalidArgument ↔
        ∃ opcode ∈ Opcode.table, Instruction.Names token opcode.mnemonic ∧ ∃ operands rest,
          tokens = operands ++ rest ∧ operands.length = opcode.mnemonic.arity ∧
            Instruction.AreOfKinds operands opcode.kinds) ∧
      cause.code ∈ [.unknownMnemonic, .syntaxError, .invalidArgument] := by
  refine ⟨fun words => ?_, fun fault => ?_, fun token tokens cause hoffends => ?_⟩
  · refine Iff.trans ?_ Listing.exists_ofLines_iff
    constructor
    · rintro ⟨_, hprogram, rfl⟩
      obtain ⟨listing, hlisting, rfl⟩ := Success.map_iff.mp hprogram
      exact ⟨listing, hlisting, (toList_words_ofListing listing).symm⟩
    · rintro ⟨listing, hlisting, rfl⟩
      exact ⟨ofListing listing, Success.map_iff.mpr ⟨listing, hlisting, rfl⟩,
        toList_words_ofListing listing⟩
  · rw [ofLines, Failure.map_iff, Listing.ofLines_eq_error_iff]
  · obtain ⟨hunknown, hinvalid⟩ := hoffends.code_iff
    exact ⟨hunknown, hinvalid, hoffends.code_mem⟩

/-- An instruction is read after the one in front of it, and its kinds before its numerals. -/
example :
    let line : Line := ⟨1, "sample", "halt MOV 5 x", "halt MOV 5 x"⟩
    Program.ofLines [line] = .error (.inLine line (.operandKinds .mov [.literal, .literal])) := by
  decide +kernel

end CellAsm
