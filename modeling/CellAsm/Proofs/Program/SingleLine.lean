import CellAsm.Proofs.Program.Compiled

set_option autoImplicit false

/-! # Lines of one instruction

The lines that subroutines expand to move a value into a cell, jump, or define a label. What an
operand is at run time is an `Operand`, the way it is written and its word; `Denotes` finds it
through constants and labels. Each of the three kinds of lines has one lemma that says what words
it is assembled to (`Compiles.of_move`, `Compiles.of_jump`, `Compiles.of_label`).
-/

namespace CellAsm

/-- An operand as the machine finds it. -/
structure Operand where
  kind : Kind
  word : UInt64
deriving DecidableEq

/-- What a token is after its constants and labels have been replaced. -/
def Denotes (labels : Label.Table) (table : Constant.Table) (token : Token) (operand : Operand) :
    Prop :=
  ∃ resolved kept, table.resolve token = .ok resolved ∧ labels.kept? resolved = some kept ∧
    Kind.ofToken kept = operand.kind ∧ Instruction.operandWord kept = .ok operand.word

/-! ## Operands -/

theorem Kind.ofToken_decimal (n : Nat) : Kind.ofToken (Text.decimal n) = .literal := by
  unfold Kind.ofToken
  split
  · next rest hn => exact absurd (by rw [hn]; rfl) (Text.head?_decimal_ne (n := n) (c := '[') (by decide))
  · rfl

theorem Label.ofToken?_cell (n : Nat) : Label.ofToken? (Constant.cell n) = none := by
  refine Label.ofToken?_eq_none (by simp [Constant.cell]) ?_
  rw [Constant.cell, List.getLast?_concat]
  decide

namespace Denotes

variable {labels : Label.Table} {table : Constant.Table} {operand : Operand}

/-- An operand is known from the token that is left of it, if that is a number in brackets or
without. -/
theorem eq_of_kept {token resolved kept : Token} {n : Nat} (h : Denotes labels table token operand)
    (hresolved : table.resolve token = .ok resolved) (hkept : labels.kept? resolved = some kept)
    (hbare : Instruction.bareOperand kept = Text.decimal n) :
    n < 2 ^ 64 ∧ operand = ⟨Kind.ofToken kept, UInt64.ofNat n⟩ := by
  obtain ⟨resolved', kept', hresolved', hkept', hkind, hword⟩ := h
  obtain rfl := Except.ok.inj (hresolved.symm.trans hresolved')
  obtain rfl := Option.some.inj (hkept.symm.trans hkept')
  obtain ⟨hlt, hvalue⟩ := Instruction.lt_of_operandWord hbare hword
  obtain ⟨kind, word⟩ := operand
  refine ⟨hlt, ?_⟩
  rw [Operand.mk.injEq]
  exact ⟨hkind.symm, hvalue⟩

/-- The number of a cell in brackets is an address. -/
theorem of_brackets {n : Nat} (h : Denotes labels table (Constant.cell n) operand) :
    n < 2 ^ 64 ∧ operand = ⟨.address, UInt64.ofNat n⟩ :=
  h.eq_of_kept (Constant.Table.resolve_of_head? (by simp [Constant.cell]))
    (Label.Table.kept?_of_ofToken?_eq_none (Label.ofToken?_cell n))
    (Instruction.bareOperand_brackets n)

/-- A constant for a cell is written in brackets. -/
theorem of_cell {name : Token} {n : Nat} (h : Denotes labels table ('$' :: name) operand)
    (hcell : table.valueOf name = .ok (Constant.cell n)) :
    n < 2 ^ 64 ∧ operand = ⟨.address, UInt64.ofNat n⟩ :=
  h.eq_of_kept hcell (Label.Table.kept?_of_ofToken?_eq_none (Label.ofToken?_cell n))
    (Instruction.bareOperand_brackets n)

/-- A reference to a label is its address, written without brackets. -/
theorem of_reference {name : Token} {address : Nat} (h : Denotes labels table (':' :: name) operand)
    (haddress : labels.address? name = some address) :
    address < 2 ^ 64 ∧ operand = ⟨.literal, UInt64.ofNat address⟩ := by
  have hoperand := h.eq_of_kept rfl (Label.Table.kept?_reference haddress)
    (Instruction.bareOperand_decimal address)
  rwa [Kind.ofToken_decimal] at hoperand

/-- A number is written as it is. -/
theorem of_decimal {n : Nat} (h : Denotes labels table (Text.decimal n) operand) :
    n < 2 ^ 64 ∧ operand = ⟨.literal, UInt64.ofNat n⟩ := by
  have hlabel : Label.ofToken? (Text.decimal n) = none :=
    Label.ofToken?_eq_none (Text.head?_decimal_ne (by decide)) (Text.getLast?_decimal_ne (by decide))
  have hoperand := h.eq_of_kept
    (Constant.Table.resolve_of_head? (Text.head?_decimal_ne (by decide)))
    (Label.Table.kept?_of_ofToken?_eq_none hlabel) (Instruction.bareOperand_decimal n)
  rwa [Kind.ofToken_decimal] at hoperand

end Denotes

/-! ## Lines -/

/-- The opcode that moves a value of the given kind into a cell. -/
def moveOpcode (kind : Kind) : Opcode :=
  match kind with
  | .address => ⟨0x07, .mov, [.address, .address]⟩
  | .literal => ⟨0x08, .mov, [.address, .literal]⟩

/-- The opcode that jumps to a target of the given kind. -/
def jumpOpcode (kind : Kind) : Opcode :=
  match kind with
  | .address => ⟨0x0E, .jmp, [.address]⟩
  | .literal => ⟨0x0F, .jmp, [.literal]⟩

theorem select?_move (kind : Kind) : Opcode.select? .mov [.address, kind] = some (moveOpcode kind) := by
  cases kind <;> decide

theorem select?_jump (kind : Kind) : Opcode.select? .jmp [kind] = some (jumpOpcode kind) := by
  cases kind <;> decide

namespace Compiles

variable {labels : Label.Table} {cells start : Nat} {table last : Constant.Table}
  {line : Line} {listing : Listing}

/-- Tokens that all remain in the label pass and are read as words denote operands. -/
theorem exists_denoted {tokens resolved : List Token} {values : List UInt64}
    (hresolved : tokens.mapM table.resolve = .ok resolved)
    (hkept : ∀ token ∈ resolved, (labels.kept? token).isSome = true)
    (hvalues : List.Forall₂ (fun token word => Instruction.operandWord token = .ok word)
      (resolved.filterMap labels.kept?) values) :
    ∃ operands, List.Forall₂ (Denotes labels table) tokens operands ∧
      operands.map Operand.kind = (resolved.filterMap labels.kept?).map Kind.ofToken ∧
      operands.map Operand.word = values := by
  induction tokens generalizing resolved values with
  | nil =>
      obtain rfl := Success.mapM_nil_iff.mp hresolved
      obtain rfl := List.forall₂_nil_left_iff.mp hvalues
      exact ⟨[], .nil, rfl, rfl⟩
  | cons token tokens ih =>
      obtain ⟨first, rest, hfirst, hrest, rfl⟩ := Success.mapM_cons_iff.mp hresolved
      obtain ⟨hfirstKept, hrestKept⟩ := List.forall_mem_cons.mp hkept
      obtain ⟨kept, hkeptEq⟩ := Option.isSome_iff_exists.mp hfirstKept
      rw [List.filterMap_cons_some hkeptEq] at hvalues ⊢
      obtain ⟨word, words, hword, hwords, rfl⟩ := List.forall₂_cons_left_iff.mp hvalues
      obtain ⟨operands, hdenotes, hkinds, hmapWords⟩ := ih hrest hrestKept hwords
      refine ⟨⟨Kind.ofToken kept, word⟩ :: operands,
        .cons ⟨first, kept, hfirst, hkeptEq, rfl, hword⟩ hdenotes, ?_, ?_⟩
      · rw [List.map_cons, List.map_cons, hkinds]
      · rw [List.map_cons, hmapWords]

/-- **A line of one instruction with all its operands** is assembled to the opcode for the kinds of
the operands and their words. -/
theorem of_instruction (h : Compiles labels cells start table [line] last listing)
    {mnemonic : Mnemonic} {tokens : List Token}
    (htokens : line.tokens = mnemonic.name.toList :: tokens)
    (hlength : tokens.length = mnemonic.arity) :
    last = table ∧ ∃ operands opcode, List.Forall₂ (Denotes labels table) tokens operands ∧
      Opcode.select? mnemonic (operands.map Operand.kind) = some opcode ∧
      listing.words = opcode.byte.toUInt64 :: operands.map Operand.word := by
  have hhead : mnemonic.name.toList.head? ≠ some '$' := by cases mnemonic <;> decide
  have hname : Label.ofToken? mnemonic.name.toList = none := by cases mnemonic <;> decide
  obtain ⟨rfl, resolved, instructions, hresolved, hparse, hwords, -⟩ :=
    h.of_code (by rw [htokens]; exact Constant.Statement.ofTokens_of_head? hhead _)
  rw [htokens] at hresolved
  obtain ⟨first, rest, hfirst, hrest, rfl⟩ := Success.mapM_cons_iff.mp hresolved
  rw [Constant.Table.resolve_of_head? hhead] at hfirst
  obtain rfl := Except.ok.inj hfirst
  -- the name is no constant and no label, so the line still begins with it
  rw [List.filterMap_cons_some (Label.Table.kept?_of_ofToken?_eq_none hname)] at hparse
  have hrestLength : rest.length = mnemonic.arity := by
    rw [← hlength, (Success.mapM_iff.mp hrest).length_eq]
  have hle : (rest.filterMap labels.kept?).length ≤ mnemonic.arity := by
    rw [← hrestLength]
    exact List.length_filterMap_le _ _
  obtain ⟨hexact, opcode, values, hselect, hvalues, hinstructions⟩ :=
    Instruction.words_of_parse_single hparse (Mnemonic.ofToken?_name mnemonic) hle
  -- no operand vanished, or there would be too few
  have hkept : ∀ token ∈ rest, (labels.kept? token).isSome = true :=
    List.filterMap_length_eq_length.mp (hexact.trans hrestLength.symm)
  obtain ⟨operands, hdenotes, hkinds, hvaluesEq⟩ := exists_denoted hrest hkept hvalues
  refine ⟨rfl, operands, opcode, hdenotes, ?_, ?_⟩
  · rwa [hkinds]
  · rw [hwords, hinstructions, hvaluesEq]

/-- A line that moves an operand into the cell of a constant. -/
theorem of_move (h : Compiles labels cells start table [line] last listing) {name source : Token}
    (htokens : line.tokens = ["MOV".toList, '$' :: name, source]) {n : Nat}
    (hcell : table.valueOf name = .ok (Constant.cell n)) :
    last = table ∧ n < 2 ^ 64 ∧ ∃ operand, Denotes labels table source operand ∧
      listing.words = [(moveOpcode operand.kind).byte.toUInt64, UInt64.ofNat n, operand.word] := by
  have hmov : line.tokens = Mnemonic.mov.name.toList :: ['$' :: name, source] := htokens
  obtain ⟨rfl, operands, opcode, hdenotes, hselect, hwords⟩ := h.of_instruction hmov rfl
  obtain ⟨destination, _, hdestination, htail, rfl⟩ := List.forall₂_cons_left_iff.mp hdenotes
  obtain ⟨operand, _, hoperand, hnil, rfl⟩ := List.forall₂_cons_left_iff.mp htail
  obtain rfl := List.forall₂_nil_left_iff.mp hnil
  obtain ⟨hlt, rfl⟩ := hdestination.of_cell hcell
  have hopcode : opcode = moveOpcode operand.kind :=
    Option.some.inj (hselect.symm.trans (select?_move _))
  exact ⟨rfl, hlt, operand, hoperand, by rw [hwords, hopcode]; rfl⟩

/-- A line that jumps to an operand. -/
theorem of_jump (h : Compiles labels cells start table [line] last listing) {target : Token}
    (htokens : line.tokens = ["JMP".toList, target]) :
    last = table ∧ ∃ operand, Denotes labels table target operand ∧
      listing.words = [(jumpOpcode operand.kind).byte.toUInt64, operand.word] := by
  have hjmp : line.tokens = Mnemonic.jmp.name.toList :: [target] := htokens
  obtain ⟨rfl, operands, opcode, hdenotes, hselect, hwords⟩ := h.of_instruction hjmp rfl
  obtain ⟨operand, _, hoperand, hnil, rfl⟩ := List.forall₂_cons_left_iff.mp hdenotes
  obtain rfl := List.forall₂_nil_left_iff.mp hnil
  have hopcode : opcode = jumpOpcode operand.kind :=
    Option.some.inj (hselect.symm.trans (select?_jump _))
  exact ⟨rfl, operand, hoperand, by rw [hwords, hopcode]; rfl⟩

/-- A line that defines a label emits nothing, and the label stands for the address of the
line. -/
theorem of_label (h : Compiles labels cells start table [line] last listing) {name : Token}
    (htokens : line.tokens = [name ++ [':']]) (hne : name ≠ []) (hcolon : name.head? ≠ some ':')
    (hsigil : name.head? ≠ some '$') :
    last = table ∧ listing.words = [] ∧ labels.address? name = some start := by
  have hdefinition : Label.ofToken? (name ++ [':']) = some (.definition name) :=
    Label.ofToken?_append_colon hcolon hne
  have hhead : (name ++ [':']).head? ≠ some '$' := by
    obtain ⟨c, rest, rfl⟩ := List.exists_cons_of_ne_nil hne
    exact hsigil
  obtain ⟨rfl, resolved, instructions, hresolved, hparse, hwords, haddress⟩ :=
    h.of_code (by rw [htokens]; exact Constant.Statement.ofTokens_of_head? hhead [])
  rw [htokens] at hresolved
  obtain ⟨_, _, hname, hnil, rfl⟩ := Success.mapM_cons_iff.mp hresolved
  obtain rfl := Success.mapM_nil_iff.mp hnil
  rw [Constant.Table.resolve_of_head? hhead] at hname
  obtain rfl := Except.ok.inj hname
  -- the definition is all there is on the line, so nothing is left to encode
  have hkept : labels.kept? (name ++ [':']) = none := by rw [Label.Table.kept?, hdefinition]
  rw [List.filterMap_cons_none hkept, List.filterMap_nil, Instruction.parse_nil] at hparse
  obtain rfl := Except.ok.inj hparse
  refine ⟨rfl, hwords, ?_⟩
  exact haddress [] (name ++ [':']) [] name rfl hdefinition

end Compiles

end CellAsm
