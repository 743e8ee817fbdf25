import CellAsm.Proofs.Program.Generation

set_option autoImplicit false

/-! # The instructions that lines spell

Codegen reads a line as a sequence of instructions. `Instruction.Spells` is the notation as a
grammar: a name, then as many operands as the kinds of one of its opcodes ask for. Codegen
succeeds on exactly the lines that spell instructions, and gives these instructions
(`Instruction.parse_eq_ok_iff`, `Listing.ofLines_eq_ok_iff`).
-/

namespace CellAsm

namespace Opcode

theorem ofWord?_byte {op : Opcode} (h : op ∈ table) : ofWord? op.byte.toUInt64 = some op := by
  revert op
  decide

/-- Only the byte of an opcode is read as the opcode. -/
theorem mem_table_of_ofWord? {word : UInt64} {op : Opcode} (h : ofWord? word = some op) :
    op ∈ table ∧ op.byte.toUInt64 = word := by
  unfold ofWord? at h
  split at h
  · next hlt =>
    obtain ⟨hlisted, hbyte⟩ := mem_table_of_decode? h
    refine ⟨hlisted, UInt64.toNat_inj.mp ?_⟩
    have hlt : word.toNat < 256 := UInt64.lt_iff_toNat_lt.mp hlt
    rw [hbyte, UInt8.toNat_toUInt64, UInt64.toNat_toUInt8, Nat.mod_eq_of_lt hlt]
  · cases h

end Opcode

namespace Instruction

/-- The opcode is one of the table and has a word for each operand. -/
structure IsCoded (instruction : Instruction) : Prop where
  listed : instruction.opcode ∈ Opcode.table
  arity : instruction.operands.length = instruction.opcode.mnemonic.arity

/-- A line of tokens spells instructions: each of them is written as the name of its operation,
followed by operands of the kinds of its opcode and with its words as values. -/
inductive Spells : List Token → List Instruction → Prop where
  | nil : Spells [] []
  | cons {token : Token} {operands rest : List Token} {instruction : Instruction}
      {instructions : List Instruction}
      (name : Mnemonic.ofToken? token = some instruction.opcode.mnemonic)
      (listed : instruction.opcode ∈ Opcode.table)
      (kinds : operands.map Kind.ofToken = instruction.opcode.kinds)
      (values : List.Forall₂ (fun operand word => operandWord operand = .ok word)
        operands instruction.operands)
      (others : Spells rest instructions) :
      Spells (token :: operands ++ rest) (instruction :: instructions)

/-- The kinds of an opcode of the table are as many as its operation has operands. -/
theorem length_of_kinds {opcode : Opcode} {operands : List Token} (hlisted : opcode ∈ Opcode.table)
    (hkinds : operands.map Kind.ofToken = opcode.kinds) :
    operands.length = opcode.mnemonic.arity := by
  rw [← Opcode.length_kinds hlisted, ← hkinds, List.length_map]

theorem spells_of_parse {tokens : List Token} {instructions : List Instruction}
    (h : parse tokens = .ok instructions) : Spells tokens instructions := by
  -- the tokens after an instruction are fewer, so the induction is on their number
  generalize hn : tokens.length = n
  induction n using Nat.strongRecOn generalizing tokens instructions with
  | _ n ih =>
    cases tokens with
    | nil =>
        rw [parse_nil] at h
        obtain rfl := Except.ok.inj h
        exact .nil
    | cons token tokens =>
        obtain ⟨mnemonic, first, rest, hname, harity, hfirst, hrest, rfl⟩ := parse_cons_eq_ok h
        obtain ⟨hselect, hvalues⟩ := ofTokens_eq_ok hfirst
        obtain ⟨hlisted, rfl, hkinds⟩ := Opcode.mem_table_of_select? hselect
        have hfewer : (tokens.drop first.opcode.mnemonic.arity).length < n := by
          rw [List.length_drop, ← hn, List.length_cons]
          omega
        have hspells := Spells.cons hname hlisted hkinds.symm hvalues (ih _ hfewer hrest rfl)
        rwa [List.cons_append, List.take_append_drop] at hspells

theorem parse_of_spells {tokens : List Token} {instructions : List Instruction}
    (h : Spells tokens instructions) : parse tokens = .ok instructions := by
  induction h with
  | nil => exact parse_nil
  | @cons token operands rest instruction instructions hname hlisted hkinds hvalues _ ih =>
      have hlength := length_of_kinds hlisted hkinds
      have hfirst : ofTokens instruction.opcode.mnemonic operands = .ok instruction := by
        rw [ofTokens, hkinds, Opcode.select?_kinds hlisted]
        exact Success.bind_iff.mpr ⟨_, Success.mapM_iff.mpr hvalues, rfl⟩
      have henough : ¬ (operands ++ rest).length < instruction.opcode.mnemonic.arity := by
        rw [List.length_append]
        omega
      rw [List.cons_append, parse, hname]
      dsimp only
      rw [if_neg henough, ← hlength, List.take_left, List.drop_left, hfirst]
      exact Success.bind_iff.mpr ⟨_, rfl, Success.bind_iff.mpr ⟨_, ih, rfl⟩⟩

/-- **Codegen reads a line exactly when it spells instructions**, and gives these. -/
theorem parse_eq_ok_iff {tokens : List Token} {instructions : List Instruction} :
    parse tokens = .ok instructions ↔ Spells tokens instructions :=
  ⟨spells_of_parse, parse_of_spells⟩

theorem Spells.isCoded {tokens : List Token} {instructions : List Instruction}
    (h : Spells tokens instructions) : ∀ instruction ∈ instructions, instruction.IsCoded := by
  induction h with
  | nil => simp
  | cons _ hlisted hkinds hvalues _ ih =>
      refine List.forall_mem_cons.mpr ⟨⟨hlisted, ?_⟩, ih⟩
      rw [← hvalues.length_eq, length_of_kinds hlisted hkinds]

end Instruction

namespace Listing

/-- Lines spell a listing: the instructions that the lines spell, in order, each with its line. -/
inductive IsSpelled : List Line → Listing → Prop where
  | nil : IsSpelled [] []
  | cons {line : Line} {lines : List Line} {instructions : List Instruction} {listing : Listing}
      (own : Instruction.Spells line.tokens instructions) (others : IsSpelled lines listing) :
      IsSpelled (line :: lines)
        (instructions.map (fun instruction => (line, instruction)) ++ listing)

/-- **Codegen succeeds on exactly the lines that spell a listing.** -/
theorem ofLines_eq_ok_iff {lines : List Line} {listing : Listing} :
    ofLines lines = .ok listing ↔ IsSpelled lines listing := by
  constructor
  · intro h
    induction lines generalizing listing with
    | nil =>
        obtain rfl := Except.ok.inj h
        exact .nil
    | cons line lines ih =>
        obtain ⟨first, hfirst, h⟩ := Success.bind_iff.mp h
        obtain ⟨rest, hrest, h⟩ := Success.bind_iff.mp h
        obtain rfl := Success.pure_iff.mp h
        obtain ⟨instructions, hparse, hfirst⟩ := Success.bind_iff.mp hfirst
        obtain rfl := Success.pure_iff.mp hfirst
        exact .cons (Instruction.parse_eq_ok_iff.mp (Success.check_iff.mp hparse)) (ih hrest)
  · intro h
    -- the spelling of each line is what the parser reads
    induction h with
    | nil => rfl
    | cons own _ ih =>
        have hparse := Instruction.parse_eq_ok_iff.mpr own
        refine Success.bind_iff.mpr ⟨_, ?_, Success.bind_iff.mpr ⟨_, ih, rfl⟩⟩
        exact Success.bind_iff.mpr ⟨_, Success.check_iff.mpr hparse, rfl⟩

theorem IsSpelled.isCoded {lines : List Line} {listing : Listing} (h : IsSpelled lines listing) :
    ∀ entry ∈ listing, entry.2.IsCoded := by
  induction h with
  | nil => simp
  | cons own _ ih =>
      intro entry hentry
      rcases List.mem_append.mp hentry with hown | hothers
      · obtain ⟨instruction, hinstruction, rfl⟩ := List.mem_map.mp hown
        exact own.isCoded instruction hinstruction
      · exact ih entry hothers

theorem IsSpelled.exists_spells {lines : List Line} {listing : Listing}
    (h : IsSpelled lines listing) :
    ∀ line ∈ lines, ∃ instructions, Instruction.Spells line.tokens instructions := by
  induction h with
  | nil => simp
  | cons own _ ih => exact List.forall_mem_cons.mpr ⟨⟨_, own⟩, ih⟩

/-- What lines spell is a matter of their contents. -/
theorem IsSpelled.exists_of_contents {lines lines' : List Line} {listing : Listing}
    (h : IsSpelled lines listing) (hcontents : lines'.map Line.contents = lines.map Line.contents) :
    ∃ listing', IsSpelled lines' listing' ∧ listing'.words = listing.words := by
  induction h generalizing lines' with
  | nil =>
      obtain rfl := List.map_eq_nil_iff.mp hcontents
      exact ⟨[], .nil, rfl⟩
  | @cons line lines instructions listing own _ ih =>
      obtain ⟨line', rest', rfl, hline, hrest⟩ := List.map_eq_cons_iff.mp hcontents
      obtain ⟨listing', hspelled, hwords⟩ := ih hrest
      have htokens : line'.tokens = line.tokens := by rw [Line.tokens, hline, Line.tokens]
      refine ⟨_, .cons (htokens ▸ own) hspelled, ?_⟩
      rw [words_append, words_append, words_map_pair, words_map_pair, hwords]

end Listing

end CellAsm
