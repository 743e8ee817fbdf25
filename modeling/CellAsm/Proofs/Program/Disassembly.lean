import CellAsm.Proofs.Pass.Plain
import CellAsm.Proofs.Program.Spelling
import CellAsm.Proofs.Text.PhysicalLines

set_option autoImplicit false

/-! # Disassembly

The words of a program are read from the first one on: an opcode tells how many operands follow it,
and behind them stands the next opcode (`Instruction.decode?`). Exactly the words of instructions
with opcodes of the table can be read to their end, and what is read is unique
(`Instruction.decode?_eq_some_iff`). Written back, an instruction is the name of its operation and
its operands in decimal notation, in brackets if they are addresses; this is one of its spellings
(`Instruction.spells_written`). So assembling and disassembling undo each other
(`disassembly_undoes_assembly`).
-/

namespace CellAsm

namespace Instruction

/-! ## Reading words -/

/-- The instructions that the words are the words of, if they are: an opcode, as many operands as
its operation takes, and so on to the end. -/
def decode? : List UInt64 → Option (List Instruction)
  | [] => some []
  | word :: words =>
    match Opcode.ofWord? word with
    | none => none
    | some opcode =>
      if words.length < opcode.mnemonic.arity then none
      else do
        let rest ← decode? (words.drop opcode.mnemonic.arity)
        return ⟨opcode, words.take opcode.mnemonic.arity⟩ :: rest
termination_by words => words.length
decreasing_by
  simp only [List.length_drop, List.length_cons]
  omega

variable {instruction : Instruction} {instructions : List Instruction}

theorem decode?_nil : decode? [] = some [] := by rw [decode?]

theorem decode?_cons_eq_some {word : UInt64} {words : List UInt64}
    (h : decode? (word :: words) = some instructions) :
    ∃ opcode rest, Opcode.ofWord? word = some opcode ∧ opcode.mnemonic.arity ≤ words.length ∧
      decode? (words.drop opcode.mnemonic.arity) = some rest ∧
      instructions = ⟨opcode, words.take opcode.mnemonic.arity⟩ :: rest := by
  rw [decode?] at h
  split at h
  · cases h
  · next opcode hopcode =>
    split at h
    · cases h
    · next hlength =>
      obtain ⟨rest, hrest, h⟩ := Option.bind_eq_some_iff.mp h
      exact ⟨opcode, rest, hopcode, Nat.le_of_not_lt hlength, hrest, (Option.some.inj h).symm⟩

/-- The words of an instruction are read first. -/
theorem decode?_words_append (h : instruction.IsCoded) {words : List UInt64}
    (hrest : decode? words = some instructions) :
    decode? (instruction.words ++ words) = some (instruction :: instructions) := by
  have henough : ¬ (instruction.operands ++ words).length < instruction.opcode.mnemonic.arity := by
    rw [List.length_append, h.arity]
    omega
  rw [Instruction.words, List.cons_append, decode?, Opcode.ofWord?_byte h.listed]
  dsimp only
  rw [if_neg henough, ← h.arity, List.drop_left, List.take_left, hrest]
  rfl

/-- **Words are read as the instructions whose words they are**, and as nothing else. -/
theorem decode?_eq_some_iff {words : List UInt64} :
    decode? words = some instructions ↔
      (∀ instruction ∈ instructions, instruction.IsCoded) ∧
        instructions.flatMap Instruction.words = words := by
  constructor
  · intro h
    -- the words behind an instruction are fewer, so the induction is on their number
    generalize hn : words.length = n
    induction n using Nat.strongRecOn generalizing words instructions with
    | _ n ih =>
      cases words with
      | nil =>
          rw [decode?_nil] at h
          obtain rfl := Option.some.inj h
          simp
      | cons word words =>
          obtain ⟨opcode, rest, hopcode, harity, hrest, rfl⟩ := decode?_cons_eq_some h
          have hfewer : (words.drop opcode.mnemonic.arity).length < n := by
            rw [List.length_drop, ← hn, List.length_cons]
            omega
          obtain ⟨hcoded, hwords⟩ := ih _ hfewer hrest rfl
          obtain ⟨hlisted, hbyte⟩ := Opcode.mem_table_of_ofWord? hopcode
          refine ⟨List.forall_mem_cons.mpr ⟨⟨hlisted, ?_⟩, hcoded⟩, ?_⟩
          · exact List.length_take_of_le harity
          · rw [List.flatMap_cons, hwords, Instruction.words, List.cons_append, hbyte,
              List.take_append_drop]
  · rintro ⟨hcoded, rfl⟩
    induction instructions with
    | nil => exact decode?_nil
    | cons instruction instructions ih =>
        obtain ⟨hfirst, hcoded⟩ := List.forall_mem_cons.mp hcoded
        rw [List.flatMap_cons]
        exact decode?_words_append hfirst (ih hcoded)

/-! ## Writing instructions back -/

/-- An operand in decimal notation, in brackets if it is an address. -/
def writeOperand (kind : Kind) (word : UInt64) : Token :=
  match kind with
  | .address => ['['] ++ Text.decimal word.toNat ++ [']']
  | .literal => Text.decimal word.toNat

/-- The name of the operation and the operands. -/
def written (instruction : Instruction) : List Token :=
  instruction.opcode.mnemonic.name.toList
    :: List.zipWith writeOperand instruction.opcode.kinds instruction.operands

/-- The line that holds the instructions. -/
def line (instructions : List Instruction) : String :=
  String.ofList (Token.join (instructions.flatMap written))

theorem ofToken_writeOperand (kind : Kind) (word : UInt64) :
    Kind.ofToken (writeOperand kind word) = kind := by
  cases kind with
  | address => rfl
  | literal =>
      unfold writeOperand Kind.ofToken
      split
      · next rest heq =>
        exact absurd (congrArg List.head? heq) (Text.head?_decimal_ne (by decide))
      · rfl

theorem operandWord_writeOperand (kind : Kind) (word : UInt64) :
    operandWord (writeOperand kind word) = .ok word := by
  have hbare : bareOperand (writeOperand kind word) = Text.decimal word.toNat := by
    cases kind with
    | address => exact bareOperand_brackets word.toNat
    | literal => exact bareOperand_decimal word.toNat
  have hvalue : Text.decimal? (Text.decimal word.toNat) = some word :=
    Text.decimal?_decimal_eq_some_iff.mpr ⟨word.toNat_lt, (UInt64.ofNat_toNat).symm⟩
  rw [operandWord, hbare, hvalue]

theorem written_operands {kinds : List Kind} {words : List UInt64}
    (h : kinds.length = words.length) :
    (List.zipWith writeOperand kinds words).map Kind.ofToken = kinds ∧
      List.Forall₂ (fun operand word => operandWord operand = .ok word)
        (List.zipWith writeOperand kinds words) words := by
  induction kinds generalizing words with
  | nil =>
      obtain rfl := List.length_eq_zero_iff.mp h.symm
      exact ⟨rfl, .nil⟩
  | cons kind kinds ih =>
      cases words with
      | nil => cases h
      | cons word words =>
          obtain ⟨hkinds, hvalues⟩ := ih (Nat.succ.inj h)
          refine ⟨?_, .cons (operandWord_writeOperand kind word) hvalues⟩
          rw [List.zipWith_cons_cons, List.map_cons, ofToken_writeOperand, hkinds]

/-- **What is written back spells the instructions.** -/
theorem spells_written (h : ∀ instruction ∈ instructions, instruction.IsCoded) :
    Spells (instructions.flatMap written) instructions := by
  induction instructions with
  | nil => exact .nil
  | cons instruction instructions ih =>
      obtain ⟨hfirst, hrest⟩ := List.forall_mem_cons.mp h
      have hlength : instruction.opcode.kinds.length = instruction.operands.length := by
        rw [Opcode.length_kinds hfirst.listed, hfirst.arity]
      obtain ⟨hkinds, hvalues⟩ := written_operands hlength
      exact .cons (Mnemonic.ofToken?_name _) hfirst.listed hkinds hvalues (ih hrest)

/-! ## The lines that are written -/

theorem isPlain_writeOperand (kind : Kind) (word : UInt64) : (writeOperand kind word).IsPlain := by
  cases kind with
  | address => exact Token.isPlain_cell word.toNat
  | literal => exact Token.isPlain_decimal word.toNat

theorem isPlain_name (mnemonic : Mnemonic) : Token.IsPlain mnemonic.name.toList := by
  cases mnemonic <;> decide

theorem isPlain_of_mem_written {token : Token} (h : token ∈ instructions.flatMap written) :
    token.IsPlain := by
  obtain ⟨instruction, -, htoken⟩ := List.mem_flatMap.mp h
  rcases List.mem_cons.mp htoken with rfl | htoken
  · exact isPlain_name _
  · rw [← List.map_uncurry_zip_eq_zipWith] at htoken
    obtain ⟨⟨kind, word⟩, -, rfl⟩ := List.mem_map.mp htoken
    exact isPlain_writeOperand kind word

theorem scan_line (instructions : List Instruction) :
    Token.scan (line instructions).toList = instructions.flatMap written := by
  rw [line, String.toList_ofList]
  exact Token.scan_join_of_isPlain fun token htoken => isPlain_of_mem_written htoken

theorem isPhysical_line (instructions : List Instruction) :
    Text.IsPhysical (line instructions).toList := by
  rw [line, String.toList_ofList]
  exact Text.isPhysical_join fun token htoken c hc => ((isPlain_of_mem_written htoken).2 c hc).1

theorem line_ne_nil (h : instructions ≠ []) : (line instructions).toList ≠ [] := by
  intro hnil
  have hscan := scan_line instructions
  obtain ⟨instruction, rest, rfl⟩ := List.exists_cons_of_ne_nil h
  rw [hnil, Token.scan_nil] at hscan
  cases hscan

variable {groups : List (List Instruction)}

/-- The texts of instructions that are grouped into lines, which line feeds separate or end. -/
def texts (groups : List (List Instruction)) : List String :=
  ["\n".intercalate (groups.map line), String.join (groups.map (line · ++ "\n"))]

theorem physicalLines_of_mem_texts {text : String} (h : text ∈ texts groups) (hne : [] ∉ groups) :
    Text.physicalLines text.toList = groups.map fun group => (line group).toList := by
  have hphysical : ∀ written ∈ groups.map fun group => (line group).toList,
      Text.IsPhysical written :=
    List.forall_mem_map.mpr fun group _ => isPhysical_line group
  simp only [texts, List.mem_cons, List.not_mem_nil, or_false] at h
  rcases h with rfl | rfl
  · rw [String.toList_intercalate, List.map_map]
    refine Text.physicalLines_separated hphysical (List.forall_mem_map.mpr fun group hgroup => ?_)
    refine line_ne_nil ?_
    rintro rfl
    exact hne hgroup
  · have hended := Text.toList_join_ended (groups.map line)
    rw [List.map_map, List.map_map] at hended
    exact (congrArg Text.physicalLines hended).trans (Text.physicalLines_ended hphysical)

end Instruction

theorem Listing.exists_isSpelled_written {lines : List Line} {groups : List (List Instruction)}
    (hcoded : ∀ group ∈ groups, ∀ instruction ∈ group, instruction.IsCoded)
    (h : lines.map Line.tokens = groups.map fun group => group.flatMap Instruction.written) :
    ∃ listing, IsSpelled lines listing ∧ listing.map Prod.snd = groups.flatten := by
  induction groups generalizing lines with
  | nil =>
      obtain rfl := List.map_eq_nil_iff.mp h
      exact ⟨[], .nil, rfl⟩
  | cons group groups ih =>
      obtain ⟨hgroup, hgroups⟩ := List.forall_mem_cons.mp hcoded
      obtain ⟨line, rest, rfl, hline, hrest⟩ := List.map_eq_cons_iff.mp h
      obtain ⟨listing, hspelled, hlisting⟩ := ih hgroups hrest
      have hown : Instruction.Spells line.tokens group := by
        rw [hline]
        exact Instruction.spells_written hgroup
      refine ⟨_, .cons hown hspelled, ?_⟩
      rw [List.map_append, List.map_map, hlisting, List.flatten_cons]
      exact congrArg (· ++ _) (List.map_id group)

/-- **Disassembly undoes assembly, and assembly disassembly.** If lines are encoded as a program,
its words are read to their end as the instructions that the lines spell, in their order. And if
words are read as instructions, these can be written to any number of lines, in every grouping: the
text is encoded as the words. -/
theorem disassembly_undoes_assembly :
    (∀ lines program, Program.ofLines lines = .ok program →
      ∃ listing, Listing.IsSpelled lines listing ∧
        Instruction.decode? program.words.toList = some (listing.map Prod.snd)) ∧
      ∀ words instructions, Instruction.decode? words = some instructions →
        ∀ groups, groups.flatten = instructions → [] ∉ groups →
          ∀ file, ∀ text ∈ Instruction.texts groups,
            ∃ program, Program.ofLines (Line.ofText file text) = .ok program ∧
              program.words.toList = words := by
  constructor
  · intro lines program h
    obtain ⟨listing, hlisting, rfl⟩ := Success.map_iff.mp h
    have hspelled := Listing.ofLines_eq_ok_iff.mp hlisting
    refine ⟨listing, hspelled, Instruction.decode?_eq_some_iff.mpr ⟨?_, ?_⟩⟩
    · exact List.forall_mem_map.mpr hspelled.isCoded
    · rw [Program.toList_words_ofListing, Listing.words, List.flatMap_map]
  · rintro words _ h groups rfl hne file text htext
    obtain ⟨hcoded, rfl⟩ := Instruction.decode?_eq_some_iff.mp h
    have htokens : (Line.ofText file text).map Line.tokens
        = groups.map fun group => group.flatMap Instruction.written := by
      rw [Line.map_tokens_ofText, Instruction.physicalLines_of_mem_texts htext hne, List.map_map]
      exact List.map_congr_left fun group _ => Instruction.scan_line group
    obtain ⟨listing, hspelled, hlisting⟩ := Listing.exists_isSpelled_written
      (fun group hgroup instruction hinstruction =>
        hcoded instruction (List.mem_flatten_of_mem hgroup hinstruction)) htokens
    refine ⟨.ofListing listing, ?_, ?_⟩
    · exact Success.map_iff.mpr ⟨listing, Listing.ofLines_eq_ok_iff.mpr hspelled, rfl⟩
    · rw [Program.toList_words_ofListing, Listing.words, ← hlisting, List.flatMap_map]

/-! ### Two instructions on a line -/

namespace Disassembly.Sample

def line : Line := ⟨1, "sample", "add [0] +7 HALT", "add [0] +7 HALT"⟩

def add : Instruction := ⟨⟨0x0B, .add, [.address, .literal]⟩, [0, 7]⟩

def halt : Instruction := ⟨⟨0xFF, .halt, []⟩, []⟩

def program : Program := .ofListing [(line, add), (line, halt)]

theorem ofLines_line : Program.ofLines [line] = .ok program := by decide +kernel

theorem decode?_words : Instruction.decode? program.words.toList = some [add, halt] := by
  decide +kernel

end Disassembly.Sample

open Disassembly.Sample in
theorem disassembly_undoes_assembly_sample :
    (∃ listing, Listing.IsSpelled [line] listing ∧
      Instruction.decode? program.words.toList = some (listing.map Prod.snd)) ∧
      "ADD [0] 7\nHALT" ∈ Instruction.texts [[add], [halt]] ∧
      ∃ again, Program.ofLines (Line.ofText "again" "ADD [0] 7\nHALT") = .ok again ∧
        again.words.toList = [0x0B, 0, 7, 0xFF] := by
  obtain ⟨hdecode, hwrite⟩ := disassembly_undoes_assembly
  have htext : "ADD [0] 7\nHALT" ∈ Instruction.texts [[add], [halt]] := by decide +kernel
  refine ⟨hdecode [line] program ofLines_line, htext, ?_⟩
  exact hwrite _ _ decode?_words [[add], [halt]] rfl (by decide) "again" _ htext

end CellAsm
