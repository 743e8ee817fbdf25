import CellAsm.Program
import CellAsm.Proofs.Success
import CellAsm.Proofs.Text.Decimal

set_option autoImplicit false

/-! # One word for each token

Codegen reads the tokens of a line instruction by instruction and emits one word for each token:
the opcode for the name of the operation, the value for an operand. `Encodes` says so as a
grammar over tokens paired with their words. `encodes_of_parse` is the soundness of codegen
against it, so the words of a line are as many as its tokens.
-/

namespace CellAsm

namespace Instruction

/-- The tokens of a line, each paired with the word that is emitted for it: a sequence of
instructions, each of which is a name with as many operands as the operation takes, written in a
way that the operation has. -/
inductive Encodes : List (Token × UInt64) → Prop where
  | nil : Encodes []
  | cons {token : Token} {mnemonic : Mnemonic} {opcode : Opcode}
      {operands rest : List (Token × UInt64)}
      (name : Mnemonic.ofToken? token = some mnemonic)
      (arity : operands.length = mnemonic.arity)
      (kinds : Opcode.select? mnemonic (operands.map fun operand => Kind.ofToken operand.1)
        = some opcode)
      (values : ∀ operand ∈ operands, operandWord operand.1 = .ok operand.2)
      (others : Encodes rest) :
      Encodes ((token, opcode.byte.toUInt64) :: operands ++ rest)

/-- An instruction is its opcode, selected by the kinds, with the words of its operands. -/
theorem ofTokens_eq_ok {mnemonic : Mnemonic} {operands : List Token} {instruction : Instruction}
    (h : ofTokens mnemonic operands = .ok instruction) :
    Opcode.select? mnemonic (operands.map Kind.ofToken) = some instruction.opcode ∧
      List.Forall₂ (fun operand word => operandWord operand = .ok word)
        operands instruction.operands := by
  simp only [ofTokens] at h
  split at h
  · exact absurd h (by simp)
  · next opcode hselect =>
    obtain ⟨words, hwords, h⟩ := Success.bind_iff.mp h
    obtain rfl := Success.pure_iff.mp h
    exact ⟨hselect, Success.mapM_iff.mp hwords⟩

theorem parse_nil : parse [] = .ok [] := by rw [parse]

/-- A line with a first token is an instruction of the operation that the token names, followed by
the instructions of the tokens after its operands. -/
theorem parse_cons_eq_ok {token : Token} {tokens : List Token} {instructions : List Instruction}
    (h : parse (token :: tokens) = .ok instructions) :
    ∃ mnemonic first rest, Mnemonic.ofToken? token = some mnemonic ∧
      mnemonic.arity ≤ tokens.length ∧
      ofTokens mnemonic (tokens.take mnemonic.arity) = .ok first ∧
      parse (tokens.drop mnemonic.arity) = .ok rest ∧ instructions = first :: rest := by
  rw [parse] at h
  split at h
  · exact absurd h (by simp)
  · next mnemonic hname =>
    split at h
    · exact absurd h (by simp)
    · next hlength =>
      obtain ⟨first, hfirst, h⟩ := Success.bind_iff.mp h
      obtain ⟨rest, hrest, h⟩ := Success.bind_iff.mp h
      exact ⟨mnemonic, first, rest, hname, Nat.le_of_not_lt hlength, hfirst, hrest,
        (Success.pure_iff.mp h).symm⟩

theorem values_of_forall₂ {operands : List Token} {words : List UInt64}
    (h : List.Forall₂ (fun operand word => operandWord operand = .ok word) operands words) :
    ∀ operand ∈ operands.zip words, operandWord operand.1 = .ok operand.2 := by
  induction h with
  | nil => simp
  | cons hword _ ih =>
      rw [List.zip_cons_cons, List.forall_mem_cons]
      exact ⟨hword, ih⟩

/-- **Codegen emits one word for each token**, as the grammar says. -/
theorem encodes_of_parse {tokens : List Token} {instructions : List Instruction}
    (h : parse tokens = .ok instructions) :
    ∃ pairs, Encodes pairs ∧ pairs.map Prod.fst = tokens ∧
      pairs.map Prod.snd = instructions.flatMap words := by
  -- the tokens after an instruction are fewer, so the induction is on their number
  generalize hn : tokens.length = n
  induction n using Nat.strongRecOn generalizing tokens instructions with
  | _ n ih =>
    cases tokens with
    | nil =>
        rw [parse_nil, Except.ok.injEq] at h
        subst h
        exact ⟨[], .nil, rfl, rfl⟩
    | cons token tokens =>
        obtain ⟨mnemonic, first, rest, hname, harity, hfirst, hrest, rfl⟩ := parse_cons_eq_ok h
        -- the operands with their words, then what the rest of the tokens gives
        obtain ⟨hselect, hwords⟩ := ofTokens_eq_ok hfirst
        have hfewer : (tokens.drop mnemonic.arity).length < n := by
          rw [List.length_drop, ← hn, List.length_cons]
          omega
        obtain ⟨pairs, hpairs, hfst, hsnd⟩ := ih _ hfewer hrest rfl
        have hlength := hwords.length_eq
        have htake : (tokens.take mnemonic.arity).length = mnemonic.arity :=
          List.length_take_of_le harity
        have hzipFst : ((tokens.take mnemonic.arity).zip first.operands).map Prod.fst
            = tokens.take mnemonic.arity :=
          List.map_fst_zip (Nat.le_of_eq hlength)
        have hzipSnd : ((tokens.take mnemonic.arity).zip first.operands).map Prod.snd
            = first.operands :=
          List.map_snd_zip (Nat.le_of_eq hlength.symm)
        refine ⟨(token, first.opcode.byte.toUInt64)
          :: (tokens.take mnemonic.arity).zip first.operands ++ pairs,
          .cons hname ?_ ?_ (values_of_forall₂ hwords) hpairs, ?_, ?_⟩
        · rw [List.length_zip, ← hlength, htake, Nat.min_self]
        · rw [← hselect]
          conv => rhs; rw [← hzipFst]
          rw [List.map_map]
          rfl
        · rw [List.map_append, List.map_cons, hzipFst, hfst, List.cons_append,
            List.take_append_drop]
        · rw [List.map_append, List.map_cons, hzipSnd, hsnd, List.flatMap_cons]
          rfl

/-- The words of a line that holds at most one instruction. -/
theorem words_of_parse_single {token : Token} {operands : List Token} {mnemonic : Mnemonic}
    {instructions : List Instruction} (h : parse (token :: operands) = .ok instructions)
    (hname : Mnemonic.ofToken? token = some mnemonic)
    (hlength : operands.length ≤ mnemonic.arity) :
    operands.length = mnemonic.arity ∧ ∃ opcode values,
      Opcode.select? mnemonic (operands.map Kind.ofToken) = some opcode ∧
      List.Forall₂ (fun operand word => operandWord operand = .ok word) operands values ∧
      instructions.flatMap words = opcode.byte.toUInt64 :: values := by
  obtain ⟨mnemonic', first, rest, hname', harity, hfirst, hrest, rfl⟩ := parse_cons_eq_ok h
  obtain rfl := Option.some.inj (hname.symm.trans hname')
  have hexact : operands.length = mnemonic.arity := Nat.le_antisymm hlength harity
  rw [List.take_of_length_le hlength] at hfirst
  rw [List.drop_of_length_le hlength, parse_nil] at hrest
  obtain rfl := Except.ok.inj hrest
  obtain ⟨hselect, hvalues⟩ := ofTokens_eq_ok hfirst
  refine ⟨hexact, first.opcode, first.operands, hselect, hvalues, ?_⟩
  rw [List.flatMap_cons, List.flatMap_nil, List.append_nil, words]

/-- A token that names no operation is an operand. -/
theorem Encodes.operandWord_of_mem {pairs : List (Token × UInt64)} (h : Encodes pairs)
    {token : Token} {word : UInt64} (hmem : (token, word) ∈ pairs)
    (hname : Mnemonic.ofToken? token = none) : operandWord token = .ok word := by
  induction h with
  | nil => simp at hmem
  | cons name _ _ values _ ih =>
      rw [List.cons_append, List.mem_cons, List.mem_append] at hmem
      rcases hmem with heq | hoperand | hrest
      · obtain ⟨rfl, -⟩ := Prod.mk.inj heq
        exact absurd (hname.symm.trans name) (by simp)
      · exact values (token, word) hoperand
      · exact ih hrest

/-! ## Operands in decimal notation -/

theorem dropWhile_replicate_append {c : Char} {s : List Char} (h : c ∉ s) (n : Nat) :
    (List.replicate n c ++ s).dropWhile (· = c) = s := by
  rw [List.dropWhile_append_of_pos (by simp)]
  cases s with
  | nil => rfl
  | cons d rest =>
      refine List.dropWhile_cons_of_neg fun hd => h ?_
      rw [of_decide_eq_true hd]
      exact List.mem_cons_self

/-- Brackets around an operand are taken off, however many there are. -/
theorem bareOperand_replicate {s : List Char} (hopening : '[' ∉ s) (hclosing : ']' ∉ s)
    (opening closing : Nat) :
    bareOperand (List.replicate opening '[' ++ s ++ List.replicate closing ']') = s := by
  have hopen : '[' ∉ s ++ List.replicate closing ']' := by simp [hopening]
  rw [bareOperand, List.append_assoc, dropWhile_replicate_append hopen, List.reverse_append,
    List.reverse_replicate, dropWhile_replicate_append (by simpa using hclosing),
    List.reverse_reverse]

theorem bareOperand_decimal (n : Nat) : bareOperand (Text.decimal n) = Text.decimal n := by
  have h := bareOperand_replicate (Text.not_mem_decimal (n := n) (by decide))
    (Text.not_mem_decimal (by decide)) 0 0
  simpa using h

/-- A number in brackets is read like the number. -/
theorem bareOperand_brackets (n : Nat) :
    bareOperand (['['] ++ Text.decimal n ++ [']']) = Text.decimal n :=
  bareOperand_replicate (Text.not_mem_decimal (by decide)) (Text.not_mem_decimal (by decide)) 1 1

/-- Only a number that fits a word is an operand, with brackets or without. -/
theorem lt_of_operandWord {token : Token} {n : Nat} {word : UInt64}
    (hbare : bareOperand token = Text.decimal n) (h : operandWord token = .ok word) :
    n < 2 ^ 64 ∧ word = UInt64.ofNat n := by
  unfold operandWord at h
  rw [hbare] at h
  split at h
  · next word' hword =>
    rw [Except.ok.injEq] at h
    subst h
    exact Text.decimal?_decimal_eq_some_iff.mp hword
  · exact absurd h (by simp)

end Instruction

/-- The name of an operation holds no digit, so a number names none. -/
theorem Mnemonic.ofToken?_decimal (n : Nat) : Mnemonic.ofToken? (Text.decimal n) = none := by
  have hletters : ∀ m : Mnemonic, ∀ c ∈ m.name.toList, c.isDigit = false := by
    intro m
    refine List.all_iff_forall_prop.mp ?_
    cases m <;> decide
  obtain ⟨c, rest, hn⟩ := List.exists_cons_of_ne_nil (Text.decimal_ne_nil n)
  have hdigit : c.isDigit = true := Text.isDigit_of_mem_decimal (n := n) (by rw [hn]; simp)
  refine List.find?_eq_none.mpr fun m _ hm => ?_
  have hname : m.name.toList = c.toUpper :: rest.map Char.toUpper := by
    simpa [hn] using hm
  -- a digit is its own upper case, so the name would begin with a digit
  have hupper : c.toUpper = c := by
    obtain ⟨-, hhi⟩ := Text.isDigit_iff.mp hdigit
    unfold Char.toUpper
    rw [dif_neg]
    rintro ⟨hlow, -⟩
    have hlow' : 97 ≤ c.toNat := UInt32.le_iff_toNat_le.mp hlow
    omega
  have hfalse := hletters m c (by rw [hname, hupper]; simp)
  rw [hdigit] at hfalse
  exact Bool.noConfusion hfalse

end CellAsm
