import CellAsm.Proofs.Placement
import CellAsm.Proofs.Program.SingleLine

set_option autoImplicit false

/-! # The code of subroutines

What the three markers are assembled to, for a line that has a place in a program:

* a call hands over its arguments, stores the address after its own code and jumps to the body of
  the subroutine (`Assembly.Placement.words_of_call`);
* the body of a subroutine begins with clearing the result (`Assembly.Placement.words_of_start`),
  and the subroutine of every call has a body (`Assembly.Placement.exists_callee`);
* the end of a body jumps to the stored address (`Assembly.Placement.words_of_finish`).
-/

namespace CellAsm

namespace Subroutine

/-! ## The tokens of the expanded lines -/

/-- The name of the label that a call returns to. -/
def returnName (n : Nat) : Token := "ret".toList ++ Text.decimal n

theorem isBlank_of_isNameChar {c : Char} (h : isNameChar c = true) : Text.isBlank c = false := by
  have hranges : (((decide (65 ≤ c.val ∧ c.val ≤ 90)
      || decide (97 ≤ c.val) && decide (c.val ≤ 122)) || c.isDigit) || c == '_') = true := h
  simp only [Bool.or_eq_true, Bool.and_eq_true, decide_eq_true_eq, beq_iff_eq,
    UInt32.le_iff_toNat_le] at hranges
  rcases hranges with (((⟨hlo, hhi⟩ | ⟨hlo, hhi⟩) | hdigit) | rfl)
  · exact Text.isBlank_of_printable (Nat.le_trans (by decide) hlo) (Nat.le_trans hhi (by decide))
  · exact Text.isBlank_of_printable (Nat.le_trans (by decide) hlo) (Nat.le_trans hhi (by decide))
  · exact Text.isBlank_of_isDigit hdigit
  · decide

theorem isPlain_of_isValidName {name : Token} (h : isValidName name = true) : name.IsPlain := by
  rw [isValidName, Bool.and_eq_true] at h
  refine ⟨by simpa using h.1, fun c hc => ?_⟩
  have hchar : isNameChar c = true := List.all_eq_true.mp h.2 c hc
  refine ⟨isBlank_of_isNameChar hchar, ?_⟩
  rintro rfl
  exact absurd hchar (by decide)

theorem head?_ne_of_isValidName {name : Token} (h : isValidName name = true) {c : Char}
    (hc : isNameChar c = false) : name.head? ≠ some c := by
  intro hhead
  rw [isValidName, Bool.and_eq_true] at h
  rw [List.all_eq_true.mp h.2 c (List.mem_of_head? hhead)] at hc
  cases hc

theorem isPlain_argumentName (i : Nat) : Token.IsPlain ('$' :: argumentName i) := by
  refine ⟨by simp, fun c hc => ?_⟩
  rw [argumentName, List.mem_cons, List.mem_append] at hc
  rcases hc with rfl | hc | hc
  · decide
  · have harg : Token.IsPlain "arg".toList := by decide
    exact harg.2 c hc
  · exact (Token.isPlain_decimal i).2 c hc

theorem isPlain_returnName (n : Nat) : Token.IsPlain (returnName n) := by
  refine ⟨by simp [returnName], fun c hc => ?_⟩
  rw [returnName, List.mem_append] at hc
  rcases hc with hc | hc
  · have hret : Token.IsPlain "ret".toList := by decide
    exact hret.2 c hc
  · exact (Token.isPlain_decimal n).2 c hc

theorem isPlain_reference {name : Token} (h : name.IsPlain) : Token.IsPlain (':' :: name) :=
  ⟨by simp, List.forall_mem_cons.mpr ⟨by decide, h.2⟩⟩

theorem isPlain_definition {name : Token} (h : name.IsPlain) : Token.IsPlain (name ++ [':']) := by
  have hcolon : Token.IsPlain [':'] := by decide
  exact ⟨by simp, List.forall_mem_append.mpr ⟨h.2, hcolon.2⟩⟩

/-- A line that hands over an argument moves it to the cell of the argument. -/
theorem scan_handOver (i : Nat) (argument : Token) :
    Token.scan (s!"MOV $arg{i} ".toList ++ argument)
      = "MOV".toList :: ('$' :: argumentName i) :: Token.scan argument := by
  have htext : s!"MOV $arg{i} ".toList ++ argument
      = "MOV".toList ++ ' ' :: (('$' :: argumentName i) ++ ' ' :: argument) := by
    rw [toList_handOver]
    simp [argumentName]
  have hblank : Text.isBlank ' ' = true := by decide
  have hplain := isPlain_argumentName i
  rw [htext, Token.scan_append (by decide) (by simp [hblank]) (fun h => absurd h (by decide)),
    Token.scan_blank_cons hblank,
    Token.scan_append hplain.isProper (by simp [hblank]) (by simp), Token.scan_blank_cons hblank]

theorem scan_jumpBack (n : Nat) :
    Token.scan s!"MOV $jump_back :ret{n}".toList
      = ["MOV".toList, '$' :: "jump_back".toList, ':' :: returnName n] := by
  have htext : s!"MOV $jump_back :ret{n}".toList
      = Token.join ["MOV".toList, '$' :: "jump_back".toList, ':' :: returnName n] := by
    rw [toList_jumpBack]
    simp [Token.join_cons_cons, returnName]
  rw [htext]
  refine Token.scan_join_of_isPlain ?_
  simp only [List.forall_mem_cons]
  refine ⟨by decide, by decide, isPlain_reference (isPlain_returnName n), by simp⟩

theorem scan_jump {name : Token} (h : name.IsPlain) :
    Token.scan ("JMP :".toList ++ name) = ["JMP".toList, ':' :: name] := by
  have htext : "JMP :".toList ++ name = Token.join ["JMP".toList, ':' :: name] := by
    simp [Token.join_cons_cons]
  rw [htext]
  refine Token.scan_join_of_isPlain ?_
  simp only [List.forall_mem_cons]
  exact ⟨by decide, isPlain_reference h, by simp⟩

theorem scan_definition {name : Token} (h : name.IsPlain) :
    Token.scan (name ++ [':']) = [name ++ [':']] := by
  have hscan := Token.scan_join_of_isPlain (List.forall_mem_singleton.mpr (isPlain_definition h))
  rwa [Token.join_singleton] at hscan

theorem scan_clearResult :
    Token.scan "MOV $return 0".toList = ["MOV".toList, '$' :: "return".toList, Text.decimal 0] := by
  have htext : "MOV $return 0".toList
      = Token.join ["MOV".toList, '$' :: "return".toList, Text.decimal 0] := by decide
  rw [htext]
  exact Token.scan_join_of_isPlain (by decide)

theorem scan_closing :
    Token.scan "JMP $jump_back".toList = ["JMP".toList, '$' :: "jump_back".toList] := by
  have htext : "JMP $jump_back".toList = Token.join ["JMP".toList, '$' :: "jump_back".toList] := by
    decide
  rw [htext]
  exact Token.scan_join_of_isPlain (by decide)

/-! ## Handing over -/

/-- The words that hand over operands, the first of which has the number `i`. -/
def handOverWords (i : Nat) : List Operand → List UInt64
  | [] => []
  | operand :: operands =>
    [(moveOpcode operand.kind).byte.toUInt64, UInt64.ofNat (argumentCell i), operand.word]
      ++ handOverWords (i + 1) operands

theorem length_handOverWords (i : Nat) (operands : List Operand) :
    (handOverWords i operands).length = 3 * operands.length := by
  induction operands generalizing i with
  | nil => rfl
  | cons operand operands ih =>
      rw [handOverWords, List.length_append, ih, List.length_cons]
      show 3 + 3 * operands.length = 3 * (operands.length + 1)
      omega

section

variable {labels : Label.Table} {cells start i arity : Nat} {table last : Constant.Table}
  {line : Line} {arguments : List Token} {listing : Listing}

theorem tokens_handOver (line : Line) (i : Nat) (argument : Token) :
    (line.withContents (s!"MOV $arg{i} ".toList ++ argument)).tokens
      = "MOV".toList :: ('$' :: argumentName i) :: Token.scan argument := by
  rw [Line.tokens, Line.toList_contents_withContents, scan_handOver]

/-- Handing over arguments defines no constants. -/
theorem constants_of_handOver
    (h : Compiles labels cells start table (handOver line i arguments) last listing) :
    last = table := by
  induction arguments generalizing i start listing table with
  | nil =>
      obtain ⟨kept, hkept, -⟩ := h.stages
      cases hkept
      rfl
  | cons argument arguments ih =>
      obtain ⟨next, front, back, hfirst, hrest, -⟩ := h.cons_inv
      obtain ⟨rfl, -⟩ := hfirst.of_code (by
        rw [tokens_handOver]
        exact Constant.Statement.ofTokens_of_head? (by decide) _)
      exact ih hrest

/-- Single tokens are handed over by one instruction each. -/
theorem words_of_handOver
    (h : Compiles labels cells start table (handOver line i arguments) last listing)
    (hshares : Shares table arity cells) (harity : i + arguments.length ≤ arity)
    (hsingle : ∀ argument ∈ arguments, Token.scan argument = [argument]) :
    ∃ operands, List.Forall₂ (Denotes labels table) arguments operands ∧
      listing.words = handOverWords i operands ∧
      ∀ j < operands.length, argumentCell (i + j) < 2 ^ 64 := by
  induction arguments generalizing i start listing table with
  | nil =>
      obtain ⟨kept, hkept, hgenerates, -⟩ := h.stages
      cases hkept
      obtain rfl := Label.Table.Generates.nil_iff.mp hgenerates
      exact ⟨[], .nil, rfl, by simp⟩
  | cons argument arguments ih =>
      obtain ⟨hfirstSingle, hrestSingle⟩ := List.forall_mem_cons.mp hsingle
      rw [List.length_cons] at harity
      obtain ⟨next, front, back, hfirst, hrest, rfl⟩ := h.cons_inv
      -- a move defines no constant, so the later moves are compiled with the same table
      obtain ⟨rfl, hcell, operand, hdenotes, hwords⟩ := hfirst.of_move
        (by rw [tokens_handOver, hfirstSingle]) (hshares.argument i (by omega))
      obtain ⟨operands, hoperands, hrestWords, hcells⟩ := ih hrest hshares (by omega) hrestSingle
      refine ⟨operand :: operands, .cons hdenotes hoperands, ?_, ?_⟩
      · rw [Listing.words_append, hwords, hrestWords, handOverWords]
      · intro j hj
        cases j with
        | zero => exact hcell
        | succ j =>
            have hlater := hcells j (by simpa using hj)
            rwa [Nat.add_right_comm, Nat.add_assoc] at hlater

end

end Subroutine

/-! ## Lines with a place -/

namespace Assembly

open Subroutine

variable {assembler : Assembler} {file text : String} {assembly : Assembly assembler file text}

namespace Placement

variable {before after : List Line} {line : Line}

/-- The end of a body is a jump to the return address. -/
theorem words_of_finish (place : assembly.Placement before line after)
    (hmarker : Marker.of? line = some .finish) :
    place.code.words
      = [(jumpOpcode .address).byte.toUInt64, UInt64.ofNat jumpBackCell] := by
  obtain ⟨last, hcompiles⟩ := place.compiles
  obtain ⟨next, hexpands⟩ := place.expands
  rw [((ExpandsLine.finish_iff hmarker).mp hexpands).1] at hcompiles
  have htokens : (closing line).tokens = ["JMP".toList, '$' :: "jump_back".toList] := by
    rw [closing, Line.tokens, Line.toList_contents_withContents, scan_closing]
  obtain ⟨-, operand, hdenotes, hwords⟩ := hcompiles.of_jump htokens
  obtain ⟨-, rfl⟩ := hdenotes.of_cell place.shares.jumpBack
  exact hwords

/-- A body begins with clearing the result, and its address is that of the subroutine's name. -/
theorem words_of_start (place : assembly.Placement before line after)
    (hmarker : Marker.of? line = some .start) {d : Declaration}
    (hd : declarationIn line.code = .ok d) :
    place.code.words = [(moveOpcode .literal).byte.toUInt64, 0, 0] ∧
      assembly.labels.address? d.name = some place.address := by
  obtain ⟨last, hcompiles⟩ := place.compiles
  obtain ⟨next, hexpands⟩ := place.expands
  have hvalid := isValidName_of_declarationIn hd
  have hplain := isPlain_of_isValidName hvalid
  obtain ⟨⟨d', hd', hlines⟩, -⟩ := (ExpandsLine.start_iff hmarker).mp hexpands
  obtain rfl := Except.ok.inj (hd.symm.trans hd')
  rw [hlines, opening] at hcompiles
  obtain ⟨constants, front, back, hlabel, hmove, hcode⟩ := hcompiles.cons_inv
  have htokens : (line.withContents (d.name ++ [':'])).tokens = [d.name ++ [':']] := by
    rw [Line.tokens, Line.toList_contents_withContents, scan_definition hplain]
  obtain ⟨rfl, hnothing, haddress⟩ := hlabel.of_label htokens hplain.1
    (head?_ne_of_isValidName hvalid (by decide)) (head?_ne_of_isValidName hvalid (by decide))
  have htokens' : (line.withContents "MOV $return 0".toList).tokens
      = ["MOV".toList, '$' :: "return".toList, Text.decimal 0] := by
    rw [Line.tokens, Line.toList_contents_withContents, scan_clearResult]
  obtain ⟨-, -, operand, hdenotes, hwords⟩ := hmove.of_move htokens' place.shares.result
  obtain ⟨-, rfl⟩ := hdenotes.of_decimal
  exact ⟨by rw [hcode, Listing.words_append, hnothing, hwords]; rfl, haddress⟩

/-- A call hands over its arguments, stores the address after its code and jumps to the name of
the subroutine. -/
theorem words_of_call (place : assembly.Placement before line after)
    (hmarker : Marker.of? line = some .call) {name : Token} {arguments : List Token}
    (hlist : argumentList (line.code.drop Marker.call.spelling.length) = .ok (name :: arguments))
    {entry : Nat} (hvalid : isValidName name = true)
    (hentry : assembly.labels.address? name = some entry) :
    ∃ handed, Compiles assembly.labels assembler.config.memorySize place.address place.constants
        (handOver line 0 arguments) place.constants handed ∧
      place.code.words = handed.words
        ++ [(moveOpcode .literal).byte.toUInt64, UInt64.ofNat jumpBackCell, UInt64.ofNat place.next]
        ++ [(jumpOpcode .literal).byte.toUInt64, UInt64.ofNat entry] ∧
      place.next < 2 ^ 64 ∧ entry < 2 ^ 64 := by
  obtain ⟨last, hcompiles⟩ := place.compiles
  obtain ⟨next, hexpands⟩ := place.expands
  have hplain := isPlain_of_isValidName hvalid
  obtain ⟨name', arguments', d, hlist', -, -, -, hlines⟩ :=
    callLines_eq_ok ((ExpandsLine.call_iff hmarker).mp hexpands).1
  obtain ⟨rfl, rfl⟩ := List.cons.inj (Except.ok.inj (hlist.symm.trans hlist'))
  rw [hlines, call] at hcompiles
  -- cut into the hand-over, the store, the jump and the label to return to
  obtain ⟨constants, handed, rest, hhanded, hrest, hcode⟩ := hcompiles.append_inv
  obtain rfl := constants_of_handOver hhanded
  obtain ⟨_, store, _, hstore, htail, rfl⟩ := hrest.cons_inv
  obtain ⟨_, jump, back, hjump, hback, rfl⟩ := htail.cons_inv
  have hstoreTokens : (line.withContents s!"MOV $jump_back :ret{place.calls}".toList).tokens
      = ["MOV".toList, '$' :: "jump_back".toList, ':' :: returnName place.calls] := by
    rw [Line.tokens, Line.toList_contents_withContents, scan_jumpBack]
  have hjumpTokens : (line.withContents ("JMP :".toList ++ name)).tokens
      = ["JMP".toList, ':' :: name] := by
    rw [Line.tokens, Line.toList_contents_withContents, scan_jump hplain]
  have hbackTokens : (line.withContents s!"ret{place.calls}:".toList).tokens
      = [returnName place.calls ++ [':']] := by
    rw [Line.tokens, Line.toList_contents_withContents, toList_returnLabel]
    exact scan_definition (isPlain_returnName _)
  obtain ⟨rfl, -, stored, hstored, hstoreWords⟩ := hstore.of_move hstoreTokens place.shares.jumpBack
  obtain ⟨rfl, target, htarget, hjumpWords⟩ := hjump.of_jump hjumpTokens
  obtain ⟨-, hnothing, hreturn⟩ := hback.of_label hbackTokens (isPlain_returnName _).1
    (by simp [returnName]) (by simp [returnName])
  obtain ⟨hentryLt, rfl⟩ := htarget.of_reference hentry
  -- the label to return to stands behind the code of the call, and emits nothing itself
  have hnext : place.codeBefore.size + handed.size + store.size + jump.size = place.next := by
    have hback : back.size = 0 := by rw [Listing.size, hnothing, List.length_nil]
    rw [Placement.next, Placement.address, hcode]
    simp only [Listing.size_append, hback]
    omega
  rw [hnext] at hreturn
  obtain ⟨hnextLt, rfl⟩ := hstored.of_reference hreturn
  refine ⟨handed, hhanded, ?_, hnextLt, hentryLt⟩
  rw [hcode]
  simp only [Listing.words_append, hstoreWords, hjumpWords, hnothing, List.append_nil,
    List.append_assoc]

end Placement

/-- The body of a subroutine in the program: the place of the line that declares it. -/
structure Body (assembly : Assembly assembler file text) (name : Token) where
  before : List Line
  line : Line
  after : List Line
  declaration : Declaration
  place : assembly.Placement before line after
  source : assembly.source = before ++ line :: after
  marker : Marker.of? line = some .start
  declares : declarationIn line.code = .ok declaration
  named : declaration.name = name

namespace Body

variable {name : Token}

/-- The address at which a body begins. -/
def address (body : assembly.Body name) : Nat := body.place.address

theorem isValidName_name (body : assembly.Body name) : isValidName name = true := by
  have hvalid := isValidName_of_declarationIn body.declares
  rwa [body.named] at hvalid

/-- The name of a subroutine is a label for its body. -/
theorem address?_name (body : assembly.Body name) :
    assembly.labels.address? name = some body.address := by
  have hlabel := (body.place.words_of_start body.marker body.declares).2
  rwa [body.named] at hlabel

/-- A body begins with clearing the result. -/
theorem hasAt (body : assembly.Body name) :
    assembly.program.HasAt body.address [(moveOpcode .literal).byte.toUInt64, 0, 0] := by
  have hcode := body.place.hasAt
  rwa [(body.place.words_of_start body.marker body.declares).1] at hcode

end Body

/-- **Every declared subroutine has a body.** -/
theorem exists_body (assembly : Assembly assembler file text) (hstrict : assembler.policy = .strict)
    (hplain : assembly.IsPlain) {name : Token} {d : Declaration}
    (hd : assembly.table.find? name = some d) : Nonempty (assembly.Body name) := by
  obtain ⟨hmem, hname⟩ := Table.mem_of_find? hd
  rcases exists_of_mem_declare assembly.declares hmem with hnone | ⟨before, line, after, hsource, h⟩
  · cases hnone
  · obtain ⟨place⟩ := assembly.exists_placement hstrict hplain (List.ne_nil_of_mem hmem) hsource
    exact ⟨⟨before, line, after, d, place, hsource, h.1, h.2, hname⟩⟩

/-- A program with a call declares a subroutine. -/
theorem table_ne_nil_of_call (assembly : Assembly assembler file text) {before after : List Line}
    {line : Line} (hsource : assembly.source = before ++ line :: after)
    (hmarker : Marker.of? line = some .call) : assembly.table ≠ [] := by
  have hmem : line ∈ Comment.remove assembly.imported := by
    rw [show Comment.remove assembly.imported = _ from hsource]
    simp
  exact ne_nil_of_call assembly.expands assembly.declares hmem hmarker

namespace Placement

variable {before after : List Line} {line : Line}

/-- **A call is one of a subroutine with a body**, with as many arguments as it declares. -/
theorem exists_callee (place : assembly.Placement before line after)
    (hstrict : assembler.policy = .strict) (hplain : assembly.IsPlain)
    (hmarker : Marker.of? line = some .call) :
    ∃ name arguments,
      argumentList (line.code.drop Marker.call.spelling.length) = .ok (name :: arguments) ∧
      arguments.length ≤ assembly.table.maxArity ∧ Nonempty (assembly.Body name) := by
  obtain ⟨next, hexpands⟩ := place.expands
  obtain ⟨name, arguments, d, hlist, hd, harity, -⟩ :=
    callLines_eq_ok ((ExpandsLine.call_iff hmarker).mp hexpands).1
  have hmax : d.arity ≤ assembly.table.maxArity := le_maxArity (Table.mem_of_find? hd).1
  exact ⟨name, arguments, hlist, harity ▸ hmax, assembly.exists_body hstrict hplain hd⟩

end Placement

end Assembly

end CellAsm
