import CellAsm.Proofs.Machine.Code
import CellAsm.Proofs.Pass.Import
import CellAsm.Proofs.Subroutine.Code

set_option autoImplicit false

/-! # Entering a subroutine

A call hands over its arguments one after the other, stores where to go on and jumps to the body.
The hand-over is a run of moves, followed by induction on the operands (`exists_steps_handOver`);
an argument is read when it is its turn, so it is handed over as it was before the call unless it
is the cell of an argument in front of it. With the store and the jump behind it the machine has
entered the subroutine (`exists_steps_enter`).
-/

namespace CellAsm

namespace Subroutine

open Machine

/-! ## The addresses of the shared cells -/

/-- The address of the cell that holds an argument. -/
def argumentAddress (i : Nat) : UInt64 := UInt64.ofNat (argumentCell i)

/-- The address of the cell that holds the return address. -/
def jumpBackAddress : UInt64 := UInt64.ofNat jumpBackCell

theorem toNat_argumentAddress {i : Nat} (h : argumentCell i < 2 ^ 64) :
    (argumentAddress i).toNat = argumentCell i := by
  rw [argumentAddress, UInt64.toNat_ofNat', Nat.mod_eq_of_lt h]

theorem argumentAddress_ne {i j : Nat} (hi : argumentCell i < 2 ^ 64) (hj : argumentCell j < 2 ^ 64)
    (hne : i ≠ j) : argumentAddress i ≠ argumentAddress j := by
  intro h
  have hcell := congrArg UInt64.toNat h
  rw [toNat_argumentAddress hi, toNat_argumentAddress hj, argumentCell, argumentCell] at hcell
  omega

theorem argumentAddress_ne_jumpBack {i : Nat} (h : argumentCell i < 2 ^ 64) :
    argumentAddress i ≠ jumpBackAddress := by
  intro heq
  have hcell := congrArg UInt64.toNat heq
  rw [toNat_argumentAddress h, show jumpBackAddress.toNat = 1 from rfl, argumentCell] at hcell
  omega

/-! ## Handing over -/

/-- No operand is the cell of an argument that is handed over before it, where the first operand
is the argument number `i`. -/
def Untouched (i : Nat) (operands : List Operand) : Prop :=
  ∀ (k : Nat) (operand : Operand), operands[k]? = some operand →
    ∀ j < k, operand ≠ ⟨.address, argumentAddress (i + j)⟩

section

variable {config : Config} {machine : Machine} {i : Nat} {operand : Operand}
  {operands : List Operand}

theorem Untouched.tail (h : Untouched i (operand :: operands)) : Untouched (i + 1) operands := by
  intro k later hlater j hj
  have hne := h (k + 1) later (by simpa using hlater) (j + 1) (Nat.succ_lt_succ hj)
  rwa [show i + (j + 1) = i + 1 + j by omega] at hne

/-- The values of the later operands do not depend on the cell of the first argument. -/
theorem Untouched.value_eq (h : Untouched i (operand :: operands)) {next : Machine}
    (hkeeps : machine.Keeps next (· = argumentAddress i)) {later : Operand}
    (hlater : later ∈ operands) : later.value next.memory = later.value machine.memory := by
  obtain ⟨k, hk⟩ := List.mem_iff_getElem?.mp hlater
  refine Operand.value_congr fun hkind => hkeeps.read _ fun heq => ?_
  refine h (k + 1) later (by simpa using hk) 0 (Nat.zero_lt_succ k) ?_
  obtain ⟨kind, word⟩ := later
  rw [Operand.mk.injEq]
  exact ⟨hkind, heq⟩

/-- **Moves hand over their operands**, each with the value that it has in front of them. -/
theorem exists_steps_handOver (hfits : machine.memory.Fits config)
    (hcode : machine.program.HasAt machine.ip (handOverWords i operands))
    (hcells : ∀ j < operands.length,
      argumentCell (i + j) < 2 ^ 64 ∧ argumentCell (i + j) < config.memorySize)
    (hinside : ∀ operand ∈ operands,
      operand.kind = .address → operand.word.toNat < config.memorySize)
    (huntouched : Untouched i operands) :
    ∃ last, Steps (fun _ => True) operands.length machine last ∧
      last.ip = machine.ip + 3 * operands.length ∧
      machine.Keeps last (fun cell => ∃ j < operands.length, cell = argumentAddress (i + j)) ∧
      ∀ (j : Nat) (operand : Operand), operands[j]? = some operand → ∃ value,
        operand.value machine.memory = .ok value ∧
        last.memory.Holds (argumentAddress (i + j)) (value.toNat % 2 ^ config.wordSize) := by
  induction operands generalizing i machine with
  | nil => exact ⟨machine, .refl machine, rfl, .refl machine _, by simp⟩
  | cons operand operands ih =>
      rw [handOverWords, Program.hasAt_append] at hcode
      obtain ⟨hmove, hrest⟩ := hcode
      obtain ⟨hcell, hmemory⟩ := hcells 0 (Nat.zero_lt_succ _)
      rw [Nat.add_zero] at hcell hmemory
      rw [← toNat_argumentAddress hcell] at hmemory
      obtain ⟨hoperand, hoperands⟩ := List.forall_mem_cons.mp hinside
      rw [← hfits.size] at hoperand
      obtain ⟨value, hvalue⟩ := Operand.exists_value hoperand
      obtain ⟨next, hstep, hip, hkeeps, hnext, hholds⟩ :=
        exists_step_move operand hfits hmove hvalue hmemory
      have hshift : ∀ j, i + (j + 1) = i + 1 + j := fun j => by omega
      -- the later moves begin behind the first, one argument further on
      have hlaterCells : ∀ j < operands.length,
          argumentCell (i + 1 + j) < 2 ^ 64 ∧ argumentCell (i + 1 + j) < config.memorySize := by
        intro j hj
        rw [← hshift j]
        exact hcells (j + 1) (Nat.succ_lt_succ hj)
      have hnextCode : next.program.HasAt next.ip (handOverWords (i + 1) operands) := by
        rw [hkeeps.program, hip]
        exact hrest
      obtain ⟨last, hsteps, hlastIp, hlastKeeps, hlast⟩ :=
        ih hnext hnextCode hlaterCells hoperands huntouched.tail
      refine ⟨last, .cons trivial hstep hsteps, ?_, ?_, ?_⟩
      · rw [hlastIp, hip, List.length_cons]
        omega
      · refine (hkeeps.trans hlastKeeps).mono fun cell hchanged => ?_
        rcases hchanged with rfl | ⟨j, hj, rfl⟩
        · exact ⟨0, Nat.zero_lt_succ _, rfl⟩
        · exact ⟨j + 1, Nat.succ_lt_succ hj, by rw [hshift j]⟩
      · intro j later hlater
        cases j with
        | zero =>
            -- the moves behind the first one do not store to its cell
            obtain rfl : operand = later := by simpa using hlater
            refine ⟨value, hvalue, hlastKeeps.holds ?_ hholds⟩
            rintro ⟨j, hj, heq⟩
            exact argumentAddress_ne hcell (hlaterCells j hj).1 (by omega) heq
        | succ j =>
            have hlater' : operands[j]? = some later := by simpa using hlater
            obtain ⟨passed, hpassed, hpassedHolds⟩ := hlast j later hlater'
            -- read behind the first move, but the same as in front of it
            rw [huntouched.value_eq hkeeps (List.mem_of_getElem? hlater')] at hpassed
            rw [hshift j]
            exact ⟨passed, hpassed, hpassedHolds⟩

/-! ## Entering -/

/-- What a machine has done when it has entered a body at `entry` from which it goes back to
`back`: the arguments and the return address are in their cells, and no other cell, the input or
the output is different. -/
structure Entered (config : Config) (machine last : Machine) (entry back : Nat)
    (operands : List Operand) : Prop where
  ip : last.ip = entry
  arguments : ∀ (i : Nat) (operand : Operand), operands[i]? = some operand → ∃ value,
    operand.value machine.memory = .ok value ∧
    last.memory.Holds (argumentAddress i) (value.toNat % 2 ^ config.wordSize)
  jumpBack : last.memory.Holds jumpBackAddress (back % 2 ^ config.wordSize)
  keeps : machine.Keeps last fun cell =>
    (∃ i < operands.length, cell = argumentAddress i) ∨ cell = jumpBackAddress

/-- **The code of a call enters the body**: the moves of the operands, the move of the return
address and the jump all succeed. -/
theorem exists_steps_enter {entry back : Nat} {rest : List UInt64}
    (hfits : machine.memory.Fits config)
    (hcode : machine.program.HasAt machine.ip (handOverWords 0 operands
      ++ [(moveOpcode .literal).byte.toUInt64, jumpBackAddress, UInt64.ofNat back]
      ++ [(jumpOpcode .literal).byte.toUInt64, UInt64.ofNat entry]))
    (hbody : machine.program.HasAt entry ((moveOpcode .literal).byte.toUInt64 :: rest))
    (hcells : ∀ j < operands.length, argumentCell j < 2 ^ 64 ∧ argumentCell j < config.memorySize)
    (hjumpBack : jumpBackCell < config.memorySize) (hback : back < 2 ^ 64) (hentry : entry < 2 ^ 64)
    (hinside : ∀ operand ∈ operands,
      operand.kind = .address → operand.word.toNat < config.memorySize)
    (huntouched : Untouched 0 operands) :
    ∃ last, Steps (fun _ => True) (operands.length + 2) machine last ∧
      Entered config machine last entry back operands := by
  rw [Program.hasAt_append, Program.hasAt_append] at hcode
  obtain ⟨⟨hhand, hstore⟩, hjump⟩ := hcode
  obtain ⟨handed, hsteps, hip, hkeeps, harguments⟩ := exists_steps_handOver hfits hhand
    (by simpa only [Nat.zero_add] using hcells) hinside huntouched
  simp only [Nat.zero_add] at hkeeps harguments
  rw [length_handOverWords, ← hip, ← hkeeps.program] at hstore
  obtain ⟨stored, hstoreStep, hstoredIp, hstoredKeeps, -, hstoredHolds⟩ :=
    exists_step_move ⟨.literal, UInt64.ofNat back⟩ (hsteps.fits hfits) hstore rfl hjumpBack
  have hboth := hkeeps.trans hstoredKeeps
  have hend : machine.ip + (handOverWords 0 operands
      ++ [(moveOpcode .literal).byte.toUInt64, jumpBackAddress, UInt64.ofNat back]).length
      = stored.ip := by
    calc machine.ip + (handOverWords 0 operands
          ++ [(moveOpcode .literal).byte.toUInt64, jumpBackAddress, UInt64.ofNat back]).length
        = machine.ip + (3 * operands.length + 3) := by
          rw [List.length_append, length_handOverWords]
          rfl
      _ = handed.ip + 3 := by
          rw [hip]
          omega
      _ = stored.ip := hstoredIp.symm
  rw [hend, ← hboth.program] at hjump
  rw [← hboth.program] at hbody
  have htarget : (UInt64.ofNat entry).toNat = entry := by
    rw [UInt64.toNat_ofNat', Nat.mod_eq_of_lt hentry]
  -- a body begins with a move, so the jump is not to itself
  have hother : entry ≠ stored.ip := by
    rintro rfl
    have hword := hbody.word?.symm.trans hjump.word?
    exact absurd (Option.some.inj hword) (by decide)
  have hjumpStep : stored.step = stored.proceed entry := by
    rw [step_jump ⟨.literal, UInt64.ofNat entry⟩ hjump rfl, htarget, if_neg hother]
  refine ⟨(stored.proceed entry).2,
    hsteps.trans (.cons trivial hstoreStep (.single trivial hjumpStep)), rfl, ?_, ?_, ?_⟩
  · intro i operand hoperand
    obtain ⟨value, hvalue, hholds⟩ := harguments i operand hoperand
    have hi : i < operands.length := (List.getElem?_eq_some_iff.mp hoperand).1
    exact ⟨value, hvalue, hstoredKeeps.holds (argumentAddress_ne_jumpBack (hcells i hi).1) hholds⟩
  · rwa [UInt64.toNat_ofNat', Nat.mod_eq_of_lt hback] at hstoredHolds
  · exact ⟨hboth.program, hboth.input, hboth.output, hboth.read⟩

end

end Subroutine

/-! ## Calls with a place -/

open Subroutine

namespace Assembly

variable {assembler : Assembler} {file text : String} {assembly : Assembly assembler file text}
  {before after : List Line} {line : Line} {name : Token} {arguments : List Token}

namespace Placement

/-- The words of a call whose arguments are single tokens. -/
theorem words_of_call_single (place : assembly.Placement before line after)
    (hmarker : Marker.of? line = some .call)
    (hlist : argumentList (line.code.drop Marker.call.spelling.length) = .ok (name :: arguments))
    (hsingle : ∀ argument ∈ arguments, Token.scan argument = [argument])
    (harity : arguments.length ≤ assembly.table.maxArity) (body : assembly.Body name) :
    ∃ operands, List.Forall₂ (Denotes assembly.labels place.constants) arguments operands ∧
      place.code.words = handOverWords 0 operands
        ++ [(moveOpcode .literal).byte.toUInt64, jumpBackAddress, UInt64.ofNat place.next]
        ++ [(jumpOpcode .literal).byte.toUInt64, UInt64.ofNat body.address] ∧
      place.next < 2 ^ 64 ∧ body.address < 2 ^ 64 ∧
      ∀ j < operands.length,
        argumentCell j < 2 ^ 64 ∧ argumentCell j < assembler.config.memorySize := by
  obtain ⟨handed, hhanded, hwords, hnext, hentryLt⟩ :=
    place.words_of_call hmarker hlist body.isValidName_name body.address?_name
  obtain ⟨operands, hdenotes, hhandedWords, hcells⟩ :=
    words_of_handOver hhanded place.shares (by omega) hsingle
  have hlength := hdenotes.length_eq
  have hfits := place.shares.fits
  refine ⟨operands, hdenotes, by rw [hwords, hhandedWords]; rfl, hnext, hentryLt, fun j hj => ?_⟩
  have hcell := hcells j hj
  rw [Nat.zero_add] at hcell
  refine ⟨hcell, ?_⟩
  rw [argumentCell]
  omega

end Placement

end Assembly

/-- **Calls enter their subroutine by the calling convention.** In every program that was assembled
under the strict policy, a call whose arguments are single tokens has a place, and from each
machine at that place, with as many steps as there are arguments and two more, the body of the
subroutine is entered: the arguments are in their cells as they were before the call, the address
behind the call is in the cell of the return address, and no other cell, the input or the output
is different. -/
theorem call_enters_body {assembler : Assembler} {file text : String} {program : Program}
    (hassemble : (assembler.assemble file text).result = .ok program)
    (hstrict : assembler.policy = .strict) :
    ∃ assembly : Assembly assembler file text, assembly.program = program ∧ (assembly.IsPlain →
      ∀ (before : List Line) (line : Line) (after : List Line) (name : Token)
        (arguments : List Token), assembly.source = before ++ line :: after →
        Marker.of? line = some .call →
        argumentList (line.code.drop Marker.call.spelling.length) = .ok (name :: arguments) →
        (∀ argument ∈ arguments, Token.scan argument = [argument]) →
        Nonempty (assembly.Placement before line after) ∧
        ∀ place : assembly.Placement before line after,
          place.next = place.address + 3 * arguments.length + 5 ∧
          ∃ operands, List.Forall₂ (Denotes assembly.labels place.constants) arguments operands ∧
          ∃ body : assembly.Body name,
            program.HasAt body.address [(moveOpcode .literal).byte.toUInt64, 0, 0] ∧
            ∀ machine : Machine, machine.program = program →
              machine.memory.Fits assembler.config → machine.ip = place.address →
              (∀ operand ∈ operands,
                operand.kind = .address → operand.word.toNat < assembler.config.memorySize) →
              Untouched 0 operands →
              ∃ last, Machine.Steps (fun _ => True) (arguments.length + 2) machine last ∧
                Entered assembler.config machine last body.address place.next operands) := by
  obtain ⟨assembly, rfl⟩ := Assembler.assemble_eq_ok_iff_exists_assembly.mp hassemble
  refine ⟨assembly, rfl, fun hplain before line after name arguments hsource hmarker hlist
    hsingle => ⟨?_, fun place => ?_⟩⟩
  · exact assembly.exists_placement hstrict hplain (assembly.table_ne_nil_of_call hsource hmarker)
      hsource
  · obtain ⟨_, _, hlist', harity, ⟨body⟩⟩ := place.exists_callee hstrict hplain hmarker
    obtain ⟨rfl, rfl⟩ := List.cons.inj (Except.ok.inj (hlist.symm.trans hlist'))
    -- the code of the call, from its moves to the jump
    obtain ⟨operands, hdenotes, hwords, hnext, hentryLt, hcells⟩ :=
      place.words_of_call_single hmarker hlist hsingle harity body
    have hlength := hdenotes.length_eq
    refine ⟨?_, operands, hdenotes, body, body.hasAt, ?_⟩
    · calc place.next
          = place.address + place.code.words.length := rfl
        _ = place.address + (3 * operands.length + 3 + 2) := by
            rw [hwords, List.length_append, List.length_append, length_handOverWords]
            rfl
        _ = place.address + 3 * arguments.length + 5 := by
            rw [hlength]
            omega
    · intro machine hprogram hfits hip hinside huntouched
      have hcode := place.hasAt
      rw [← hprogram, ← hip, hwords] at hcode
      have hbodyCode := body.hasAt
      rw [← hprogram] at hbodyCode
      rw [hlength]
      exact exists_steps_enter hfits hcode hbodyCode hcells place.shares.jumpBackCell_lt hnext
        hentryLt hinside huntouched

/-! ## A sample -/

namespace Subroutine.Sample

def text : String :=
  "@call(copy, [5])\nHALT\n@start(copy, 1)\nADD $return $arg0\n@end()"

/-- The assembler for a word size. -/
def assembler (bits : Nat) : Assembler where
  config := Config.default.withWordSize bits

/-- A line of the text with what the passes make of it. -/
def line (number : Nat) (source contents : String) : Line := ⟨number, "sample", source, contents⟩

/-- What the passes make of the call. -/
def callLine (contents : String) : Line := line 1 "@call(copy, [5])" contents

def lines : List Line := Line.ofText "sample" text

def expanded : List Line :=
  preamble 1 ++
    [callLine "MOV $arg0 [5]", callLine "MOV $jump_back :ret0", callLine "JMP :copy",
      callLine "ret0:", line 2 "HALT" "HALT", line 3 "@start(copy, 1)" "copy:",
      line 3 "@start(copy, 1)" "MOV $return 0", line 4 "ADD $return $arg0" "ADD $return $arg0",
      line 5 "@end()" "JMP $jump_back"]

def prepared : List Line :=
  [callLine "MOV [2] [5]", callLine "MOV [1] :ret0", callLine "JMP :copy", callLine "ret0:",
    line 2 "HALT" "HALT", line 3 "@start(copy, 1)" "copy:", line 3 "@start(copy, 1)" "MOV [0] 0",
    line 4 "ADD $return $arg0" "ADD [0] [2]", line 5 "@end()" "JMP [1]"]

def labels : Label.Table := ⟨[("copy".toList, 9), ("ret0".toList, 8)], 19⟩

def listing : Listing :=
  [(callLine "MOV [2] [5]", ⟨⟨0x07, .mov, [.address, .address]⟩, [2, 5]⟩),
    (callLine "MOV [1] 8", ⟨⟨0x08, .mov, [.address, .literal]⟩, [1, 8]⟩),
    (callLine "JMP 9", ⟨⟨0x0F, .jmp, [.literal]⟩, [9]⟩),
    (line 2 "HALT" "HALT", ⟨⟨0xFF, .halt, []⟩, []⟩),
    (line 3 "@start(copy, 1)" "MOV [0] 0", ⟨⟨0x08, .mov, [.address, .literal]⟩, [0, 0]⟩),
    (line 4 "ADD $return $arg0" "ADD [0] [2]", ⟨⟨0x0A, .add, [.address, .address]⟩, [0, 2]⟩),
    (line 5 "@end()" "JMP [1]", ⟨⟨0x0E, .jmp, [.address]⟩, [1]⟩)]

theorem generates_prepared : labels.Generates prepared listing := by
  refine ⟨listing.map Prod.fst, listing.map Prod.fst, ?_, ?_, ?_⟩
  · decide +kernel
  · decide +kernel
  · decide +kernel

def assembly (bits : Nat) : Assembly (assembler bits) "sample" text where
  imported := lines
  table := [⟨"copy".toList, 1⟩]
  expanded := expanded
  prepared := prepared
  labels := labels
  listing := listing
  imports := Import.expand_of_no_directive _ (by decide +kernel)
  declares := by decide +kernel
  expands := by decide +kernel
  substitutes := by
    show (Constant.replace .strict 256 expanded).result = .ok prepared
    decide +kernel
  enters := by decide +kernel
  generates := generates_prepared

def program : Program := .ofListing listing

theorem assemble_text (bits : Nat) :
    ((assembler bits).assemble "sample" text).result = .ok program :=
  Assembler.assemble_eq_ok_iff_exists_assembly.mpr ⟨assembly bits, rfl⟩

/-- What is known of every assembly of the text. -/
theorem source_eq {bits : Nat} (assembly : Assembly (assembler bits) "sample" text) :
    assembly.IsPlain ∧ assembly.source = callLine "@call(copy, [5])" :: Comment.remove lines.tail := by
  have himported : assembly.imported = lines :=
    Except.ok.inj (assembly.imports.symm.trans (Sample.assembly bits).imports)
  unfold Assembly.IsPlain Assembly.source
  rw [himported]
  exact ⟨by decide +kernel, by decide +kernel⟩

/-- A machine in front of the call, with 21 in the cell of the argument. -/
def machine : Machine :=
  let loaded := (Machine.create (assembler 8).config [] default).load program
  { loaded with memory := loaded.memory.set 5 21 (by decide +kernel) }

end Subroutine.Sample

open Subroutine.Sample in
theorem call_enters_body_sample :
    ((assembler 8).assemble "sample" text).result = .ok program ∧ machine.program = program ∧
      machine.ip = 0 ∧ machine.memory.Holds 5 21 ∧
      ∃ last, Machine.Steps (fun _ => True) 3 machine last ∧ program.HasAt last.ip [0x08, 0, 0] ∧
        last.memory.Holds (argumentAddress 0) 21 ∧ last.memory.Holds jumpBackAddress 8 := by
  have hfits : machine.memory.Fits (assembler 8).config :=
    (Machine.fits_load (Machine.fits_create _ [] _) program).set 5 21 _
  have hread : machine.memory.read (UInt64.ofNat 5) = .ok 21 := by decide +kernel
  refine ⟨assemble_text 8, rfl, rfl, ⟨21, hread, rfl⟩, ?_⟩
  obtain ⟨assembly, -, henters⟩ := call_enters_body (assemble_text 8) rfl
  obtain ⟨hplain, hsource⟩ := source_eq assembly
  obtain ⟨⟨place⟩, hplaces⟩ := henters hplain [] _ _ "copy".toList ["[5]".toList] hsource
    (by decide +kernel) (by decide +kernel) (by decide +kernel)
  obtain ⟨hnext, operands, hdenotes, body, hbody, hruns⟩ := hplaces place
  have haddress := place.address_of_nil
  obtain ⟨operand, _, hoperand, hnil, rfl⟩ := List.forall₂_cons_left_iff.mp hdenotes
  obtain rfl := List.forall₂_nil_left_iff.mp hnil
  obtain ⟨-, rfl⟩ := Denotes.of_brackets (n := 5) hoperand
  obtain ⟨last, hsteps, hentered⟩ := hruns machine rfl hfits haddress.symm (by decide +kernel) (by
    intro k operand hoperand j hj
    cases k with
    | zero => exact absurd hj (Nat.not_lt_zero j)
    | succ k => cases hoperand)
  refine ⟨last, hsteps, ?_, ?_, ?_⟩
  · rw [hentered.ip]
    exact hbody
  · obtain ⟨value, hvalue, hholds⟩ := hentered.arguments 0 _ rfl
    rw [Operand.value_address, hread] at hvalue
    obtain rfl := Except.ok.inj hvalue
    exact hholds
  · have hback := hentered.jumpBack
    rw [hnext, haddress] at hback
    exact hback

end CellAsm
