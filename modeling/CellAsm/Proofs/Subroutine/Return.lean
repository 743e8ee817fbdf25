import CellAsm.Proofs.Subroutine.Call

set_option autoImplicit false

/-! # Returning from a subroutine

The return address is kept in a cell, so what the end of a body finds there is the address behind
the call modulo the word size (`Subroutine.step_return`): nothing checks that the addresses of a
program fit a cell. A subroutine returns to its caller exactly when the address behind the call
does (`return_reaches_caller_iff`).
-/

namespace CellAsm

open Subroutine

/-! ## The jump at the end of a body -/

section

variable {config : Config} {machine stored last : Machine} {back n : Nat}

/-- **A jump to the stored address** goes to what the cell could hold of it. -/
theorem Subroutine.step_return (hfits : machine.memory.Fits config)
    (hstore : machine.program.HasAt machine.ip
      [(moveOpcode .literal).byte.toUInt64, jumpBackAddress, UInt64.ofNat back])
    (hback : back < 2 ^ 64) (hjumpBack : jumpBackCell < config.memorySize)
    (hstep : machine.step = (.ok (), stored))
    (hsteps : Machine.Steps (Machine.Spares jumpBackAddress) n stored last)
    (hjump : last.program.HasAt last.ip [(jumpOpcode .address).byte.toUInt64, jumpBackAddress]) :
    last.step = if back % 2 ^ config.wordSize = last.ip
      then last.fail (.infiniteLoop .jmp (back % 2 ^ config.wordSize))
      else last.proceed (back % 2 ^ config.wordSize) := by
  obtain ⟨stored', hstep', -, -, -, word, hread, hword⟩ :=
    Machine.exists_step_move ⟨.literal, UInt64.ofNat back⟩ hfits hstore rfl hjumpBack
  obtain rfl : stored = stored' := (Prod.mk.inj (hstep.symm.trans hstep')).2
  rw [UInt64.toNat_ofNat', Nat.mod_eq_of_lt hback] at hword
  -- the cell still holds what was stored
  have hvalue : (Operand.mk .address jumpBackAddress).value last.memory = .ok word := by
    rw [Operand.value_address, hsteps.read_eq, hread]
  rw [Machine.step_jump ⟨.address, jumpBackAddress⟩ hjump hvalue, hword]

/-- Whether the jump succeeds or not, the position after it is what the cell could hold of the
stored address. -/
theorem Subroutine.ip_step_return {entry : Nat}
    (h : last.step = if entry = last.ip then last.fail (.infiniteLoop .jmp entry)
      else last.proceed entry) :
    last.step.2.ip = entry ∧ (last.step.1 = .ok () ↔ entry ≠ last.ip) := by
  by_cases hloop : entry = last.ip
  · rw [if_pos hloop] at h
    rw [h]
    refine ⟨hloop.symm, ⟨?_, fun hne => absurd hloop hne⟩⟩
    intro hok
    cases hok
  · rw [if_neg hloop] at h
    rw [h]
    exact ⟨rfl, ⟨fun _ => hloop, fun _ => rfl⟩⟩

end

/-! ## Calls and ends with a place -/

namespace Assembly.Placement

variable {assembler : Assembler} {file text : String} {assembly : Assembly assembler file text}
  {before after : List Line} {line : Line}

/-- The address of the instruction of a call that stores the return address. -/
def storeAddress (place : assembly.Placement before line after) : Nat := place.next - 5

/-- The last two instructions of a call store the address behind it and jump to the body. -/
theorem hasAt_storeAddress (place : assembly.Placement before line after)
    (hstrict : assembler.policy = .strict) (hplain : assembly.IsPlain)
    (hmarker : Marker.of? line = some .call) :
    place.next < 2 ^ 64 ∧ ∃ entry, assembly.program.HasAt place.storeAddress
      ([(moveOpcode .literal).byte.toUInt64, jumpBackAddress, UInt64.ofNat place.next]
        ++ [(jumpOpcode .literal).byte.toUInt64, UInt64.ofNat entry]) := by
  obtain ⟨name, arguments, hlist, -, ⟨body⟩⟩ := place.exists_callee hstrict hplain hmarker
  obtain ⟨handed, -, hwords, hnext, -⟩ :=
    place.words_of_call hmarker hlist body.isValidName_name body.address?_name
  have hcode := place.hasAt
  rw [hwords, List.append_assoc, Program.hasAt_append] at hcode
  -- the store and the jump are the last five words of the call
  have haddress : place.storeAddress = place.address + handed.words.length := by
    rw [storeAddress, next, Listing.size, hwords]
    simp
    omega
  rw [haddress]
  exact ⟨hnext, _, hcode.2⟩

end Assembly.Placement

/-- **A subroutine returns to its caller exactly when the address behind the call fits a cell.**
When the return address of a call was stored and no instruction after that stores to its cell, the
jump at the end of a body goes to the address behind the call modulo the word size, or is a fault
if that is its own address. -/
theorem return_reaches_caller_iff {assembler : Assembler} {file text : String} {program : Program}
    (hassemble : (assembler.assemble file text).result = .ok program)
    (hstrict : assembler.policy = .strict) :
    ∃ assembly : Assembly assembler file text, assembly.program = program ∧ (assembly.IsPlain →
      ∀ (before : List Line) (line : Line) (after : List Line),
        assembly.source = before ++ line :: after → Marker.of? line = some .call →
      ∀ (endBefore : List Line) (endLine : Line) (endAfter : List Line),
        assembly.source = endBefore ++ endLine :: endAfter → Marker.of? endLine = some .finish →
        Nonempty (assembly.Placement before line after) ∧
        Nonempty (assembly.Placement endBefore endLine endAfter) ∧
        ∀ (place : assembly.Placement before line after)
          (finish : assembly.Placement endBefore endLine endAfter),
          (∃ entry, program.HasAt place.storeAddress
            ([(moveOpcode .literal).byte.toUInt64, jumpBackAddress, UInt64.ofNat place.next]
              ++ [(jumpOpcode .literal).byte.toUInt64, UInt64.ofNat entry])) ∧
          program.HasAt finish.address [(jumpOpcode .address).byte.toUInt64, jumpBackAddress] ∧
          ∀ (machine stored last : Machine) (n : Nat), machine.program = program →
            machine.memory.Fits assembler.config → machine.ip = place.storeAddress →
            machine.step = (.ok (), stored) →
            Machine.Steps (Machine.Spares jumpBackAddress) n stored last →
            last.ip = finish.address →
            last.step.2.ip = place.next % 2 ^ assembler.config.wordSize ∧
            (last.step.1 = .ok () ↔
              place.next % 2 ^ assembler.config.wordSize ≠ finish.address) ∧
            (last.step.2.ip = place.next ↔ place.next < 2 ^ assembler.config.wordSize)) := by
  obtain ⟨assembly, rfl⟩ := Assembler.assemble_eq_ok_iff_exists_assembly.mp hassemble
  refine ⟨assembly, rfl, fun hplain before line after hsource hmarker endBefore endLine endAfter
    hendSource hendMarker => ?_⟩
  have hdeclared := assembly.table_ne_nil_of_call hsource hmarker
  refine ⟨assembly.exists_placement hstrict hplain hdeclared hsource,
    assembly.exists_placement hstrict hplain hdeclared hendSource, fun place finish => ?_⟩
  obtain ⟨hnext, entry, hcall⟩ := place.hasAt_storeAddress hstrict hplain hmarker
  have hend := finish.hasAt
  rw [finish.words_of_finish hendMarker] at hend
  refine ⟨⟨entry, hcall⟩, hend, ?_⟩
  intro machine stored last n hprogram hfits hip hstep hsteps hlast
  -- the program does not change while it runs, so the jump is still at its address
  have hstore := (Program.hasAt_append.mp hcall).1
  rw [← hprogram, ← hip] at hstore
  have hjump : last.program.HasAt last.ip
      [(jumpOpcode .address).byte.toUInt64, jumpBackAddress] := by
    have hchanges := machine.step_changes
    rw [hstep] at hchanges
    rw [hsteps.program_eq, hchanges.program, hprogram, hlast]
    exact hend
  obtain ⟨hposition, hsuccess⟩ :=
    ip_step_return (step_return hfits hstore hnext place.shares.jumpBackCell_lt hstep hsteps hjump)
  rw [hlast] at hsuccess
  refine ⟨hposition, hsuccess, ?_⟩
  rw [hposition, Nat.mod_eq_iff_lt (Nat.two_pow_pos _).ne']

/-! ## A sample -/

namespace Subroutine.Sample

/-- A machine with cells of 3 bits after a number of steps. -/
def narrow : Nat → Machine
  | 0 => (Machine.create (assembler 3).config [] default).load program
  | k + 1 => (narrow k).step.2

theorem program_narrow (k : Nat) : (narrow k).program = program := by
  induction k with
  | zero => rfl
  | succ k ih => exact (narrow k).step_changes.program.trans ih

theorem fits_narrow (k : Nat) : (narrow k).memory.Fits (assembler 3).config := by
  induction k with
  | zero => exact Machine.fits_load (Machine.fits_create _ [] _) program
  | succ k ih => exact Machine.fits_step ih

theorem step_narrow {k : Nat} (h : (narrow k).step.1 = .ok ()) :
    (narrow k).step = (.ok (), narrow (k + 1)) := by
  rw [← h]
  rfl

/-- The run from the store of the return address to the end of the body. -/
theorem steps_narrow : Machine.Steps (Machine.Spares jumpBackAddress) 3 (narrow 2) (narrow 5) := by
  have hspares : ∀ k ∈ [2, 3, 4], (narrow k).destination? ≠ some jumpBackAddress := by
    decide +kernel
  have hsteps : ∀ k ∈ [2, 3, 4], (narrow k).step.1 = .ok () := by decide +kernel
  refine .cons (hspares 2 (by decide)) (step_narrow (hsteps 2 (by decide))) ?_
  refine .cons (hspares 3 (by decide)) (step_narrow (hsteps 3 (by decide))) ?_
  exact .single (hspares 4 (by decide)) (step_narrow (hsteps 4 (by decide)))

end Subroutine.Sample

open Subroutine.Sample in
/-- The call in the sample is followed by address 8, of which a cell of 3 bits holds 0. -/
theorem return_reaches_caller_iff_sample :
    ((assembler 3).assemble "sample" text).result = .ok program ∧
      program.HasAt 3 [0x08, 1, 8, 0x0F, 9] ∧ (narrow 1).ip = 3 ∧ (narrow 5).ip = 15 ∧
      program.HasAt 15 [0x0E, 1] ∧ (narrow 5).step.1 = .ok () ∧ (narrow 5).step.2.ip = 0 := by
  have hcall : ∀ address < program.size, program.HasAt address [0x08, 1] → address = 3 := by
    decide +kernel
  have hend : ∀ address < program.size, program.HasAt address [0x0E, 1] → address = 15 := by
    decide +kernel
  refine ⟨assemble_text 3, by decide +kernel, by decide +kernel, by decide +kernel,
    by decide +kernel, ?_⟩
  obtain ⟨assembly, -, hreturns⟩ := return_reaches_caller_iff (assemble_text 3) rfl
  obtain ⟨hplain, hsource⟩ := source_eq assembly
  obtain ⟨⟨place⟩, ⟨finish⟩, hplaces⟩ := hreturns hplain [] _ _ hsource (by decide +kernel)
    (Comment.remove lines).dropLast (line 5 "@end()" "@end()") [] (by rw [hsource]; decide +kernel)
    (by decide +kernel)
  obtain ⟨⟨entry, hstore⟩, hjump, hruns⟩ := hplaces place finish
  have hplace : place.storeAddress = 3 :=
    hcall _ hstore.lt_size (List.IsPrefix.trans ⟨_, rfl⟩ hstore)
  have hfinish : finish.address = 15 := hend _ hjump.lt_size hjump
  have hnext : place.next = 8 := by
    rw [Assembly.Placement.storeAddress] at hplace
    omega
  obtain ⟨hposition, hsuccess, -⟩ := hruns (narrow 1) (narrow 2) (narrow 5) 3 (program_narrow 1)
    (fits_narrow 1) (by rw [hplace]; decide +kernel) (step_narrow (by decide +kernel)) steps_narrow
    (by rw [hfinish]; decide +kernel)
  rw [hnext] at hposition hsuccess
  rw [hfinish] at hsuccess
  exact ⟨hsuccess.mpr (by decide), hposition⟩

end CellAsm
