import CellAsm.Library
import CellAsm.Proofs.Pass.Import
import CellAsm.Proofs.Library.Routine
import CellAsm.Proofs.Placement
import CellAsm.Proofs.Text.PhysicalLines

set_option autoImplicit false

/-! # The library in a program

A program that imports the whole library is assembled to the code of its routines, one behind the
other (`exists_assembly_source`). So in every such program each routine computes what it promises
and goes back to where `$jump_back` says (`routines_compute`).
-/

namespace CellAsm

/-! ## Lines of library files -/

/-- Lines as they were typed, from their texts. -/
def Line.typedFrom (first : Nat) (file : String) : List String → List Line
  | [] => []
  | text :: texts => ⟨first, file, text, text⟩ :: typedFrom (first + 1) file texts

theorem Line.numberedFrom_map_toList (first : Nat) (file : String) (texts : List String) :
    Line.numberedFrom first file (texts.map String.toList) = Line.typedFrom first file texts := by
  induction texts generalizing first with
  | nil => rfl
  | cons text texts ih =>
      rw [List.map_cons, numberedFrom, typedFrom, typed, String.ofList_toList, ih]

theorem Import.path?_of_mem_typedFrom {first : Nat} {file : String} {texts : List String}
    (h : ∀ text ∈ texts, '#' ∉ text.toList) :
    ∀ line ∈ Line.typedFrom first file texts, path? line = none := by
  induction texts generalizing first with
  | nil => simp [Line.typedFrom]
  | cons text texts ih =>
      obtain ⟨htext, htexts⟩ := List.forall_mem_cons.mp h
      exact List.forall_mem_cons.mpr ⟨path?_eq_none_of_notMem htext, ih htexts⟩

namespace Library

/-- The lines of a text that was put together from lines. -/
theorem ofText_textOf (file : String) {texts : List String}
    (h : ∀ text ∈ texts, Text.IsPhysical text.toList) :
    Line.ofText file (textOf texts) = Line.typedFrom 1 file texts := by
  rw [Line.ofText, textOf, Text.toList_join_ended,
    Text.physicalLines_ended (List.forall_mem_map.mpr h), Line.numberedFrom_map_toList]

end Library

/-! ## Behind the imports -/

/-- What the passes behind the imports leave of lines: the labels and the instructions. -/
def assembleImported (cells : Nat) (imported : List Line) :
    Except Fault (Label.Table × Listing) := do
  let expanded ← Subroutine.expand (Comment.remove imported)
  let prepared ← (Constant.replace .strict cells expanded).result
  let labels ← ({} : Label.Table).enterLines prepared
  let kept ← labels.replaceLines prepared
  let coded ← Character.replace kept
  let listing ← Listing.ofLines coded
  return (labels, listing)

/-- **Lines that assemble with few cells assemble with more**, to the same program. -/
theorem exists_assembly_of_assembleImported {assembler : Assembler} {file text : String}
    {cells : Nat} {imported : List Line} {labels : Label.Table} {listing : Listing}
    (hstrict : assembler.policy = .strict) (hcells : cells ≤ assembler.config.memorySize)
    (himports : Import.expand assembler.files (Line.ofText file text) = .ok imported)
    (h : assembleImported cells imported = .ok (labels, listing)) :
    ∃ assembly : Assembly assembler file text,
      assembly.labels = labels ∧ assembly.listing = listing := by
  obtain ⟨expanded, hexpanded, h⟩ := Success.bind_iff.mp h
  obtain ⟨prepared, hprepared, h⟩ := Success.bind_iff.mp h
  obtain ⟨labels', hlabels, h⟩ := Success.bind_iff.mp h
  obtain ⟨kept, hkept, h⟩ := Success.bind_iff.mp h
  obtain ⟨coded, hcoded, h⟩ := Success.bind_iff.mp h
  obtain ⟨listing', hlisting, h⟩ := Success.bind_iff.mp h
  obtain ⟨rfl, rfl⟩ := Prod.mk.inj (Success.pure_iff.mp h)
  obtain ⟨table, htable, -⟩ := Subroutine.expand_eq_ok hexpanded
  have hsubstitutes := Constant.replaceFrom_of_le hcells hprepared
  rw [← hstrict] at hsubstitutes
  exact ⟨⟨imported, table, expanded, prepared, labels', listing', himports, htable, hexpanded,
    hsubstitutes, hlabels, kept, coded, hkept, hcoded, hlisting⟩, rfl, rfl⟩

namespace Library

/-! ## The program -/

/-- The text of a program that halts and imports the library. -/
def source : String := textOf
  ["HALT", "#import <lib/math/divide.asm>", "#import <lib/math/multiply.asm>",
    "#import <lib/binary/shift.asm>"]

/-- The lines of the program after the imports. -/
def imported : List Line :=
  ⟨1, Assembler.unnamed, "HALT", "HALT"⟩
    :: (Line.ofText "lib/math/divide.asm" divide
      ++ (Line.ofText "lib/math/multiply.asm" multiply ++ Line.ofText "lib/binary/shift.asm" shift))

/-- The files of the library import nothing. -/
theorem flat_divide (file : String) :
    ∀ line ∈ Line.ofText file divide, Import.path? line = none := by
  rw [divide, ofText_textOf]
  · exact Import.path?_of_mem_typedFrom (by simp)
  · simp [Text.isPhysical_iff]

theorem flat_multiply (file : String) :
    ∀ line ∈ Line.ofText file multiply, Import.path? line = none := by
  rw [multiply, ofText_textOf]
  · exact Import.path?_of_mem_typedFrom (by simp)
  · simp [Text.isPhysical_iff]

theorem flat_shift (file : String) : ∀ line ∈ Line.ofText file shift, Import.path? line = none := by
  rw [shift, ofText_textOf]
  · exact Import.path?_of_mem_typedFrom (by simp)
  · simp [Text.isPhysical_iff]

theorem expand_source :
    Import.expand files (Line.ofText Assembler.unnamed source) = .ok imported := by
  have hhalt : Import.path? ⟨1, Assembler.unnamed, "HALT", "HALT"⟩ = none := by decide +kernel
  have hshift : (Import.expandFrom files ["lib/math/multiply.asm", "lib/math/divide.asm"]
      (Line.typedFrom 4 Assembler.unnamed ["#import <lib/binary/shift.asm>"])).result
      = .ok (Line.ofText "lib/binary/shift.asm" shift ++ []) :=
    Import.result_expandFrom_of_flat (by decide +kernel) (by decide) (by decide) rfl
      (flat_shift _) (by rw [Line.typedFrom, Import.expandFrom])
  have hmultiply : (Import.expandFrom files ["lib/math/divide.asm"]
      (Line.typedFrom 3 Assembler.unnamed
        ["#import <lib/math/multiply.asm>", "#import <lib/binary/shift.asm>"])).result
      = .ok (Line.ofText "lib/math/multiply.asm" multiply
        ++ (Line.ofText "lib/binary/shift.asm" shift ++ [])) :=
    Import.result_expandFrom_of_flat (by decide +kernel) (by decide) (by decide) rfl
      (flat_multiply _) hshift
  have hdivide : (Import.expandFrom files []
      (Line.typedFrom 2 Assembler.unnamed
        ["#import <lib/math/divide.asm>", "#import <lib/math/multiply.asm>",
          "#import <lib/binary/shift.asm>"])).result
      = .ok (Line.ofText "lib/math/divide.asm" divide
        ++ (Line.ofText "lib/math/multiply.asm" multiply
          ++ (Line.ofText "lib/binary/shift.asm" shift ++ []))) :=
    Import.result_expandFrom_of_flat (by decide +kernel) (by decide) (by decide) rfl
      (flat_divide _) hmultiply
  rw [source, ofText_textOf]
  · rw [Import.expand, Line.typedFrom, Import.expandFrom_of_path?_eq_none hhalt, imported]
    rw [List.append_nil] at hdivide
    exact Success.map_iff.mpr ⟨_, hdivide, rfl⟩
  · simp [Text.isPhysical_iff]

/-- The address at which the code of a routine begins in the program. -/
def Routine.entry : Routine → Nat
  | divide => 1
  | multiply => 21
  | shiftLeft => 37
  | shiftRight => 48

/-- All routines in the order of their code. -/
def Routine.all : List Routine := [divide, multiply, shiftLeft, shiftRight]

theorem Routine.mem_all (routine : Routine) : routine ∈ all := by
  cases routine <;> decide

/-- The words of the program. -/
def words : List UInt64 :=
  0xFF :: Routine.all.flatMap fun routine => wordsOf (routine.ops routine.entry)

set_option maxRecDepth 4000 in
/-- **The program is a halt and the code of the routines.** -/
theorem assembleImported_imported :
    (assembleImported 4 imported).map (fun assembled =>
      (Routine.all.map fun routine => assembled.1.address? routine.name.toList,
        assembled.2.flatMap fun entry => entry.2.words))
      = .ok (Routine.all.map fun routine => some routine.entry,
        words) := by
  rw [imported, divide, multiply, shift, ofText_textOf, ofText_textOf, ofText_textOf]
  · decide +kernel
  all_goals simp [Text.isPhysical_iff]

theorem prefix_words (routine : Routine) :
    wordsOf (routine.ops routine.entry) <+: words.drop routine.entry := by
  cases routine <;> decide +kernel

/-- From the entry of a routine on, the first jump back is that of the routine itself. -/
theorem isLeast_finish (routine : Routine) :
    IsLeast {address | routine.entry ≤ address ∧ goBack.instruction.words <+: words.drop address}
      (routine.finish routine.entry) := by
  have hfirst : ∀ address < routine.finish routine.entry, routine.entry ≤ address →
      ¬ goBack.instruction.words <+: words.drop address := by
    cases routine <;> decide +kernel
  refine ⟨⟨?_, ?_⟩, fun address haddress => ?_⟩
  · rw [Routine.finish, Nat.add_assoc]
    exact Nat.le_add_right _ _
  · cases routine <;> decide +kernel
  · by_contra hlt
    exact hfirst address (Nat.lt_of_not_le hlt) haddress.1 haddress.2

theorem exists_assembly_source {config : Config} (hconfig : 4 ≤ config.memorySize) :
    ∃ assembly : Assembly { config, files } Assembler.unnamed source,
      (∀ routine : Routine,
        assembly.labels.address? routine.name.toList = some routine.entry) ∧
      assembly.program.words.toList = words := by
  obtain ⟨⟨labels, listing⟩, hassembled, hresult⟩ := Success.map_iff.mp assembleImported_imported
  obtain ⟨hentries, hwords⟩ := Prod.mk.inj hresult
  have hexists : ∃ assembly : Assembly { config, files } Assembler.unnamed source,
      assembly.labels = labels ∧ assembly.listing = listing :=
    exists_assembly_of_assembleImported rfl hconfig expand_source hassembled
  obtain ⟨assembly, rfl, rfl⟩ := hexists
  refine ⟨assembly, fun routine => ?_, ?_⟩
  · exact List.map_inj_left.mp hentries routine routine.mem_all
  · rw [Assembly.program, Program.toList_words_ofListing]
    exact hwords

/-- **The routines of the library compute what they promise**, for all arguments and word sizes,
in a program that imports the library: from the entry of a routine, with its arguments in `$arg0`
and `$arg1` and a return address in `$jump_back` that is not the address of the routine's own last
jump, the machine gets to the return address with the result in `$return`, prints nothing and
changes no cell but `$return`, `$arg0` and `$arg1`. -/
theorem routines_compute {config : Config} (hconfig : 4 ≤ config.memorySize) :
    ∃ assembly : Assembly { config, files } Assembler.unnamed source,
      (({ config, files } : Assembler).assemble Assembler.unnamed source).result
        = .ok assembly.program ∧
      ∀ routine : Routine, ∃ entry finish,
        assembly.labels.address? routine.name.toList = some entry ∧
        IsLeast {address | entry ≤ address ∧
          assembly.program.HasAt address goBack.instruction.words} finish ∧
        ∀ (target : Config) (q r a b : Nat), a < 2 ^ target.wordSize → b < 2 ^ target.wordSize →
          r ≠ finish → ∃ a' b', Leads target assembly.program entry ⟨q, r, a, b⟩ r
            ⟨routine.result target.wordSize a b, r, a', b'⟩ := by
  obtain ⟨assembly, hentries, hwords⟩ := exists_assembly_source hconfig
  have hassemble := Assembler.assemble_eq_ok_iff_exists_assembly.mpr ⟨assembly, rfl⟩
  refine ⟨assembly, hassemble, fun routine => ?_⟩
  refine ⟨routine.entry, routine.finish routine.entry, hentries routine, ?_, ?_⟩
  · simp only [Program.HasAt, hwords]
    exact isLeast_finish routine
  · intro target q r a b ha hb hr
    refine routine.exists_leads ?_ ?_ ha hb hr
    · rw [Program.HasAt, hwords]
      exact prefix_words routine
    · cases routine <;> decide

/-! ### Dividing 23 by 5 -/

namespace Sample

/-- Four cells of 8 bits. -/
def config : Config := Config.default.withMemorySize 4

/-- A machine at the entry of a routine, with 23 and 5 as the arguments. -/
def machine (program : Program) (entry : Nat) (back : UInt64) : Machine :=
  { Machine.create config [] default with
    program
    ip := entry
    memory := ⟨#[9, back, 23, 5], config.wordMask⟩ }

theorem shows_machine (program : Program) (entry : Nat) (back : UInt64) :
    (machine program entry back).Shows config entry ⟨9, back.toNat, 23, 5⟩ := by
  refine ⟨⟨rfl, rfl⟩, rfl, fun cell => ?_⟩
  cases cell with
  | result => exact ⟨9, rfl, rfl⟩
  | jumpBack => exact ⟨back, rfl, rfl⟩
  | first => exact ⟨23, rfl, rfl⟩
  | second => exact ⟨5, rfl, rfl⟩

end Sample

open Sample in
theorem routines_compute_sample :
    4 ≤ config.memorySize ∧ 23 < 2 ^ config.wordSize ∧ 5 < 2 ^ config.wordSize ∧
      ∃ (program : Program) (entry : Nat) (back : UInt64) (n : Nat) (last : Machine),
        (({ config, files } : Assembler).assemble Assembler.unnamed source).result = .ok program ∧
        Machine.Steps (fun _ => True) n (machine program entry back) last ∧
        last.ip = back.toNat ∧ last.memory.Holds SharedCell.result.address 4 := by
  refine ⟨le_rfl, by decide, by decide, ?_⟩
  obtain ⟨assembly, hassemble, hroutines⟩ :=
    routines_compute (show 4 ≤ config.memorySize from le_rfl)
  obtain ⟨entry, finish, -, -, hcomputes⟩ := hroutines .divide
  -- any return address but that of the last jump
  obtain ⟨back, hback⟩ : ∃ back : UInt64, back.toNat ≠ finish := by
    by_cases hfinish : finish = 0
    · exact ⟨1, by rw [hfinish]; decide⟩
    · exact ⟨0, Ne.symm hfinish⟩
  obtain ⟨a', b', hleads⟩ :=
    hcomputes config 9 back.toNat 23 5 (by decide) (by decide) hback
  obtain ⟨n, last, hsteps, hlast, -⟩ := hleads _ rfl (shows_machine assembly.program entry back)
  exact ⟨assembly.program, entry, back, n, last, hassemble, hsteps, hlast.ip, hlast.holds .result⟩

end Library

end CellAsm
