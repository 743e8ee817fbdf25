import CellAsm.Proofs.Constant.Replacement
import CellAsm.Proofs.Machine.Cells
import CellAsm.Proofs.Subroutine.Cells
import CellAsm.Proofs.Subroutine.Grammar
import CellAsm.Proofs.Warnings

set_option autoImplicit false

/-! # Cells that are allocated

A definition `$name = [_]` gets the cell whose number is the number of such definitions before it,
and when all cells are used up the next one is a fault. So no two definitions share a cell, and
every cell that is handed out exists in a machine with the same parameters
(`Constant.AllocatesInOrder`). The lines that subroutines put in front of a program are definitions
of this kind. They come first, so under the strict policy the first cells are theirs for the whole
program (`Subroutine.KeepsApart`).
-/

namespace CellAsm

/-! ## What the pass for constants gets -/

namespace Assembler

variable {assembler : Assembler} {file text : String} {lines : List Line}

theorem expanded_eq_ok_iff :
    (assembler.expanded file text).result = .ok lines ↔
      ∃ imported, Import.expand assembler.files (Line.ofText file text) = .ok imported ∧
        Subroutine.expand (Comment.remove imported) = .ok lines := by
  simp only [expanded, Pass.applyAll, Pass.apply, Report.bind_eq, Success.andThen_iff,
    Report.ofExcept, Report.pure_eq, Except.ok.injEq]
  constructor
  · rintro ⟨imported, himported, _, rfl, _, hlines, rfl⟩
    exact ⟨imported, himported, hlines⟩
  · rintro ⟨imported, himported, hlines⟩
    exact ⟨imported, himported, _, rfl, lines, hlines, rfl⟩

/-- A fault of the pass for constants is the fault of the text. -/
theorem preprocess_of_replace {fault : Fault}
    (h : (assembler.expanded file text).result = .ok lines)
    (hfault : (Constant.replace assembler.policy assembler.config.memorySize lines).result
      = .error fault) :
    (assembler.preprocess file text).result = .error fault := by
  rw [preprocess_eq_expanded]
  refine Failure.andThen_iff.mpr (.inr ⟨lines, h, ?_⟩)
  exact Failure.andThen_iff.mpr (.inl hfault)

end Assembler

namespace Constant

/-! ## The pass on its way -/

/-- The pass goes through the lines `front` and comes out of them with the constants `table`. -/
def Arrives (policy : Policy) (cells : Nat) (front : List Line) (table : Table) : Prop :=
  ∃ kept, Substitutes cells policy {} front table kept

section

variable {policy : Policy} {cells : Nat} {table next last : Table}
  {before front more kept keptMore : List Line} {line : Line} {name : Token} {fault : Fault}

theorem Substitutes.append (h : Substitutes cells policy table front next kept)
    (hmore : Substitutes cells (policy.after (replaceFrom policy cells table front).warnings) next
      more last keptMore) :
    Substitutes cells policy table (front ++ more) last (kept ++ keptMore) := by
  induction h with
  | nil policy table => exact hmore
  | definition hline hprocess _ ih =>
      rw [after_replaceFrom_of_definition hline hprocess] at hmore
      exact .definition hline hprocess (ih hmore)
  | code hline hresolved _ ih =>
      rw [replaceFrom_of_code hline hresolved] at hmore
      exact .code hline hresolved (ih hmore)

/-- What the pass makes of lines when it has gone through those in front of them. -/
theorem Substitutes.result_replaceFrom_append
    (h : Substitutes cells policy table front next kept) :
    (replaceFrom policy cells table (front ++ more)).result
      = (replaceFrom (policy.after (replaceFrom policy cells table front).warnings) cells next
          more).result.map (kept ++ ·) := by
  induction h with
  | nil policy table => exact (congrFun Except.map_id _).symm
  | definition hline hprocess _ ih =>
      rw [after_replaceFrom_of_definition hline hprocess, ← ih, List.cons_append,
        replaceFrom_of_definition hline, Report.bind_of_ok hprocess]
  | code hline hresolved _ ih =>
      rw [List.cons_append, replaceFrom_of_code hline hresolved,
        replaceFrom_of_code hline hresolved]
      simp only [ih]
      generalize (replaceFrom _ cells _ more).result = result
      cases result <;> rfl

/-- **The table is described by the lines that the pass has gone through.** -/
theorem Substitutes.describes (h : Substitutes cells policy table front next kept)
    (htable : Describes table before) : Describes next (before ++ front) := by
  induction h generalizing before with
  | nil policy table => rwa [List.append_nil]
  | definition hline hprocess _ ih =>
      have hnext := htable.of_define (defines_iff.mpr hline) (process_eq_ok hprocess).2
      have hlast := ih hnext
      rwa [List.append_assoc] at hlast
  | code hline _ _ ih =>
      have hlast := ih (htable.of_not_isDefinition (isDefinition_of_ofTokens_code hline))
      rwa [List.append_assoc] at hlast

/-- No more cells are handed out than there are. -/
theorem Substitutes.nextCell_le (h : Substitutes cells policy table front next kept)
    (htable : table.nextCell ≤ cells) : next.nextCell ≤ cells := by
  induction h with
  | nil policy table => exact htable
  | definition _ hprocess _ ih =>
      refine ih ?_
      rcases Table.define_eq_ok (process_eq_ok hprocess).2 with ⟨-, hcell, rfl⟩ | ⟨-, _, -, rfl⟩
      · exact hcell
      · exact htable
  | code _ _ _ ih => exact ih htable

/-- The pass goes the same way under every policy that lets its warnings pass. -/
theorem Substitutes.collect (h : Substitutes cells policy table front next kept) :
    Substitutes cells .collect table front next kept := by
  induction h with
  | nil policy table => exact .nil .collect table
  | definition hline hprocess _ ih =>
      obtain ⟨hname, hdefine⟩ := process_eq_ok hprocess
      refine .definition hline ?_ ih
      rw [result_process (.inl rfl), if_neg hname]
      exact Success.check_iff.mpr hdefine
  | code hline hresolved _ ih => exact .code hline hresolved ih

namespace Arrives

theorem describes (h : Arrives policy cells front table) : Describes table front := by
  obtain ⟨kept, hfront⟩ := h
  exact hfront.describes describes_nil

theorem allocations_le (h : Arrives policy cells front table) : allocations front ≤ cells := by
  obtain ⟨kept, hfront⟩ := h
  have hdescribes : Describes table front := hfront.describes describes_nil
  rw [← hdescribes.nextCell]
  exact hfront.nextCell_le (Nat.zero_le cells)

theorem concat_inv (h : Arrives policy cells (front ++ [line]) next) :
    ∃ table, Arrives policy cells front table ∧
      ∃ kept, Substitutes cells (policy.after (replace policy cells front).warnings) table [line]
        next kept := by
  obtain ⟨kept, hconcat⟩ := h
  obtain ⟨table, keptFront, keptLine, hfront, hline, -⟩ := hconcat.append_inv
  exact ⟨table, ⟨keptFront, hfront⟩, keptLine, hline⟩

theorem concat_of_process (h : Arrives policy cells front table) {value : Token}
    (hline : Defines line name value)
    (hprocess : (process (policy.after (replace policy cells front).warnings) cells table line name
      value).result = .ok next) :
    Arrives policy cells (front ++ [line]) next := by
  obtain ⟨kept, hfront⟩ := h
  exact ⟨_, hfront.append (.definition (defines_iff.mp hline) hprocess (.nil _ next))⟩

/-- A fault of a line that the pass comes to is the fault of the pass. -/
theorem replace_of_process (h : Arrives policy cells front table) {value : Token}
    (hline : Defines line name value)
    (hprocess : (process (policy.after (replace policy cells front).warnings) cells table line name
      value).result = .error fault)
    (back : List Line) :
    (replace policy cells (front ++ line :: back)).result = .error fault := by
  obtain ⟨kept, hfront⟩ := h
  rw [replace, hfront.result_replaceFrom_append, replaceFrom_of_definition (defines_iff.mp hline)]
  exact Failure.map_iff.mpr (Failure.andThen_iff.mpr (.inl hprocess))

/-- What is known at a definition that the pass has gone past: it had a name and a value, and the
warning it was worth was let pass. -/
theorem concat_definition (h : Arrives policy cells (front ++ [line]) next) {value : Token}
    (hline : Defines line name value) :
    ∃ table, Arrives policy cells front table ∧ name ≠ [] ∧
      table.define cells name value = .ok next := by
  obtain ⟨table, htable, kept, hkept⟩ := h.concat_inv
  refine ⟨table, htable, ?_⟩
  cases hkept with
  | definition hstatement hprocess hnil =>
      cases hnil
      obtain ⟨rfl, rfl⟩ := Statement.definition.inj (hstatement.symm.trans (defines_iff.mp hline))
      exact process_eq_ok hprocess
  | code hstatement _ _ =>
      rw [defines_iff.mp hline] at hstatement
      cases hstatement

/-- **A definition that allocates gets the next cell**, and there is such a cell. -/
theorem valueOf_allocation (h : Arrives policy cells (front ++ [line]) next)
    (hline : Defines line name allocation) :
    next.valueOf name = .ok (cell (allocations front)) ∧ allocations front < cells := by
  obtain ⟨table, htable, -, hdefine⟩ := h.concat_definition hline
  rcases Table.define_eq_ok hdefine with ⟨-, hcell, rfl⟩ | ⟨hne, -⟩
  · rw [← htable.describes.nextCell]
    exact ⟨Table.valueOf_eq_ok_iff.mpr (List.lookup_cons_self ..), hcell⟩
  · exact absurd rfl hne

/-- A constant that no line in front defines is not in the table. -/
theorem isDefined_eq_false (h : Arrives policy cells front table)
    (hfresh : ∀ earlier ∈ front, ∀ value, ¬ Defines earlier name value) :
    table.isDefined name = false := by
  refine Bool.eq_false_iff.mpr fun hdefined => ?_
  obtain ⟨value, hvalue⟩ := Option.isSome_iff_exists.mp hdefined
  have hknown := (h.describes.values name value).mp (Table.valueOf_eq_ok_iff.mpr hvalue)
  obtain ⟨token, before, earlier, back, hfront, hline, -⟩ := hknown.exists_isLastDefinition
  exact hfresh earlier (by simp [hfront]) token hline

/-- Where a warning does not end the work, a definition with a name is a matter of the table. -/
theorem result_process_after {noted : List Fault} {value : Token} (hname : name ≠ [])
    (hwarning : policy.ends noted (.inLine line (.constantRedefined name)) = false ∨
      table.isDefined name = false) :
    (process (policy.after noted) cells table line name value).result
      = line.check (table.define cells name value) := by
  rw [← Policy.ends_after_nil] at hwarning
  rw [result_process hwarning, if_neg hname]

/-- A definition that allocates gets a cell if there is one left. -/
theorem exists_concat (h : Arrives policy cells front table) (hline : Defines line name allocation)
    (hname : name ≠ [])
    (hwarning : policy.ends (replace policy cells front).warnings
      (.inLine line (.constantRedefined name)) = false ∨ table.isDefined name = false)
    (hcell : allocations front < cells) : ∃ next, Arrives policy cells (front ++ [line]) next := by
  rw [← h.describes.nextCell] at hcell
  obtain ⟨next, hdefine⟩ : ∃ next, table.define cells name allocation = .ok next :=
    ⟨_, (if_pos rfl).trans (if_pos hcell)⟩
  refine ⟨next, h.concat_of_process hline ?_⟩
  rw [result_process_after hname hwarning]
  exact Success.check_iff.mpr hdefine

/-- A definition that allocates is a fault if all cells are handed out. -/
theorem replace_of_full (h : Arrives policy cells front table)
    (hline : Defines line name allocation) (hname : name ≠ [])
    (hwarning : policy.ends (replace policy cells front).warnings
      (.inLine line (.constantRedefined name)) = false ∨ table.isDefined name = false)
    (hfull : allocations front = cells) (back : List Line) :
    (replace policy cells (front ++ line :: back)).result
      = .error (.inLine line .outOfMemory) := by
  refine h.replace_of_process hline ?_ back
  rw [result_process_after hname hwarning]
  refine Failure.check_iff.mpr ⟨_, Table.define_eq_error_iff.mpr (.inl ⟨rfl, ?_, rfl⟩), rfl⟩
  rw [h.describes.nextCell, hfull]

end Arrives

/-! ## Cells and addresses -/

theorem cell_injective : Function.Injective cell := by
  intro n m h
  exact Text.decimal_injective (List.append_cancel_right (List.cons.inj h).2)

/-- The operand for a cell is its number, if that fits a word. -/
theorem operandWord_cell {n : Nat} (h : n < 2 ^ 64) :
    Instruction.operandWord (cell n) = .ok (UInt64.ofNat n) := by
  have hbare : Instruction.bareOperand (cell n) = Text.decimal n :=
    Instruction.bareOperand_brackets n
  rw [Instruction.operandWord, hbare, Text.decimal?_decimal_eq_some_iff.mpr ⟨h, rfl⟩]

theorem exists_read_cell {config : Config} {n : Nat} (h : n < config.memorySize)
    (hsize : config.memorySize ≤ 2 ^ 64) :
    ∃ address value, Instruction.operandWord (cell n) = .ok address ∧ address.toNat = n ∧
      (Memory.blank config).read address = .ok value := by
  have hword : n < 2 ^ 64 := h.trans_le hsize
  have haddress : (UInt64.ofNat n).toNat = n := UInt64.toNat_ofNat_of_lt' hword
  have hcell : (UInt64.ofNat n).toNat < (Memory.blank config).size := by
    rwa [haddress, Memory.size_blank]
  obtain ⟨value, hvalue⟩ := Memory.exists_read hcell
  exact ⟨_, value, operandWord_cell hword, haddress, hvalue⟩

end

/-! ## The lines of a text -/

/-- Cells are handed out to the constants of a text in the order in which they ask for one, where
`lines` are what its imports and subroutines expand to. -/
structure AllocatesInOrder (assembler : Assembler) (file text : String) (lines : List Line) :
    Prop where
  /-- If the text can be preprocessed, the pass goes through all lines. -/
  arrives : ∀ coded, (assembler.preprocess file text).result = .ok coded →
    ∀ front back, lines = front ++ back →
      ∃ table, Arrives assembler.policy assembler.config.memorySize front table
  /-- Wherever the pass gets, it would get there with all warnings let pass. -/
  collects : ∀ front table, Arrives assembler.policy assembler.config.memorySize front table →
    Arrives .collect assembler.config.memorySize front table
  /-- A definition that asks for a cell is a fault exactly when all cells are handed out, unless
  it is one for another reason: it has no name, or its name is defined and the policy, which has
  noted the warnings of the lines in front, ends the work there. -/
  exhausts : ∀ front line back name table, lines = front ++ line :: back →
    Arrives assembler.policy assembler.config.memorySize front table →
    Defines line name allocation → name ≠ [] →
    (assembler.policy.ends (replace assembler.policy assembler.config.memorySize front).warnings
        (.inLine line (.constantRedefined name)) = false ∨
      ∀ earlier ∈ front, ∀ value, ¬ Defines earlier name value) →
    ((replace assembler.policy assembler.config.memorySize (front ++ [line])).result
        = .error (.inLine line .outOfMemory) ↔ allocations front = assembler.config.memorySize) ∧
      if allocations front = assembler.config.memorySize then
        (assembler.preprocess file text).result = .error (.inLine line .outOfMemory)
      else ∃ next, Arrives assembler.policy assembler.config.memorySize (front ++ [line]) next
  /-- The number of the cell is the number of the definitions before that have got one. -/
  counts : ∀ front line back name next, lines = front ++ line :: back →
    Defines line name allocation →
    Arrives assembler.policy assembler.config.memorySize (front ++ [line]) next →
    next.valueOf name = .ok (cell (allocations front)) ∧
      allocations front < (Memory.blank assembler.config).size
  /-- No two definitions get the same cell. -/
  distinct : ∀ front line between later back name laterName next last,
    lines = front ++ line :: between ++ later :: back →
    Defines line name allocation → Defines later laterName allocation →
    Arrives assembler.policy assembler.config.memorySize (front ++ [line]) next →
    Arrives assembler.policy assembler.config.memorySize
      (front ++ line :: between ++ [later]) last →
    next.valueOf name ≠ last.valueOf laterName
  /-- The cells of a machine can be addressed. -/
  valid : assembler.config.memorySize ≤ 2 ^ 64 →
    ∀ n < (Memory.blank assembler.config).size, ∃ address value,
      Instruction.operandWord (cell n) = .ok address ∧ address.toNat = n ∧
        (Memory.blank assembler.config).read address = .ok value

/-- The later of two definitions gets the higher number. -/
theorem allocations_lt {front between : List Line} {line : Line} {name : Token}
    (hline : Defines line name allocation) :
    allocations front < allocations (front ++ line :: between) := by
  have hone : isAllocation line = true := isAllocation_iff.mpr ⟨name, hline⟩
  have hpos : 0 < allocations (line :: between) :=
    List.countP_pos_iff.mpr ⟨line, List.mem_cons_self, hone⟩
  rw [allocations_append]
  omega

theorem AllocatesInOrder.of_expanded {assembler : Assembler} {file text : String}
    {lines : List Line} (h : (assembler.expanded file text).result = .ok lines) :
    Constant.AllocatesInOrder assembler file text lines where
  arrives := by
    rintro coded hcoded front back rfl
    rw [Assembler.preprocess_eq_expanded] at hcoded
    obtain ⟨_, hexpanded, hcoded⟩ := Success.andThen_iff.mp hcoded
    obtain rfl := Except.ok.inj (h.symm.trans hexpanded)
    obtain ⟨kept, hkept, -⟩ := Success.andThen_iff.mp hcoded
    obtain ⟨last, hlast⟩ := substitutes_of_replaceFrom hkept
    obtain ⟨table, keptFront, _, hfront, -⟩ := hlast.append_inv
    exact ⟨table, keptFront, hfront⟩
  collects := fun _ _ ⟨kept, hkept⟩ => ⟨kept, hkept.collect⟩
  exhausts := by
    rintro front line back name table rfl harrives hline hname hpolicy
    have hwarning := hpolicy.imp_right harrives.isDefined_eq_false
    -- the next allocation fails if the cells are used up, and gets the next one otherwise
    by_cases hfull : allocations front = assembler.config.memorySize
    · have hfails := harrives.replace_of_full hline hname hwarning hfull
      rw [if_pos hfull]
      exact ⟨iff_of_true (hfails []) hfull, Assembler.preprocess_of_replace h (hfails back)⟩
    · have hcell := Nat.lt_of_le_of_ne harrives.allocations_le hfull
      obtain ⟨next, hnext⟩ := harrives.exists_concat hline hname hwarning hcell
      rw [if_neg hfull]
      refine ⟨iff_of_false (fun hfails => ?_) hfull, next, hnext⟩
      obtain ⟨kept, hkept⟩ := hnext
      rw [replace, replaceFrom_of_substitutes hkept] at hfails
      cases hfails
  counts := by
    rintro front line back name next - hline harrives
    rw [Memory.size_blank]
    exact harrives.valueOf_allocation hline
  distinct := by
    rintro front line between later back name laterName next last - hline hlater hnext hlast hsame
    rw [(hnext.valueOf_allocation hline).1, (hlast.valueOf_allocation hlater).1] at hsame
    -- cells are numbered by the allocations in front of them, of which the later line has more
    have hnumber := cell_injective (Except.ok.inj hsame)
    exact absurd hnumber (allocations_lt hline).ne
  valid := fun hsize n hn => exists_read_cell (by rwa [Memory.size_blank] at hn) hsize

/-- Each line of the form that allocates does so. -/
theorem allocations_numberedFrom {first : Nat} {file : String} {names : List Token}
    (hnames : ∀ name ∈ names, ∀ c ∈ name, Text.isBlank c = false) :
    allocations (Line.numberedFrom first file (names.map allocationText)) = names.length := by
  induction names generalizing first with
  | nil => rfl
  | cons name names ih =>
      obtain ⟨hname, hnames⟩ := List.forall_mem_cons.mp hnames
      have hline : isAllocation (.typed first file (allocationText name)) = true :=
        isAllocation_iff.mpr ⟨name, tokens_typed_allocationText hname first file⟩
      have hcons : allocations (Line.numberedFrom first file ((name :: names).map allocationText))
          = allocations (Line.numberedFrom (first + 1) file (names.map allocationText)) + 1 :=
        List.countP_cons_of_pos hline
      rw [hcons, ih hnames, List.length_cons]

end Constant

/-! ## The cells of the preamble -/

namespace Subroutine

open Constant (Arrives Defines)

variable {cells arity : Nat} {front : List Line} {table : Constant.Table}

theorem allocations_preamble (arity : Nat) : Constant.allocations (preamble arity) = arity + 2 := by
  rw [preamble_eq, Constant.allocations_numberedFrom isBlank_of_mem_sharedNames]
  simp [sharedNames]

/-- The shared cells are the same in all lines behind the preamble. -/
theorem Shares.of_arrives (h : Arrives .strict cells (preamble arity ++ front) table) :
    Shares table arity cells := by
  obtain ⟨kept, hkept⟩ := h
  obtain ⟨first, keptPreamble, keptFront, hpreamble, hfront, -⟩ := hkept.append_inv
  obtain ⟨-, hshares⟩ := shares_of_substitutes hpreamble
  exact ⟨hfront.valueOf_eq hshares.result, hfront.valueOf_eq hshares.jumpBack,
    fun i hi => hfront.valueOf_eq (hshares.argument i hi), hshares.fits⟩

/-- Behind the preamble the names of the shared cells keep their cells, and no other constant gets
one of them. -/
structure KeepsApart (cells arity : Nat) (body : List Line) : Prop where
  shares : ∀ front back table, body = front ++ back →
    Arrives .strict cells (preamble arity ++ front) table → Shares table arity cells
  apart : ∀ front line back name next, body = front ++ line :: back →
    Defines line name Constant.allocation →
    Arrives .strict cells (preamble arity ++ front ++ [line]) next →
    ∀ n < arity + 2, next.valueOf name ≠ .ok (Constant.cell n)

theorem keepsApart (cells arity : Nat) (body : List Line) : KeepsApart cells arity body where
  shares _ _ _ _ harrives := .of_arrives harrives
  apart := by
    rintro front line back name next - hline harrives n hn hvalue
    rw [(harrives.valueOf_allocation hline).1, Constant.allocations_append,
      allocations_preamble] at hvalue
    have hnumber := Constant.cell_injective (Except.ok.inj hvalue)
    omega

end Subroutine

/-- **Every definition that allocates gets a cell of its own.** The cells are handed out in order
until there are none, and all of them can be addressed. If there are subroutines, the first cells
are theirs: under the strict policy the shared names stand for them in all lines behind the
preamble, and no definition there gets one of them. -/
theorem allocates_in_order {assembler : Assembler} {file text : String} {lines : List Line}
    (h : (assembler.expanded file text).result = .ok lines) :
    Constant.AllocatesInOrder assembler file text lines ∧
      (assembler.policy = .strict → ∀ imported declared arity,
        Import.expand assembler.files (Line.ofText file text) = .ok imported →
        Subroutine.declare [] (Comment.remove imported) = .ok declared →
        IsGreatest {n | ∃ d ∈ declared, d.arity = n} arity →
        ∃ body, lines = Subroutine.preamble arity ++ body ∧
          Subroutine.KeepsApart assembler.config.memorySize arity body) := by
  refine ⟨.of_expanded h, fun _ imported declared arity himported hdeclared hgreatest => ?_⟩
  obtain ⟨_, himported', hexpand⟩ := Assembler.expanded_eq_ok_iff.mp h
  obtain rfl := Except.ok.inj (himported'.symm.trans himported)
  obtain ⟨table, htable, hlines⟩ := Subroutine.expand_eq_ok hexpand
  obtain rfl := Except.ok.inj (htable.symm.trans hdeclared)
  obtain ⟨d, hmem, -⟩ := hgreatest.1
  rcases hlines with ⟨rfl, -⟩ | ⟨hne, calls, body, -, rfl⟩
  · cases hmem
  · rw [(Subroutine.Table.isGreatest_maxArity hne).unique hgreatest]
    exact ⟨body, rfl, Subroutine.keepsApart ..⟩

/-! ### More constants than cells -/

namespace Allocation.Sample

def text : String := "@start(f, 1)\n@end()\n$x = [_]\n$y = [_]"

def assembler : Assembler := { config := Config.default.withMemorySize 4 }

def line (number : Nat) (source contents : String) : Line := ⟨number, "sample", source, contents⟩

def first : Line := line 3 "$x = [_]" "$x = [_]"

def second : Line := line 4 "$y = [_]" "$y = [_]"

def routine : List Line :=
  [line 1 "@start(f, 1)" "f:", line 1 "@start(f, 1)" "MOV $return 0",
    line 2 "@end()" "JMP $jump_back"]

def front : List Line := Subroutine.preamble 1 ++ routine ++ [first]

theorem expanded_text : (assembler.expanded "sample" text).result = .ok (front ++ [second]) := by
  refine Assembler.expanded_eq_ok_iff.mpr ⟨Line.ofText "sample" text, ?_, by decide +kernel⟩
  exact Import.expand_of_no_directive _ (by decide +kernel)

end Allocation.Sample

open Allocation.Sample in
theorem allocates_in_order_sample :
    (assembler.expanded "sample" text).result = .ok (front ++ [second]) ∧
      Constant.AllocatesInOrder assembler "sample" text (front ++ [second]) ∧
      (assembler.preprocess "sample" text).result = .error (.inLine second .outOfMemory) ∧
      ∃ table, Constant.Arrives .strict 4 front table ∧ Subroutine.Shares table 1 4 ∧
        table.valueOf ['x'] = .ok (Constant.cell 3) := by
  obtain ⟨horder, hapart⟩ := allocates_in_order expanded_text
  have hdeclared : Subroutine.declare [] (Comment.remove (Line.ofText "sample" text))
      = .ok [⟨['f'], 1⟩] := by decide +kernel
  have himported : Import.expand assembler.files (Line.ofText "sample" text)
      = .ok (Line.ofText "sample" text) := Import.expand_of_no_directive _ (by decide +kernel)
  obtain ⟨body, hbody, hkeeps⟩ := hapart rfl _ _ 1 himported hdeclared (by
    simp [IsGreatest, upperBounds])
  obtain rfl : body = routine ++ [first] ++ [second] := by
    refine List.append_cancel_left (hbody.symm.trans ?_)
    simp [front]
  have hreplace : (Constant.replace .strict 4 front).result
      = .ok [line 1 "@start(f, 1)" "f:", line 1 "@start(f, 1)" "MOV [0] 0",
        line 2 "@end()" "JMP [1]"] := by
    decide +kernel
  obtain ⟨table, hfront⟩ := Constant.substitutes_of_replaceFrom hreplace
  have harrives : Constant.Arrives .strict 4 front table := ⟨_, hfront⟩
  have hfirst : first.tokens = [['$', 'x'], ['='], Constant.allocation] := by decide +kernel
  have hsecond : second.tokens = [['$', 'y'], ['='], Constant.allocation] := by decide +kernel
  have hfresh : ∀ earlier ∈ front, earlier.tokens.head? ≠ some ['$', 'y'] := by decide +kernel
  obtain ⟨-, hfull⟩ := horder.exhausts front second [] ['y'] table rfl harrives
    hsecond (by simp) (.inr fun earlier hmem value hdefines => by
      have hhead := hfresh earlier hmem
      rw [hdefines] at hhead
      exact hhead rfl)
  rw [if_pos (by decide +kernel)] at hfull
  refine ⟨expanded_text, horder, hfull, table, harrives, ?_, ?_⟩
  · exact hkeeps.shares (routine ++ [first]) [second] table rfl harrives
  · have hnumber : Constant.allocations (Subroutine.preamble 1 ++ routine) = 3 := by decide +kernel
    rw [← hnumber]
    exact (horder.counts _ first [second] ['x'] table (by simp [front]) hfirst harrives).1

end CellAsm
