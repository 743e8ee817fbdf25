import CellAsm.Proofs.Machine.Frame
import CellAsm.Proofs.Machine.Truncation

set_option autoImplicit false

/-! # Stored arithmetic

The machine computes with words of 64 bits, and a cell keeps of a result the bits that fit it. What
a cell holds afterwards is said here in integers: the sum, the difference, the complement or the
bitwise combination of the two numbers, modulo the power of two of the word size
(`Mnemonic.exact?`). Since that power divides `2 ^ 64`, it does not matter that the words wrapped
before, nor that an operand was wider than a cell (`Machine.step_computes_exactly`). This is said of
cells that hold numbers of the word size, as they all do in a memory that a machine has filled
(`Memory.Within`, `Machine.within_step`).
-/

namespace CellAsm

/-- **What an operation computes**, from the number `x` in its destination and the number `y` of its
second operand, for cells of `bits` bits. -/
def Mnemonic.exact? (bits x y : Nat) : Mnemonic → Option Int
  | .mov => some (y % 2 ^ bits)
  | .add => some ((x + y) % 2 ^ bits)
  | .sub => some ((x - y) % 2 ^ bits)
  | .not => some (2 ^ bits - 1 - x)
  | .and => some ((x &&& y : Nat) % 2 ^ bits)
  | .or => some ((x ||| y : Nat) % 2 ^ bits)
  | .xor => some ((x ^^^ y : Nat) % 2 ^ bits)
  | _ => none

/-! ## Words and integers -/

section

variable {bits : Nat}

theorem toNat_add_mod (hbits : bits ≤ 64) (a b : UInt64) :
    ((a + b).toNat % 2 ^ bits : Nat) = ((a.toNat : Int) + b.toNat) % 2 ^ bits := by
  have h : (a + b).toNat % 2 ^ bits = (a.toNat + b.toNat) % 2 ^ bits :=
    Congruent.toNat_add hbits a b
  exact_mod_cast h

/-- A difference of words is the difference of their numbers, also where that is negative. -/
theorem toNat_sub_mod (hbits : bits ≤ 64) (a b : UInt64) :
    ((a - b).toNat % 2 ^ bits : Nat) = ((a.toNat : Int) - b.toNat) % 2 ^ bits := by
  have hsum : (a.toNat : Int) ≡ (a - b).toNat + b.toNat [ZMOD 2 ^ bits] := by
    exact_mod_cast Int.natCast_modEq_iff.mpr (Congruent.toNat_sub_add hbits a b)
  -- the congruence of sums can be solved for the difference in the integers only
  have hdifference := hsum.sub_right b.toNat
  rw [add_sub_cancel_right] at hdifference
  rw [Int.natCast_mod, Nat.cast_pow]
  exact hdifference.symm

/-- The complement within a cell is what is missing from the largest number. -/
theorem toNat_not_mod (hbits : bits ≤ 64) {a : UInt64} (ha : a.toNat < 2 ^ bits) :
    ((~~~a).toNat % 2 ^ bits : Nat) = (2 ^ bits - 1 - a.toNat : Int) := by
  have hsum := Congruent.toNat_add_toNat_not a
  have hdvd : 2 ^ bits ∣ 2 ^ 64 := pow_dvd_pow 2 hbits
  have hcongruent : (~~~a).toNat ≡ 2 ^ bits - 1 - a.toNat [MOD 2 ^ bits] := by
    refine Nat.ModEq.add_right_cancel' (a.toNat + 1) ?_
    calc (~~~a).toNat + (a.toNat + 1)
        = 2 ^ 64 := by omega
      _ ≡ 0 [MOD 2 ^ bits] := hdvd.modEq_zero_nat
      _ ≡ 2 ^ bits [MOD 2 ^ bits] := (dvd_refl _).modEq_zero_nat.symm
      _ = 2 ^ bits - 1 - a.toNat + (a.toNat + 1) := by omega
  have hmod : (~~~a).toNat % 2 ^ bits = 2 ^ bits - 1 - a.toNat := by
    rw [hcongruent, Nat.mod_eq_of_lt]
    omega
  rw [hmod, Nat.cast_sub (by omega), Nat.cast_sub (by omega)]
  push_cast
  rfl

end

/-! ## Cells of the word size -/

namespace Memory

variable {config : Config} {memory : Memory}

/-- Every cell holds a number of `bits` bits. -/
def Within (bits : Nat) (memory : Memory) : Prop := ∀ word ∈ memory.cells, word.toNat < 2 ^ bits

theorem Within.of_read {bits : Nat} (h : memory.Within bits) {address word : UInt64}
    (hread : memory.read address = .ok word) : word.toNat < 2 ^ bits := by
  unfold read at hread
  split at hread
  · next value hvalue =>
    obtain rfl := Except.ok.inj hread
    exact h _ (Array.mem_of_getElem? hvalue)
  · cases hread

theorem within_replicate (bits n : Nat) (mask : UInt64) :
    Within bits ⟨Array.replicate n 0, mask⟩ := by
  intro word hword
  rw [Array.eq_of_mem_replicate hword]
  exact Nat.two_pow_pos bits

theorem Fits.within_set (h : memory.Fits config) (hwithin : memory.Within config.wordSize)
    (cell value : UInt64) (hcell : cell.toNat < memory.size) :
    (memory.set cell value hcell).Within config.wordSize := by
  intro word hword
  have hset : word ∈ memory.cells.set cell.toNat (value &&& memory.mask) hcell := hword
  rcases Array.mem_or_eq_of_mem_set hset with hold | rfl
  · exact hwithin word hold
  · rw [h.mask, UInt64.toNat_and, config.toNat_wordMask, Nat.and_two_pow_sub_one_eq_mod]
    exact Nat.mod_lt _ (Nat.two_pow_pos _)

end Memory

namespace Machine

section

variable {machine next : Machine} {memory : Memory} {mnemonic : Mnemonic} {op : Opcode}
  {act : Action} {values : List UInt64}

theorem within_load (machine : Machine) (program : Program) (bits : Nat) :
    (machine.load program).memory.Within bits := Memory.within_replicate bits _ _

/-- **No step stores a number that is wider than a cell.** -/
theorem within_step {config : Config} (hfits : machine.memory.Fits config)
    (h : machine.memory.Within config.wordSize) : machine.step.2.memory.Within config.wordSize := by
  rcases machine.step_changes.memory with hsame | ⟨cell, value, hcell, -, hset⟩
  · rwa [hsame]
  · rw [hset]
    exact hfits.within_set h cell value hcell

/-! ## The word that is stored -/

/-- What is computed from the contents of a cell is stored to this cell, with the lowest bits of the
exact result if the computation has them. -/
theorem exists_store_of_combine {address y : UInt64} {f : UInt64 → UInt64}
    (h : combine memory address f = .ok act)
    (hexact : ∀ bits ≤ 64, ∀ old : UInt64, old.toNat < 2 ^ bits →
      mnemonic.exact? bits old.toNat y.toNat = some (((f old).toNat % 2 ^ bits : Nat) : Int)) :
    ∃ value, act = .store address value ∧
      ∀ bits ≤ 64, ∀ old, memory.read address = .ok old → old.toNat < 2 ^ bits →
        mnemonic.exact? bits old.toNat y.toNat = some ((value.toNat % 2 ^ bits : Nat) : Int) := by
  obtain ⟨found, hfound, rfl⟩ := Success.map_iff.mp h
  refine ⟨f found, rfl, fun bits hbits old hread hold => ?_⟩
  obtain rfl := Except.ok.inj (hread.symm.trans hfound)
  exact hexact bits hbits old hold

/-- **The word that an operation stores** has the lowest bits of the exact result. -/
theorem exists_store_of_data (hdata : mnemonic.effect = .data)
    (h : action memory mnemonic values = .ok act) :
    ∃ value, act = .store (values.getD 0 0) value ∧
      ∀ bits ≤ 64, ∀ old, memory.read (values.getD 0 0) = .ok old → old.toNat < 2 ^ bits →
        mnemonic.exact? bits old.toNat (values.getD 1 0).toNat
          = some ((value.toNat % 2 ^ bits : Nat) : Int) := by
  cases mnemonic with
  | mov =>
      refine ⟨_, (Except.ok.inj h).symm, fun bits _ old _ _ => congrArg some ?_⟩
      exact_mod_cast rfl
  -- the operations on bits need no bound: they do the same in each bit
  | and =>
      refine exists_store_of_combine h fun bits _ old _ => congrArg some ?_
      rw [UInt64.toNat_and]
      exact_mod_cast rfl
  | or =>
      refine exists_store_of_combine h fun bits _ old _ => congrArg some ?_
      rw [UInt64.toNat_or]
      exact_mod_cast rfl
  | xor =>
      refine exists_store_of_combine h fun bits _ old _ => congrArg some ?_
      rw [UInt64.toNat_xor]
      exact_mod_cast rfl
  | add =>
      refine exists_store_of_combine h fun bits hbits old _ => congrArg some ?_
      rw [toNat_add_mod hbits]
  | sub =>
      refine exists_store_of_combine h fun bits hbits old _ => congrArg some ?_
      rw [toNat_sub_mod hbits]
  | not =>
      refine exists_store_of_combine h fun bits hbits old hold => congrArg some ?_
      rw [toNat_not_mod hbits hold]
  | random | jmp | jz | jeq | jls | jgt | halt | aprint | dprint | aread => cases hdata

/-! ## Operands -/

/-- The number that a value operand stands for: the word itself, or what the cell that it names
holds. -/
inductive Supplies (memory : Memory) : Kind → UInt64 → Nat → Prop
  | literal (word : UInt64) : Supplies memory .literal word word.toNat
  | address {word : UInt64} {n : Nat} (h : memory.Holds word n) : Supplies memory .address word n

theorem supplies_iff {kind : Kind} {word : UInt64} {n : Nat} :
    Supplies memory kind word n ↔
      ∃ value, operandValue memory ((kind, .value), word) = .ok value ∧ value.toNat = n := by
  constructor
  · rintro (_ | h)
    · exact ⟨word, rfl, rfl⟩
    · exact h
  · rintro ⟨value, hvalue, rfl⟩
    cases kind with
    | literal =>
        obtain rfl := Except.ok.inj hvalue
        exact .literal word
    | address => exact .address ⟨value, hvalue, rfl⟩

/-- The next instruction computes a number for the cell `destination`, from the number `x` that the
cell holds and the number `y` of the second operand. Where there is no second operand, any `y`
does. -/
structure Calculates (machine : Machine) (op : Opcode) (destination : UInt64) (x y : Nat) :
    Prop where
  opcode : machine.opcode = .ok op
  effect : op.mnemonic.effect = .data
  named : machine.program.word? (machine.ip + 1) = some destination
  old : machine.memory.Holds destination x
  source : ∀ kind ∈ op.kinds[1]?, ∃ word, machine.program.word? (machine.ip + 2) = some word ∧
    Supplies machine.memory kind word y

theorem mem_storing_of_data (h : mnemonic.effect = .data) : mnemonic ∈ Mnemonic.storing := by
  cases mnemonic <;> first | decide | cases h

/-- The second operand of an operation that computes is a value. -/
theorem param_of_data (h : op ∈ Opcode.table) (hdata : op.mnemonic.effect = .data) {kind : Kind}
    (hkind : kind ∈ op.kinds[1]?) :
    (op.kinds.zip op.mnemonic.params)[1]? = some (kind, .value) := by
  revert op kind
  decide

/-- Only the complement has no second operand. -/
theorem eq_not_of_data (h : op ∈ Opcode.table) (hdata : op.mnemonic.effect = .data)
    (hkind : op.kinds[1]? = none) : op.mnemonic = .not := by
  revert op
  decide

theorem calculates_of_operands (hop : machine.opcode = .ok op)
    (hdata : op.mnemonic.effect = .data) (hoperands : machine.operands op = .ok values)
    {old : UInt64} (hread : machine.memory.read (values.getD 0 0) = .ok old) :
    machine.Calculates op (values.getD 0 0) old.toNat (values.getD 1 0).toNat where
  opcode := hop
  effect := hdata
  named := word?_of_dest hoperands
    (param_of_storing (mem_table_of_opcode hop) (mem_storing_of_data hdata))
  old := ⟨old, hread, rfl⟩
  source kind hkind := by
    obtain ⟨word, value, hword, hvalue, hsame⟩ :=
      exists_of_operandsAt hoperands (param_of_data (mem_table_of_opcode hop) hdata hkind)
    refine ⟨word, hword, supplies_iff.mpr ⟨value, hsame, ?_⟩⟩
    rw [List.getD_eq_getElem?_getD, hvalue, Option.getD_some]

/-- What an instruction computes is determined by the machine. -/
theorem Calculates.unique {destination destination' : UInt64} {x x' y y' : Nat}
    (h : machine.Calculates op destination x y) (h' : machine.Calculates op destination' x' y') :
    destination = destination' ∧ x = x' ∧
      ∀ bits, op.mnemonic.exact? bits x y = op.mnemonic.exact? bits x y' := by
  obtain rfl := Option.some.inj (h.named.symm.trans h'.named)
  obtain ⟨old, hold, rfl⟩ := h.old
  obtain ⟨old', hold', rfl⟩ := h'.old
  obtain rfl := Except.ok.inj (hold.symm.trans hold')
  refine ⟨rfl, rfl, fun bits => ?_⟩
  cases hkind : op.kinds[1]? with
  | none =>
      rw [eq_not_of_data (mem_table_of_opcode h.opcode) h.effect hkind]
      rfl
  | some kind =>
      obtain ⟨word, hword, hsupplies⟩ := h.source kind hkind
      obtain ⟨word', hword', hsupplies'⟩ := h'.source kind hkind
      obtain rfl := Option.some.inj (hword.symm.trans hword')
      obtain ⟨value, hvalue, rfl⟩ := supplies_iff.mp hsupplies
      obtain ⟨value', hvalue', rfl⟩ := supplies_iff.mp hsupplies'
      obtain rfl := Except.ok.inj (hvalue.symm.trans hvalue')
      rfl

/-- **Stored arithmetic is exact modulo the word size.** The word size is between 1 and 64 for all
parameters, however large a number was asked for, and the mask has as many bits. In a memory whose
cells hold numbers of the word size, a successful step of an operation that computes finds its two
numbers, and leaves in the destination what the operation computes from them in integers. -/
theorem step_computes_exactly {machine next : Machine} {op : Opcode}
    (hfits : machine.memory.Fits machine.config)
    (hwithin : machine.memory.Within machine.config.wordSize)
    (hop : machine.opcode = .ok op) (hdata : op.mnemonic.effect = .data)
    (hstep : machine.step = (.ok (), next)) :
    1 ≤ machine.config.wordSize ∧ machine.config.wordSize ≤ 64 ∧
      machine.config.wordMask.toNat = 2 ^ machine.config.wordSize - 1 ∧
      (∃ destination x y, machine.Calculates op destination x y) ∧
      ∀ destination x y, machine.Calculates op destination x y →
        ∃ n : Nat, next.memory.Holds destination n ∧
          op.mnemonic.exact? machine.config.wordSize x y = some (n : Int) := by
  have hbits : machine.config.wordSize ≤ 64 := machine.config.wordSize_le
  obtain ⟨mnemonic, act, hinstruction, hperforms⟩ := exists_performs_of_step hstep
  obtain ⟨found, values, hfound, hoperands, haction, rfl⟩ := instruction_eq_ok_iff.mp hinstruction
  obtain rfl := Except.ok.inj (hop.symm.trans hfound)
  obtain ⟨value, rfl, hvalue⟩ := exists_store_of_data hdata haction
  cases hperforms with
  | store hcell =>
      -- a move does not read its destination, so that the cell exists is known from the store
      obtain ⟨old, hread⟩ := Memory.exists_read hcell
      have hcalculates := calculates_of_operands hop hdata hoperands hread
      refine ⟨machine.config.one_le_wordSize, hbits, machine.config.toNat_wordMask,
        ⟨_, _, _, hcalculates⟩, fun destination x y h => ?_⟩
      obtain ⟨rfl, rfl, hexact⟩ := h.unique hcalculates
      refine ⟨_, hfits.holds_set _ value hcell, ?_⟩
      rw [hexact, hvalue _ hbits old hread (hwithin.of_read hread)]

end

namespace Arithmetic.Sample

/-- `NOT [0]`, `ADD [0] [0]`, `HALT`. -/
def code : Program where
  words := #[6, 0, 10, 0, 0, 255]

def loaded : Machine := (create .default [] default).load code

/-- The machine that is about to double its largest number in place. -/
def machine : Machine := loaded.step.2

end Arithmetic.Sample

open Arithmetic.Sample in
theorem step_computes_exactly_sample :
    ∃ op next, machine.opcode = .ok op ∧ op.mnemonic = .add ∧ machine.step = (.ok (), next) ∧
      machine.memory.Holds 0 255 ∧ next.memory.Holds 0 ((255 + 255) % 256) := by
  have hop : machine.opcode = .ok ⟨0x0A, .add, [.address, .address]⟩ := by decide +kernel
  have hread : machine.memory.read 0 = .ok 255 := by decide +kernel
  have hok : machine.step.1 = .ok () := by decide +kernel
  have hnamed : machine.program.word? (machine.ip + 1) = some 0 := by decide +kernel
  have hsource : machine.program.word? (machine.ip + 2) = some 0 := by decide +kernel
  have hloaded : loaded.memory.Fits .default := fits_load (fits_create ..) code
  have hconfig : machine.config = .default := by decide +kernel
  have hfits : machine.memory.Fits machine.config := by
    rw [hconfig, machine]
    exact fits_step hloaded
  have hwithin : machine.memory.Within machine.config.wordSize := by
    rw [hconfig, machine]
    exact within_step hloaded (within_load _ code Config.default.wordSize)
  have hholds : machine.memory.Holds 0 255 := ⟨255, hread, rfl⟩
  rcases hstep : machine.step with ⟨outcome, next⟩
  rw [hstep] at hok
  obtain rfl : outcome = .ok () := hok
  obtain ⟨-, -, -, -, hexact⟩ := step_computes_exactly hfits hwithin hop rfl hstep
  have hcalculates : machine.Calculates ⟨0x0A, .add, [.address, .address]⟩ 0 255 255 := by
    refine ⟨hop, rfl, hnamed, hholds, fun kind hkind => ⟨0, hsource, ?_⟩⟩
    obtain rfl := Option.some.inj hkind
    exact .address hholds
  obtain ⟨n, hn, hsum⟩ := hexact _ _ _ hcalculates
  rw [hconfig] at hsum
  have hvalue : (255 + 255) % 256 = n := by exact_mod_cast Option.some.inj hsum
  exact ⟨_, next, hop, rfl, rfl, hholds, hvalue ▸ hn⟩

end Machine

end CellAsm
