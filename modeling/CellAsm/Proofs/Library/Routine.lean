import CellAsm.Proofs.Machine.SharedCells

set_option autoImplicit false

/-! # The routines of the library

The code of each routine at any address, and what it computes. Division and the shift to the right
count how often a number can be taken away (`leads_countingLoop`), multiplication adds up
(`leads_addingLoop`); both loops are followed by induction on the number that gets smaller. The
result is the same for every word size (`Routine.exists_leads`).
-/

namespace CellAsm

namespace Library

/-- A routine of the library. -/
inductive Routine where
  | divide
  | multiply
  | shiftLeft
  | shiftRight
deriving DecidableEq

namespace Routine

/-- The name by which programs call the routine. -/
def name : Routine → String
  | divide => "math_divide"
  | multiply => "math_multiply"
  | shiftLeft => "binary_shift_left"
  | shiftRight => "binary_shift_right"

/-- **What the routine promises**: the result for two arguments in cells of `bits` bits. Division
by 0 gives 0, as it does for natural numbers here. -/
def result (bits a b : Nat) : Routine → Nat
  | divide => a / b
  | multiply => a * b % 2 ^ bits
  | shiftLeft => 2 * a % 2 ^ bits
  | shiftRight => a / 2

end Routine

/-! ## Code -/

/-- The operation that begins every routine. -/
def clearResult : Op := .calculate .move .result (.number 0)

/-- The operation that ends every routine. -/
def goBack : Op := .jump (.shared .jumpBack)

/-- A loop at `start` that counts how often `step` can be taken away from the first argument. -/
def countingLoop (start : Nat) (step : Source) : List Op :=
  [.jumpIfLess (UInt64.ofNat (start + 12)) .first step,
    .calculate .add .result (.number 1),
    .calculate .sub .first step,
    .jump (.number (UInt64.ofNat start))]

/-- A loop at `start` that adds the first argument as often as the second one says. -/
def addingLoop (start : Nat) : List Op :=
  [.jumpIfZero (UInt64.ofNat (start + 11)) (.shared .second),
    .calculate .add .result (.shared .first),
    .calculate .sub .second (.number 1),
    .jump (.number (UInt64.ofNat start))]

/-- What a routine does between clearing the result and going back, at the address `start`. -/
def Routine.body (start : Nat) : Routine → List Op
  | divide =>
      .jumpIfZero (UInt64.ofNat (start + 15)) (.shared .second)
        :: countingLoop (start + 3) (.shared .second)
  | multiply => addingLoop start
  | shiftLeft =>
      [.calculate .move .result (.shared .first), .calculate .add .result (.shared .first)]
  | shiftRight => countingLoop start (.number 2)

/-- The number of words of the body. -/
def Routine.bodySize : Routine → Nat
  | divide => 15
  | multiply => 11
  | shiftLeft => 6
  | shiftRight => 12

/-- The operations of a routine that begins at `start`. -/
def Routine.ops (start : Nat) (routine : Routine) : List Op :=
  [clearResult] ++ routine.body (start + 3) ++ [goBack]

/-- The address of the operation that ends a routine. -/
def Routine.finish (start : Nat) (routine : Routine) : Nat := start + 3 + routine.bodySize

/-- The words of operations. -/
def wordsOf (ops : List Op) : List UInt64 := ops.flatMap fun op => op.instruction.words

theorem hasAt_wordsOf_cons {program : Program} {start : Nat} {op : Op} {ops : List Op} :
    program.HasAt start (wordsOf (op :: ops)) ↔
      program.HasAt start op.instruction.words ∧
        program.HasAt (start + op.instruction.words.length) (wordsOf ops) := by
  rw [wordsOf, List.flatMap_cons]
  exact Program.hasAt_append

theorem hasAt_wordsOf_append {program : Program} {start : Nat} {front back : List Op} :
    program.HasAt start (wordsOf (front ++ back)) ↔
      program.HasAt start (wordsOf front) ∧
        program.HasAt (start + (wordsOf front).length) (wordsOf back) := by
  rw [wordsOf, List.flatMap_append]
  exact Program.hasAt_append

/-! ## Loops -/

section

variable {config : Config} {program : Program} {start : Nat}

/-- A number in a cell, less one that is not greater, is what remains. -/
theorem sub_mod_wordSize {a n : Nat} (ha : a < 2 ^ config.wordSize) (hn : n ≤ a) :
    (2 ^ 64 - n + a) % 2 ^ config.wordSize = a - n := by
  obtain ⟨k, hk⟩ := pow_dvd_pow 2 config.wordSize_le
  have hle : n ≤ 2 ^ 64 := by
    have hword := Nat.pow_le_pow_right (show 0 < 2 by decide) config.wordSize_le
    omega
  rw [show 2 ^ 64 - n + a = a - n + 2 ^ 64 by omega, hk, Nat.add_mul_mod_self_left,
    Nat.mod_eq_of_lt (by omega)]

/-- **The counting loop divides**: it leaves the quotient more in the result, and the remainder in
the first argument. -/
theorem leads_countingLoop {step : Source} {q r a b n : Nat}
    (hcode : program.HasAt start (wordsOf (countingLoop start step)))
    (hstart : start + 12 < 2 ^ 64) (hstep : ∀ q a, step.eval ⟨q, r, a, b⟩ = n) (hn : n ≠ 0)
    (ha : a < 2 ^ config.wordSize) (hq : q + a / n < 2 ^ config.wordSize) :
    Leads config program start ⟨q, r, a, b⟩ (start + 12) ⟨q + a / n, r, a % n, b⟩ := by
  obtain ⟨hless, hrest⟩ := hasAt_wordsOf_cons.mp hcode
  obtain ⟨hadd, hrest⟩ := hasAt_wordsOf_cons.mp hrest
  obtain ⟨hsub, hrest⟩ := hasAt_wordsOf_cons.mp hrest
  obtain ⟨hjump, -⟩ := hasAt_wordsOf_cons.mp hrest
  induction a using Nat.strongRecOn generalizing q with
  | _ a ih =>
    by_cases hdone : a < n
    · rw [Nat.div_eq_of_lt hdone, Nat.mod_eq_of_lt hdone, Nat.add_zero q]
      refine .op hless (by simp [Op.stored]) ?_ (by omega)
      show (if a < step.eval ⟨q, r, a, b⟩ then _ else _, _) = _
      rw [hstep, if_pos hdone, UInt64.toNat_ofNat_of_lt' hstart]
    · -- one round counts 1 and takes away `n`; the induction does the rounds that follow
      have hpos := Nat.pos_of_ne_zero hn
      have hquotient : a / n = (a - n) / n + 1 := Nat.div_eq_sub_div hpos (Nat.not_lt.mp hdone)
      have hremainder : a % n = (a - n) % n := Nat.mod_eq_sub_mod (Nat.not_lt.mp hdone)
      rw [hquotient] at hq
      have hone : q + 1 < 2 ^ config.wordSize :=
        Nat.lt_of_le_of_lt (Nat.add_le_add_left (Nat.le_add_left 1 _) q) hq
      have hless : Leads config program start ⟨q, r, a, b⟩ (start + 4) ⟨q, r, a, b⟩ := by
        refine .op hless (by simp [Op.stored]) ?_ (by omega)
        show (if a < step.eval ⟨q, r, a, b⟩ then _ else _, _) = _
        rw [hstep, if_neg hdone]
      have hadd : Leads config program (start + 4) ⟨q, r, a, b⟩ (start + 7) ⟨q + 1, r, a, b⟩ := by
        refine .op hadd (by simp [Op.stored]) ?_ (by omega)
        show (_, (⟨(q + 1) % 2 ^ config.wordSize, r, a, b⟩ : Values)) = _
        rw [Nat.mod_eq_of_lt hone]
      have hsub : Leads config program (start + 7) ⟨q + 1, r, a, b⟩ (start + 10)
          ⟨q + 1, r, a - n, b⟩ := by
        refine .op hsub (by simp [Op.stored]) ?_ (by omega)
        show (_, (⟨q + 1, r, (2 ^ 64 - step.eval ⟨q + 1, r, a, b⟩ + a) % _, b⟩ : Values)) = _
        rw [hstep, sub_mod_wordSize ha (Nat.not_lt.mp hdone)]
      have hjump : Leads config program (start + 10) ⟨q + 1, r, a - n, b⟩ start
          ⟨q + 1, r, a - n, b⟩ := by
        refine .op hjump (by simp [Op.stored]) ?_ (by omega)
        show ((UInt64.ofNat start).toNat, _) = _
        rw [UInt64.toNat_ofNat_of_lt' (show start < 2 ^ 64 by omega)]
      have hrounds := ih (a - n) (by omega) (q := q + 1) (by omega) (by omega)
      rw [hquotient, hremainder, Nat.add_comm ((a - n) / n), ← Nat.add_assoc q]
      exact hless.trans (hadd.trans (hsub.trans (hjump.trans hrounds)))

/-- **The adding loop multiplies**: it leaves the product more in the result, up to the word
size. -/
theorem leads_addingLoop {q r a b : Nat}
    (hcode : program.HasAt start (wordsOf (addingLoop start))) (hstart : start + 11 < 2 ^ 64)
    (hb : b < 2 ^ config.wordSize) (hq : q < 2 ^ config.wordSize) :
    Leads config program start ⟨q, r, a, b⟩ (start + 11)
      ⟨(q + a * b) % 2 ^ config.wordSize, r, a, 0⟩ := by
  obtain ⟨hzero, hrest⟩ := hasAt_wordsOf_cons.mp hcode
  obtain ⟨hadd, hrest⟩ := hasAt_wordsOf_cons.mp hrest
  obtain ⟨hsub, hrest⟩ := hasAt_wordsOf_cons.mp hrest
  obtain ⟨hjump, -⟩ := hasAt_wordsOf_cons.mp hrest
  induction b generalizing q with
  | zero =>
      rw [Nat.mul_zero, Nat.add_zero q, Nat.mod_eq_of_lt hq]
      refine .op hzero (by simp [Op.stored]) ?_ (by omega)
      show ((UInt64.ofNat (start + 11)).toNat, _) = _
      rw [UInt64.toNat_ofNat_of_lt' hstart]
  | succ b ih =>
      have hpos := Nat.two_pow_pos config.wordSize
      -- one round adds `a` and counts `b` down; the induction does the rounds that follow
      have hzero : Leads config program start ⟨q, r, a, b + 1⟩ (start + 3) ⟨q, r, a, b + 1⟩ :=
        .op hzero (by simp [Op.stored]) rfl (by omega)
      have hadd : Leads config program (start + 3) ⟨q, r, a, b + 1⟩ (start + 6)
          ⟨(q + a) % 2 ^ config.wordSize, r, a, b + 1⟩ :=
        .op hadd (by simp [Op.stored]) rfl (by omega)
      have hsub : Leads config program (start + 6)
          ⟨(q + a) % 2 ^ config.wordSize, r, a, b + 1⟩ (start + 9)
          ⟨(q + a) % 2 ^ config.wordSize, r, a, b⟩ := by
        refine .op hsub (by simp [Op.stored]) ?_ (by omega)
        show (_, (⟨_, r, a, (2 ^ 64 - 1 + (b + 1)) % 2 ^ config.wordSize⟩ : Values)) = _
        rw [sub_mod_wordSize hb (Nat.le_add_left 1 b), Nat.add_sub_cancel]
      have hjump : Leads config program (start + 9) ⟨(q + a) % 2 ^ config.wordSize, r, a, b⟩ start
          ⟨(q + a) % 2 ^ config.wordSize, r, a, b⟩ := by
        refine .op hjump (by simp [Op.stored]) ?_ (by omega)
        show ((UInt64.ofNat start).toNat, _) = _
        rw [UInt64.toNat_ofNat_of_lt' (show start < 2 ^ 64 by omega)]
      have hrounds := ih (by omega) (Nat.mod_lt (q + a) hpos)
      rw [Nat.mod_add_mod, Nat.add_assoc q a, Nat.add_comm a, ← Nat.mul_succ] at hrounds
      exact hzero.trans (hadd.trans (hsub.trans (hjump.trans hrounds)))

/-! ## Routines -/

theorem leads_clearResult {q r a b : Nat}
    (hcode : program.HasAt start clearResult.instruction.words) :
    Leads config program start ⟨q, r, a, b⟩ (start + 3) ⟨0, r, a, b⟩ := by
  refine .op hcode (by simp [clearResult, Op.stored]) ?_ (by omega)
  show (_, (⟨0 % 2 ^ config.wordSize, r, a, b⟩ : Values)) = _
  rw [Nat.zero_mod]

theorem leads_goBack {values : Values} (hcode : program.HasAt start goBack.instruction.words)
    (hback : values.jumpBack ≠ start) :
    Leads config program start values values.jumpBack values :=
  .op hcode (by simp [goBack, Op.stored]) rfl hback

/-- The body of a division: nothing to count if the divisor is 0. -/
theorem exists_leads_divide {r a b : Nat}
    (hcode : program.HasAt start (wordsOf (Routine.divide.body start)))
    (hstart : start + 15 < 2 ^ 64) (ha : a < 2 ^ config.wordSize) :
    ∃ a', Leads config program start ⟨0, r, a, b⟩ (start + 15) ⟨a / b, r, a', b⟩ := by
  obtain ⟨hzero, hloop⟩ := hasAt_wordsOf_cons.mp hcode
  by_cases hb : b = 0
  · refine ⟨a, .op hzero (by simp [Op.stored]) ?_ (by omega)⟩
    show (if b = 0 then _ else _, _) = _
    rw [if_pos hb, hb, Nat.div_zero, UInt64.toNat_ofNat_of_lt' hstart]
  · have hskip : Leads config program start ⟨0, r, a, b⟩ (start + 3) ⟨0, r, a, b⟩ := by
      refine .op hzero (by simp [Op.stored]) ?_ (by omega)
      show (if b = 0 then _ else _, _) = _
      rw [if_neg hb]
    have hquotient : 0 + a / b < 2 ^ config.wordSize := by
      rw [Nat.zero_add]
      exact Nat.lt_of_le_of_lt (Nat.div_le_self a b) ha
    have hcount := leads_countingLoop hloop hstart (fun _ _ => rfl) hb ha hquotient (r := r)
    rw [Nat.zero_add] at hcount
    exact ⟨a % b, hskip.trans hcount⟩

/-- **The body of a routine computes what the routine promises.** -/
theorem Routine.exists_leads_body (routine : Routine) {r a b : Nat}
    (hcode : program.HasAt start (wordsOf (routine.body start))) (hstart : start + 15 < 2 ^ 64)
    (ha : a < 2 ^ config.wordSize) (hb : b < 2 ^ config.wordSize) :
    ∃ a' b', Leads config program start ⟨0, r, a, b⟩ (start + routine.bodySize)
      ⟨routine.result config.wordSize a b, r, a', b'⟩ := by
  cases routine with
  | divide =>
      obtain ⟨a', h⟩ := exists_leads_divide hcode hstart ha
      exact ⟨a', b, h⟩
  | multiply =>
      have h := leads_addingLoop hcode (by omega) hb (Nat.two_pow_pos config.wordSize) (a := a)
        (r := r)
      rw [Nat.zero_add] at h
      exact ⟨a, 0, h⟩
  | shiftLeft =>
      obtain ⟨hmove, hrest⟩ := hasAt_wordsOf_cons.mp hcode
      obtain ⟨hadd, -⟩ := hasAt_wordsOf_cons.mp hrest
      -- shifting to the left doubles: the number is moved and added once more
      have hmove : Leads config program start ⟨0, r, a, b⟩ (start + 3) ⟨a, r, a, b⟩ := by
        refine .op hmove (by simp [Op.stored]) ?_ (by omega)
        show (_, (⟨a % 2 ^ config.wordSize, r, a, b⟩ : Values)) = _
        rw [Nat.mod_eq_of_lt ha]
      have hadd : Leads config program (start + 3) ⟨a, r, a, b⟩ (start + 6)
          ⟨2 * a % 2 ^ config.wordSize, r, a, b⟩ := by
        refine .op hadd (by simp [Op.stored]) ?_ (by omega)
        rw [Nat.two_mul]
        rfl
      exact ⟨a, b, hmove.trans hadd⟩
  | shiftRight =>
      have hquotient : 0 + a / 2 < 2 ^ config.wordSize := by omega
      have h := leads_countingLoop hcode (by omega) (fun _ _ => rfl) (by decide) ha hquotient
        (r := r) (b := b)
      rw [Nat.zero_add] at h
      exact ⟨a % 2, b, h⟩

/-- **A routine computes what it promises and goes back**, from wherever it stands in a program. -/
theorem Routine.exists_leads (routine : Routine) {q r a b : Nat}
    (hcode : program.HasAt start (wordsOf (routine.ops start))) (hstart : start + 18 < 2 ^ 64)
    (ha : a < 2 ^ config.wordSize) (hb : b < 2 ^ config.wordSize)
    (hr : r ≠ routine.finish start) :
    ∃ a' b', Leads config program start ⟨q, r, a, b⟩ r
      ⟨routine.result config.wordSize a b, r, a', b'⟩ := by
  obtain ⟨hfront, hback⟩ := hasAt_wordsOf_append.mp hcode
  obtain ⟨hclear, hbody⟩ := hasAt_wordsOf_cons.mp hfront
  have hbody : program.HasAt (start + 3) (wordsOf (routine.body (start + 3))) := hbody
  have hsize : (wordsOf ([clearResult] ++ routine.body (start + 3))).length
      = 3 + routine.bodySize := by
    cases routine <;> rfl
  rw [hsize, ← Nat.add_assoc] at hback
  obtain ⟨a', b', hcomputed⟩ := routine.exists_leads_body hbody (by omega) ha hb (r := r)
  refine ⟨a', b', (leads_clearResult hclear).trans (hcomputed.trans ?_)⟩
  exact leads_goBack (hasAt_wordsOf_cons.mp hback).1 hr

end

end Library

end CellAsm
