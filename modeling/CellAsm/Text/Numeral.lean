set_option autoImplicit false

/-! # Numerals

Numbers are written in decimal or hexadecimal notation. A numeral that is read may begin
with a plus sign and with zeros, needs at least one digit, and has to fit a 64-bit word; a
numeral that is written has no sign and, in hexadecimal notation, capital letters and at
least two digits.
-/

namespace CellAsm.Text

/-- The value of a digit of either case, if it is one in the given base (at most 16). -/
def digit? (base : Nat) (c : Char) : Option Nat :=
  let value? :=
    if '0' ≤ c ∧ c ≤ '9' then some (c.toNat - '0'.toNat)
    else if 'a' ≤ c ∧ c ≤ 'f' then some (c.toNat - 'a'.toNat + 10)
    else if 'A' ≤ c ∧ c ≤ 'F' then some (c.toNat - 'A'.toNat + 10)
    else none
  value?.filter (· < base)

/-- The number whose digits are `ds`, the most significant digit first. -/
def ofDigits (base : Nat) (ds : List Nat) : Nat := ds.foldl (fun n d => base * n + d) 0

/-- `s` without one leading plus sign. -/
def dropPlus : List Char → List Char
  | '+' :: s => s
  | s => s

/-- Reads an unsigned 64-bit word. -/
def numeral? (base : Nat) (s : List Char) : Option UInt64 := do
  let ds ← (dropPlus s).mapM (digit? base)
  let n := ofDigits base ds
  if ds ≠ [] ∧ n < UInt64.size then some (UInt64.ofNat n) else none

/-- Reads an unsigned 64-bit word in decimal notation. -/
def decimal? (s : List Char) : Option UInt64 := numeral? 10 s

/-- Reads an unsigned 64-bit word in hexadecimal notation. -/
def hexadecimal? (s : List Char) : Option UInt64 := numeral? 16 s

/-- The decimal notation of `n`. -/
def decimal (n : Nat) : List Char := Nat.toDigits 10 n

/-- The hexadecimal notation of `n`, with capital letters and at least two digits. -/
def hexadecimal (n : Nat) : List Char :=
  let digits := (Nat.toDigits 16 n).map Char.toUpper
  List.replicate (2 - digits.length) '0' ++ digits

end CellAsm.Text
