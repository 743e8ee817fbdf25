import CellAsm.Text.Extending
import CellAsm.Text.Invisible
import CellAsm.Text.Numeral

set_option autoImplicit false

/-! # Bytes as text

Files and settings are bytes that should be UTF-8. `unitsOf` cuts any bytes into characters
and stray bytes that belong to no character; `decode?` accepts the bytes without stray ones,
and `quoted` shows bytes that could not be decoded.
-/

namespace CellAsm.Text

/-- The payload of a continuation byte. -/
def continuation? (b : UInt8) : Option Nat :=
  if 0x80 ≤ b ∧ b ≤ 0xBF then some (b.toNat - 0x80) else none

/-- The character with the code point `n`, unless a shorter form would have done (`n` is below
`least`) or `n` is no character. -/
def scalar? (least n : Nat) : Option Char :=
  if least ≤ n ∧ n.isValidChar then some (Char.ofNat n) else none

/-- The character that begins with the byte `b`, and the number of bytes of `rest` it takes. -/
def leading? (b : UInt8) (rest : List UInt8) : Option (Char × Nat) :=
  if b < 0x80 then
    some (Char.ofNat b.toNat, 0)
  else if b < 0xC0 then
    none
  else if b < 0xE0 then do
    let [x] ← (rest.take 1).mapM continuation? | none
    let c ← scalar? 0x80 ((b.toNat - 0xC0) * 64 + x)
    some (c, 1)
  else if b < 0xF0 then do
    let [x, y] ← (rest.take 2).mapM continuation? | none
    let c ← scalar? 0x800 (((b.toNat - 0xE0) * 64 + x) * 64 + y)
    some (c, 2)
  else if b < 0xF8 then do
    let [x, y, z] ← (rest.take 3).mapM continuation? | none
    let c ← scalar? 0x10000 ((((b.toNat - 0xF0) * 64 + x) * 64 + y) * 64 + z)
    some (c, 3)
  else
    none

/-- One piece of a byte sequence: a character, or a byte that is part of none. -/
inductive CodeUnit where
  | char (c : Char)
  | stray (b : UInt8)
deriving DecidableEq

/-- The bytes cut from the left into characters and stray bytes. -/
def unitsOf : List UInt8 → List CodeUnit
  | [] => []
  | b :: rest =>
    match leading? b rest with
    | some (c, n) => .char c :: unitsOf (rest.drop n)
    | none => .stray b :: unitsOf rest
termination_by bytes => bytes.length
decreasing_by
  · simp only [List.length_drop, List.length_cons]
    omega
  · exact Nat.lt_succ_self _

/-- The text that the bytes encode, if they are UTF-8 throughout. -/
def decode? (bytes : List UInt8) : Option (List Char) :=
  (unitsOf bytes).mapM fun
    | .char c => some c
    | .stray _ => none

/-- A character inside quotes. Quotes and the backslash are marked by a backslash, a few controls
have letters, and what could not be read off a screen is given by its code point. -/
def escaped (c : Char) : List Char :=
  if c = '\x00' then ['\\', '0']
  else if c = '\t' then ['\\', 't']
  else if c = '\n' then ['\\', 'n']
  else if c = '\r' then ['\\', 'r']
  else if c = '"' ∨ c = '\'' ∨ c = '\\' then ['\\', c]
  else if isExtending c || isInvisible c then
    ['\\', 'u', '\x7b'] ++ Nat.toDigits 16 c.toNat ++ ['\x7d']
  else [c]

/-- The bytes in double quotes, stray bytes in hexadecimal notation. -/
def quoted (bytes : List UInt8) : List Char :=
  let shown := (unitsOf bytes).flatMap fun
    | .char c => escaped c
    | .stray b => ['\\', 'x'] ++ hexadecimal b.toNat
  ['"'] ++ shown ++ ['"']

end CellAsm.Text
