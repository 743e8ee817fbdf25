import CellAsm.Config
import CellAsm.Fault
import CellAsm.Text.Blank
import CellAsm.Text.Encoding

set_option autoImplicit false

/-! # Configuration from the environment

Three environment variables override the default parameters. They are looked at in a fixed
order and the first one that is no number decides the fault. A value may have blanks around
it; a word size too large for a machine word counts as the largest one.
-/

namespace CellAsm

/-- A parameter that the environment can set. -/
inductive Setting where
  | wordSize
  | memorySize
  | maxRandom
deriving DecidableEq

namespace Setting

/-- The name of the variable. -/
def variableName : Setting → String
  | wordSize => "TINY_WORD_SIZE"
  | memorySize => "TINY_MEMORY_SIZE"
  | maxRandom => "TINY_RAND_MAX"

end Setting

/-- The bytes of each variable that is set. -/
abbrev Environment := Setting → Option (List UInt8)

namespace Environment

/-- The environment in which no variable is set. -/
def empty : Environment := fun _ => none

/-- The number that a variable holds, if it is set. -/
def number (env : Environment) (setting : Setting) : Except Fault (Option UInt64) :=
  match env setting with
  | none => .ok none
  | some bytes =>
    match Text.decode? bytes with
    | none =>
      .error ⟨.settingEncoding setting.variableName (String.ofList (Text.quoted bytes)), none⟩
    | some value =>
      match Text.decimal? (Text.trim value) with
      | none => .error ⟨.settingNumeral setting.variableName (String.ofList value), none⟩
      | some n => .ok (some n)

/-- The default parameters with those that the environment sets. -/
def config (env : Environment) : Except Fault Config := do
  let bits ← env.number .wordSize
  let cells ← env.number .memorySize
  let bound ← env.number .maxRandom
  let sized : Config := bits.elim .default fun n => Config.default.withWordSize n.toNat
  let filled := cells.elim sized fun n => sized.withMemorySize n.toNat
  return bound.elim filled fun n => filled.withMaxRandom n

end Environment

end CellAsm
