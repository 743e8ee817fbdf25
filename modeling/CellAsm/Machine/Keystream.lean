set_option autoImplicit false

/-! # The key stream behind random numbers

A seed determines a stream of 64-bit words: the seed is spread over a key of eight words by a
linear congruential generator with permuted output, and the key stream is that of the ChaCha
cipher with twelve rounds, a counter of 64 bits that starts at 0 and no nonce. The stream can be
read at any position.
-/

namespace CellAsm.Keystream

/-- The state of a block: four constants, the key, the counter and the nonce. -/
abbrev Block := Vector UInt32 16

/-- Rotates the bits of a word to the left. -/
def rotateLeft (x n : UInt32) : UInt32 := (x <<< n) ||| (x >>> (32 - n))

/-- Mixes four words of a block. -/
def quarterRound (a b c d : Fin 16) (s : Block) : Block :=
  let s := s.set a (s[a] + s[b])
  let s := s.set d (rotateLeft (s[d] ^^^ s[a]) 16)
  let s := s.set c (s[c] + s[d])
  let s := s.set b (rotateLeft (s[b] ^^^ s[c]) 12)
  let s := s.set a (s[a] + s[b])
  let s := s.set d (rotateLeft (s[d] ^^^ s[a]) 8)
  let s := s.set c (s[c] + s[d])
  s.set b (rotateLeft (s[b] ^^^ s[c]) 7)

/-- A round on the columns and a round on the diagonals. -/
def doubleRound (s : Block) : Block :=
  let s := quarterRound 0 4 8 12 s
  let s := quarterRound 1 5 9 13 s
  let s := quarterRound 2 6 10 14 s
  let s := quarterRound 3 7 11 15 s
  let s := quarterRound 0 5 10 15 s
  let s := quarterRound 1 6 11 12 s
  let s := quarterRound 2 7 8 13 s
  quarterRound 3 4 9 14 s

/-- Twelve rounds. -/
def rounds (s : Block) : Block := Nat.repeat doubleRound 6 s

/-- A key of eight words. -/
abbrev Key := Vector UInt32 8

/-- The block that a key and a counter begin with. -/
def start (key : Key) (counter : UInt64) : Block :=
  #v[0x61707865, 0x3320646E, 0x79622D32, 0x6B206574,
    key[0], key[1], key[2], key[3], key[4], key[5], key[6], key[7],
    counter.toUInt32, (counter >>> 32).toUInt32, 0, 0]

/-- The block of the stream with the given number. -/
def block (key : Key) (counter : UInt64) : Block :=
  let s := start key counter
  (rounds s).zipWith (· + ·) s

/-- The next state of the generator that spreads seeds. -/
def advance (state : UInt64) : UInt64 := state * 6364136223846793005 + 11634580027462260723

/-- The output for a state: its upper bits fold onto each other and choose a rotation. -/
def output (state : UInt64) : UInt32 :=
  let folded := (((state >>> 18) ^^^ state) >>> 27).toUInt32
  let rotation := (state >>> 59).toUInt32
  rotateLeft folded (32 - rotation)

/-- The key of a seed: one output for each word, each after an advance. -/
def keyOf (seed : UInt64) : Key :=
  Vector.ofFn fun i => output (Nat.repeat advance (i.val + 1) seed)

/-- The word at a position of the stream, made of two words of a block with the lower half
first. -/
def word (key : Key) (position : Nat) : UInt64 :=
  let s := block key (UInt64.ofNat (position / 8))
  let i := position % 8
  s[2 * i + 1].toUInt64 <<< 32 ||| s[2 * i].toUInt64

end CellAsm.Keystream
