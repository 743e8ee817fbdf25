import CellAsm.Source.Line

set_option autoImplicit false

/-! # Tokens

Contents are read as tokens separated by blanks. The one token with a blank in it is the
space literal, a space between two apostrophes; it is recognised only where a token begins.
Written back, tokens are separated by single spaces.
-/

namespace CellAsm

/-- A token is the list of its characters. -/
abbrev Token := List Char

namespace Token

/-- The literal for the space character. -/
def spaceLiteral : Token := ['\'', ' ', '\'']

/-- Cuts off the token at the head of a text that does not begin with a blank. -/
def cut : List Char → Token × List Char
  | '\'' :: ' ' :: '\'' :: rest => (spaceLiteral, rest)
  | s => (Text.word s, Text.afterWord s)

theorem length_cut_lt {s r : List Char} {c : Char} (h : Text.trimStart s = c :: r) :
    (cut (c :: r)).2.length < s.length := by
  have hs := Text.length_trimStart_le s
  rw [h] at hs
  simp only [cut]
  split
  · simp_all only [List.length_cons]
    omega
  · exact Text.length_afterWord_lt h

/-- The tokens of a text, in order. -/
def scan (s : List Char) : List Token :=
  match _h : Text.trimStart s with
  | [] => []
  | c :: r => (cut (c :: r)).1 :: scan (cut (c :: r)).2
termination_by s.length
decreasing_by exact length_cut_lt _h

/-- The tokens separated by single spaces. -/
def join (tokens : List Token) : List Char := [' '].intercalate tokens

end Token

/-- The tokens of the contents. -/
def Line.tokens (line : Line) : List Token := Token.scan line.contents.toList

end CellAsm
