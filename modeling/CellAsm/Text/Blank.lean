import CellAsm.Text.CodePoints

set_option autoImplicit false

/-! # Blank characters

Source texts, program texts and settings are separated by blanks: the characters with the
Unicode property `White_Space`. The module defines the class, trimming at either end and
the cut of a text into its maximal runs without blanks.
-/

namespace CellAsm.Text

/-- The code points with the property `White_Space`. -/
def blankRanges : CodePoints :=
  [(0x0009, 0x000D), (0x0020, 0x0020), (0x0085, 0x0085), (0x00A0, 0x00A0), (0x1680, 0x1680),
    (0x2000, 0x200A), (0x2028, 0x2029), (0x202F, 0x202F), (0x205F, 0x205F), (0x3000, 0x3000)]

/-- Whether `c` separates words. -/
def isBlank (c : Char) : Bool := blankRanges.has c

/-- `s` without the blanks it begins with. -/
def trimStart (s : List Char) : List Char := s.dropWhile isBlank

/-- `s` without the blanks it ends with. -/
def trimEnd (s : List Char) : List Char := (s.reverse.dropWhile isBlank).reverse

/-- `s` without blanks at either end. -/
def trim (s : List Char) : List Char := trimEnd (trimStart s)

/-- Characters up to the first blank. -/
def word (s : List Char) : List Char := s.takeWhile fun c => !isBlank c

/-- What follows the characters up to the first blank. -/
def afterWord (s : List Char) : List Char := s.dropWhile fun c => !isBlank c

theorem length_trimStart_le (s : List Char) : (trimStart s).length ≤ s.length :=
  (List.dropWhile_sublist _).length_le

theorem length_afterWord_le (s : List Char) : (afterWord s).length ≤ s.length :=
  (List.dropWhile_sublist _).length_le

/-- Trimming stops at the end of the text or at a character that is no blank. -/
theorem isBlank_of_trimStart_eq_cons {s r : List Char} {c : Char} (h : trimStart s = c :: r) :
    isBlank c = false := by
  induction s with
  | nil => simp [trimStart] at h
  | cons d s ih =>
    simp only [trimStart, List.dropWhile_cons] at h
    split at h
    · exact ih h
    · simp_all

/-- The first word of a trimmed text takes at least one character of it. -/
theorem length_afterWord_lt {s r : List Char} {c : Char} (h : trimStart s = c :: r) :
    (afterWord (c :: r)).length < s.length := by
  have hc := isBlank_of_trimStart_eq_cons h
  have hs := length_trimStart_le s
  have hr := length_afterWord_le r
  simp only [h, List.length_cons] at hs
  simp only [afterWord, List.dropWhile_cons, hc, Bool.not_false, if_true] at hr ⊢
  omega

/-- The maximal runs of `s` without blanks, in order. -/
def words (s : List Char) : List (List Char) :=
  match _h : trimStart s with
  | [] => []
  | c :: r => word (c :: r) :: words (afterWord (c :: r))
termination_by s.length
decreasing_by exact length_afterWord_lt _h

end CellAsm.Text
