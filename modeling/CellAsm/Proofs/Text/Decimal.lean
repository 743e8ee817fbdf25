import CellAsm.Text.Blank
import CellAsm.Text.Numeral
import Mathlib.Tactic

set_option autoImplicit false

/-! # Decimal notation

The decimal notation of a number consists of ASCII digits and of at least one of them, so it
holds no blank, no bracket, no colon and no apostrophe: it is a token that no pass takes for
anything else. A number below `2 ^ 64` is read back from its notation.
-/

namespace CellAsm.Text

/-! ## The characters of a notation -/

theorem decimal_ne_nil (n : Nat) : decimal n ≠ [] := Nat.toDigits_ne_nil

theorem isDigit_of_mem_decimal {n : Nat} {c : Char} (h : c ∈ decimal n) : c.isDigit = true :=
  Nat.isDigit_of_mem_toDigits (by decide) (by decide) h

theorem isDigit_iff {c : Char} : c.isDigit = true ↔ 48 ≤ c.toNat ∧ c.toNat ≤ 57 := by
  simp only [Char.isDigit, Bool.and_eq_true, decide_eq_true_eq, ge_iff_le,
    UInt32.le_iff_toNat_le, Char.toNat]
  rfl

/-- The characters that ASCII prints, apart from the space, are no blanks. -/
theorem isBlank_of_printable {c : Char} (hlo : 33 ≤ c.toNat) (hhi : c.toNat ≤ 126) :
    isBlank c = false := by
  simp only [isBlank, blankRanges, CodePoints.has, List.any_cons, List.any_nil, Bool.or_false,
    Bool.or_eq_false_iff, Bool.and_eq_false_iff, decide_eq_false_iff_not]
  omega

theorem isBlank_of_isDigit {c : Char} (h : c.isDigit = true) : isBlank c = false := by
  obtain ⟨hlo, hhi⟩ := isDigit_iff.mp h
  exact isBlank_of_printable (by omega) (by omega)

theorem isBlank_of_mem_decimal {n : Nat} {c : Char} (h : c ∈ decimal n) : isBlank c = false :=
  isBlank_of_isDigit (isDigit_of_mem_decimal h)

/-- A character that is no digit does not occur in the notation of a number. -/
theorem not_mem_decimal {n : Nat} {c : Char} (hc : c.isDigit = false) : c ∉ decimal n := by
  intro h
  rw [isDigit_of_mem_decimal h] at hc
  exact Bool.noConfusion hc

theorem head?_decimal_ne {n : Nat} {c : Char} (hc : c.isDigit = false) :
    (decimal n).head? ≠ some c :=
  fun h => not_mem_decimal hc (List.mem_of_head? h)

theorem getLast?_decimal_ne {n : Nat} {c : Char} (hc : c.isDigit = false) :
    (decimal n).getLast? ≠ some c :=
  fun h => not_mem_decimal hc (List.mem_of_getLast? h)

/-! ## Reading a notation back -/

theorem digit?_of_isDigit {c : Char} (h : c.isDigit = true) :
    digit? 10 c = some (c.toNat - '0'.toNat) := by
  obtain ⟨hlo, hhi⟩ := isDigit_iff.mp h
  have hzero : '0' ≤ c := by
    rw [Char.le_def, UInt32.le_iff_toNat_le]
    exact hlo
  have hnine : c ≤ '9' := by
    rw [Char.le_def, UInt32.le_iff_toNat_le]
    exact hhi
  have hlt : c.toNat - 48 < 10 := by omega
  simp [digit?, hzero, hnine, hlt]

theorem exists_of_mapM {α β : Type} {f : α → Option β} {xs : List α} {ys : List β}
    (h : xs.mapM f = some ys) : ∀ x ∈ xs, ∃ y, f x = some y := by
  induction xs generalizing ys with
  | nil => exact List.forall_mem_nil _
  | cons x xs ih =>
      rw [List.mapM_cons] at h
      obtain ⟨y, hy, h⟩ := Option.bind_eq_some_iff.mp h
      obtain ⟨rest, hrest, -⟩ := Option.bind_eq_some_iff.mp h
      exact List.forall_mem_cons.mpr ⟨⟨y, hy⟩, ih hrest⟩

theorem mapM_digit?_of_isDigit {s : List Char} (h : ∀ c ∈ s, c.isDigit = true) :
    s.mapM (digit? 10) = some (s.map fun c => c.toNat - '0'.toNat) := by
  induction s with
  | nil => rfl
  | cons c s ih =>
      have hs : ∀ d ∈ s, d.isDigit = true := fun d hd => h d (by simp [hd])
      rw [List.mapM_cons, digit?_of_isDigit (h c (by simp)), ih hs]
      rfl

theorem ofDigits_map (s : List Char) :
    ofDigits 10 (s.map fun c => c.toNat - '0'.toNat) = Nat.ofDigitChars 10 s 0 := by
  rw [Nat.ofDigitChars_eq_foldl, ofDigits, List.foldl_map]

theorem ofDigits_decimal (n : Nat) :
    ofDigits 10 ((decimal n).map fun c => c.toNat - '0'.toNat) = n :=
  (ofDigits_map _).trans Nat.ofDigitChars_ten_toDigits

theorem decimal_injective : Function.Injective decimal := by
  intro n m h
  rw [← ofDigits_decimal n, h, ofDigits_decimal]

theorem dropPlus_of_head? {s : List Char} (h : s.head? ≠ some '+') : dropPlus s = s := by
  unfold dropPlus
  split
  · exact absurd rfl h
  · rfl

/-- A text with or without a plus sign in front is one without it behind what `dropPlus` takes
away. -/
theorem exists_sign_iff {s : List Char} {P : List Char → Prop}
    (hP : ∀ digits, P digits → digits.head? ≠ some '+') :
    (∃ sign digits, (sign = [] ∨ sign = ['+']) ∧ s = sign ++ digits ∧ P digits) ↔
      P (dropPlus s) := by
  constructor
  · rintro ⟨_, _, rfl | rfl, rfl, h⟩
    · rwa [dropPlus_of_head? (hP _ h)]
    · exact h
  · intro h
    by_cases hplus : s.head? = some '+'
    · obtain ⟨rest, rfl⟩ := List.head?_eq_some_iff.mp hplus
      exact ⟨['+'], rest, .inr rfl, rfl, h⟩
    · rw [dropPlus_of_head? hplus] at h
      exact ⟨[], s, .inl rfl, rfl, h⟩

/-- **The notation of a number is read back exactly when the number fits a word.** -/
theorem decimal?_decimal_eq_some_iff {n : Nat} {w : UInt64} :
    decimal? (decimal n) = some w ↔ n < 2 ^ 64 ∧ w = UInt64.ofNat n := by
  have hdigits := mapM_digit?_of_isDigit fun c hc => isDigit_of_mem_decimal (n := n) hc
  have hne : (decimal n).map (fun c => c.toNat - '0'.toNat) ≠ [] := by
    simpa using decimal_ne_nil n
  rw [decimal?, numeral?, dropPlus_of_head? (head?_decimal_ne (by decide)), hdigits]
  simp only [Option.bind_eq_bind, Option.bind_some, ofDigits_decimal]
  constructor
  · intro h
    split at h
    · next hlt => exact ⟨hlt.2, (Option.some.inj h).symm⟩
    · exact absurd h (by simp)
  · rintro ⟨hn, rfl⟩
    rw [if_pos ⟨hne, hn⟩]

end CellAsm.Text
