import CellAsm.Proofs.Text.Decimal

set_option autoImplicit false

/-! # Decimal numerals

`IsDecimal` is the notation of a number as it may be read: digits, of which there is at least one,
with or without a plus sign in front. A text is read as a word exactly if it is written in this way
and its number fits a word (`decimal?_eq_some_iff`).
-/

namespace CellAsm.Text

/-- The text is a numeral of the number: perhaps a plus sign, and then digits. -/
def IsDecimal (s : List Char) (n : Nat) : Prop :=
  ∃ sign digits, (sign = [] ∨ sign = ['+']) ∧ s = sign ++ digits ∧ digits ≠ [] ∧
    (∀ c ∈ digits, c.isDigit = true) ∧ n = Nat.ofDigitChars 10 digits 0

variable {s : List Char} {n d : Nat} {c : Char}

/-! ## Digits -/

theorem isDigit_of_digit? (h : digit? 10 c = some d) : c.isDigit = true := by
  unfold digit? at h
  obtain ⟨hvalue, hd⟩ := Option.filter_eq_some_iff.mp h
  have hd : d < 10 := of_decide_eq_true hd
  split at hvalue
  · next hc =>
    exact isDigit_iff.mpr ⟨UInt32.le_iff_toNat_le.mp hc.1, UInt32.le_iff_toNat_le.mp hc.2⟩
  -- the value of a letter is at least ten
  · split at hvalue
    · obtain rfl := Option.some.inj hvalue
      omega
    · split at hvalue
      · obtain rfl := Option.some.inj hvalue
        omega
      · cases hvalue

theorem mapM_digit?_eq_some_iff {ds : List Nat} :
    s.mapM (digit? 10) = some ds ↔
      (∀ c ∈ s, c.isDigit = true) ∧ ds = s.map fun c => c.toNat - '0'.toNat := by
  constructor
  · intro h
    have hdigits : ∀ c ∈ s, c.isDigit = true := fun c hc => by
      obtain ⟨d, hd⟩ := exists_of_mapM h c hc
      exact isDigit_of_digit? hd
    rw [mapM_digit?_of_isDigit hdigits] at h
    exact ⟨hdigits, (Option.some.inj h).symm⟩
  · rintro ⟨hdigits, rfl⟩
    exact mapM_digit?_of_isDigit hdigits

/-! ## Numerals -/

/-- A numeral is what is behind a plus sign, if it begins with one. -/
theorem isDecimal_iff :
    IsDecimal s n ↔ dropPlus s ≠ [] ∧ (∀ c ∈ dropPlus s, c.isDigit = true) ∧
      n = Nat.ofDigitChars 10 (dropPlus s) 0 := by
  refine exists_sign_iff fun digits h hhead => ?_
  exact absurd (h.2.1 '+' (List.mem_of_head? hhead)) (by decide)

/-- **A text is read as a word exactly if it is a numeral of a number that fits one.** -/
theorem decimal?_eq_some_iff {word : UInt64} :
    decimal? s = some word ↔ ∃ n, IsDecimal s n ∧ n < 2 ^ 64 ∧ word = UInt64.ofNat n := by
  simp only [isDecimal_iff]
  rw [decimal?, numeral?, Option.bind_eq_bind, Option.bind_eq_some_iff]
  constructor
  · rintro ⟨ds, hds, h⟩
    obtain ⟨hdigits, rfl⟩ := mapM_digit?_eq_some_iff.mp hds
    rw [ofDigits_map] at h
    dsimp only at h
    split at h
    · next hfits =>
      exact ⟨_, ⟨mt List.map_eq_nil_iff.mpr hfits.1, hdigits, rfl⟩, hfits.2,
        (Option.some.inj h).symm⟩
    · cases h
  · rintro ⟨_, ⟨hne, hdigits, rfl⟩, hfits, rfl⟩
    refine ⟨_, mapM_digit?_eq_some_iff.mpr ⟨hdigits, rfl⟩, ?_⟩
    rw [ofDigits_map]
    exact if_pos ⟨mt List.map_eq_nil_iff.mp hne, hfits⟩

/-- A numeral consists of digits, apart from a plus sign. -/
theorem IsDecimal.isDigit_of_mem (h : IsDecimal s n) (hc : c ∈ s) : c = '+' ∨ c.isDigit = true := by
  obtain ⟨sign, digits, hsign, rfl, -, hdigits, -⟩ := h
  rcases List.mem_append.mp hc with hc | hc
  · rcases hsign with rfl | rfl
    · cases hc
    · exact .inl (List.mem_singleton.mp hc)
  · exact .inr (hdigits c hc)

end CellAsm.Text
