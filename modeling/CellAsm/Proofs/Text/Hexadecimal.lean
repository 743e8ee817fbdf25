import CellAsm.Proofs.Text.Decimal

set_option autoImplicit false

/-! # Hexadecimal notation

`Writes base s n` says that `s` consists of digits and that `n` is the number that they write. The
relation is built up digit by digit from either end, and a numeral is read as the number that it
writes (`Writes.numeral?_eq_some`). The hexadecimal notation of a number writes it, so a number
below `2 ^ 64` is read back from its notation, whatever zeros the notation begins with
(`hexadecimal?_hexadecimal`).

`IsHexadecimal` is the notation of a number as it may be read, in digits of either case and with or
without a plus sign. A text is read as a word exactly if it is written in this way and its number
fits a word (`hexadecimal?_eq_some_iff`).
-/

namespace CellAsm.Text

/-! ## Digits -/

variable {base d n : Nat} {c : Char} {s : List Char}

/-- The characters that can be digits. -/
theorem range_of_digit? (h : digit? base c = some d) :
    48 ≤ c.toNat ∧ c.toNat ≤ 57 ∨ 97 ≤ c.toNat ∧ c.toNat ≤ 102 ∨ 65 ≤ c.toNat ∧ c.toNat ≤ 70 := by
  have hrange : ∀ lo hi : Char, lo ≤ c ∧ c ≤ hi → lo.toNat ≤ c.toNat ∧ c.toNat ≤ hi.toNat :=
    fun lo hi hc => ⟨UInt32.le_iff_toNat_le.mp hc.1, UInt32.le_iff_toNat_le.mp hc.2⟩
  unfold digit? at h
  dsimp only at h
  split at h
  · next hc => exact .inl (hrange '0' '9' hc)
  · split at h
    · next hc => exact .inr (.inl (hrange 'a' 'f' hc))
    · split at h
      · next hc => exact .inr (.inr (hrange 'A' 'F' hc))
      · cases h

theorem isBlank_of_digit? (h : digit? base c = some d) : isBlank c = false := by
  rcases range_of_digit? h with h | h | h <;> exact isBlank_of_printable (by omega) (by omega)

theorem digit?_toUpper_digitChar (h : d < 16) : digit? 16 (Nat.digitChar d).toUpper = some d := by
  revert d
  decide

theorem digit?_zero (h : 0 < base) : digit? base '0' = some 0 := by
  simp [digit?, h]

theorem ofDigits_concat (base : Nat) (ds : List Nat) (d : Nat) :
    ofDigits base (ds ++ [d]) = base * ofDigits base ds + d := by
  rw [ofDigits, List.foldl_append]
  rfl

/-! ## Numerals -/

/-- The characters are digits, and they write the number `n`. -/
def Writes (base : Nat) (s : List Char) (n : Nat) : Prop :=
  ∃ ds, s.mapM (digit? base) = some ds ∧ ds ≠ [] ∧ ofDigits base ds = n

/-- A text is read as a word exactly if its digits write the number of the word. -/
theorem numeral?_eq_some_iff {word : UInt64} :
    numeral? base s = some word ↔ Writes base (dropPlus s) word.toNat := by
  constructor
  · intro h
    obtain ⟨ds, hds, h⟩ := Option.bind_eq_some_iff.mp h
    dsimp only at h
    split at h
    · next hfits =>
      obtain rfl := Option.some.inj h
      exact ⟨ds, hds, hfits.1, (UInt64.toNat_ofNat_of_lt' hfits.2).symm⟩
    · cases h
  · rintro ⟨ds, hds, hne, hword⟩
    rw [numeral?, hds]
    refine (if_pos ⟨hne, hword ▸ word.toNat_lt⟩).trans ?_
    rw [hword, UInt64.ofNat_toNat]

namespace Writes

theorem singleton (h : digit? base c = some d) : Writes base [c] d := by
  refine ⟨[d], ?_, List.cons_ne_nil d [], ?_⟩
  · simp [h]
  · simp [ofDigits]

theorem concat (hs : Writes base s n) (hc : digit? base c = some d) :
    Writes base (s ++ [c]) (base * n + d) := by
  obtain ⟨ds, hds, -, rfl⟩ := hs
  refine ⟨ds ++ [d], ?_, by simp, ofDigits_concat base ds d⟩
  simp [List.mapM_append, hds, hc]

theorem zero_cons (hs : Writes base s n) (hbase : 0 < base) : Writes base ('0' :: s) n := by
  obtain ⟨ds, hds, -, rfl⟩ := hs
  refine ⟨0 :: ds, ?_, List.cons_ne_nil 0 ds, ?_⟩
  · simp [List.mapM_cons, digit?_zero hbase, hds]
  · simp [ofDigits]

theorem zeros_append (hs : Writes base s n) (hbase : 0 < base) (k : Nat) :
    Writes base (List.replicate k '0' ++ s) n := by
  induction k with
  | zero => exact hs
  | succ k ih => exact ih.zero_cons hbase

theorem exists_digit (hs : Writes base s n) (hc : c ∈ s) : ∃ d, digit? base c = some d := by
  obtain ⟨ds, hds, -, -⟩ := hs
  exact exists_of_mapM hds c hc

/-- No numeral begins with a sign. -/
theorem head?_ne (hs : Writes base s n) : s.head? ≠ some '+' := by
  intro hplus
  obtain ⟨d, hd⟩ := hs.exists_digit (List.mem_of_head? hplus)
  rcases range_of_digit? hd with h | h | h <;> revert h <;> decide

/-- **A numeral is read as the number that it writes**, if that fits a word. -/
theorem numeral?_eq_some (hs : Writes base s n) (hn : n < 2 ^ 64) :
    numeral? base s = some (UInt64.ofNat n) := by
  rw [numeral?_eq_some_iff, dropPlus_of_head? hs.head?_ne, UInt64.toNat_ofNat_of_lt' hn]
  exact hs

end Writes

/-! ## The notation of a number -/

theorem writes_toDigits (n : Nat) : Writes 16 ((Nat.toDigits 16 n).map Char.toUpper) n := by
  induction n using Nat.strongRecOn with
  | _ n ih =>
    rw [Nat.toDigits_eq_if (by decide)]
    split
    · next hlt => exact .singleton (digit?_toUpper_digitChar hlt)
    · next hge =>
      have hlast := digit?_toUpper_digitChar (Nat.mod_lt n (by decide : 16 > 0))
      have hrest := (ih (n / 16) (by omega)).concat hlast
      rw [Nat.div_add_mod] at hrest
      rwa [List.map_append, List.map_singleton]

/-- The notation of a number writes it. -/
theorem writes_hexadecimal (n : Nat) : Writes 16 (hexadecimal n) n :=
  (writes_toDigits n).zeros_append (by decide) _

/-- **A number that fits a word is read back from its notation.** -/
theorem hexadecimal?_hexadecimal (h : n < 2 ^ 64) :
    hexadecimal? (hexadecimal n) = some (UInt64.ofNat n) :=
  (writes_hexadecimal n).numeral?_eq_some h

/-! ## What is read -/

/-- The character is a digit of the value, in either case. -/
def IsHexDigit (c : Char) (d : Nat) : Prop :=
  d < 16 ∧ (c = Nat.digitChar d ∨ c = (Nat.digitChar d).toUpper)

/-- The text is a numeral of the number: perhaps a plus sign, and then digits, the most significant
one first. -/
def IsHexadecimal (s : List Char) (n : Nat) : Prop :=
  ∃ sign digits, (sign = [] ∨ sign = ['+']) ∧ s = sign ++ digits ∧
    digits ≠ [] ∧ ∃ ds, List.Forall₂ IsHexDigit digits ds ∧ n = Nat.ofDigits 16 ds.reverse

theorem digit?_digitChar (h : d < 16) : digit? 16 (Nat.digitChar d) = some d := by
  revert d
  decide

theorem isHexDigit_iff : IsHexDigit c d ↔ digit? 16 c = some d := by
  constructor
  · rintro ⟨hd, rfl | rfl⟩
    · exact digit?_digitChar hd
    · exact digit?_toUpper_digitChar hd
  · intro h
    -- all digits are among the first characters
    have hfirst : ∀ code < 103, ∀ d ∈ digit? 16 (Char.ofNat code), d < 16 ∧
        (Char.ofNat code = Nat.digitChar d ∨ Char.ofNat code = (Nat.digitChar d).toUpper) := by
      decide
    have hcode : c.toNat < 103 := by
      rcases range_of_digit? h with h | h | h <;> omega
    have hfound := hfirst c.toNat hcode d (by rwa [Char.ofNat_toNat])
    rwa [Char.ofNat_toNat] at hfound

theorem ofDigits_eq (base : Nat) (ds : List Nat) :
    ofDigits base ds = Nat.ofDigits base ds.reverse := by
  induction ds using List.reverseRecOn with
  | nil => rfl
  | append_singleton ds d ih =>
      rw [ofDigits_concat, ih, List.reverse_append, List.reverse_singleton, List.singleton_append,
        Nat.ofDigits_cons, Nat.add_comm]

theorem mapM_digit?_iff {ds : List Nat} :
    s.mapM (digit? 16) = some ds ↔ List.Forall₂ IsHexDigit s ds := by
  induction s generalizing ds with
  | nil => simp [eq_comm]
  | cons c s ih =>
      rw [List.mapM_cons, Option.bind_eq_bind, Option.bind_eq_some_iff, List.forall₂_cons_left_iff]
      constructor
      · rintro ⟨d, hd, h⟩
        obtain ⟨rest, hrest, h⟩ := Option.bind_eq_some_iff.mp h
        exact ⟨d, rest, isHexDigit_iff.mpr hd, ih.mp hrest, (Option.some.inj h).symm⟩
      · rintro ⟨d, rest, hd, hrest, rfl⟩
        exact ⟨d, isHexDigit_iff.mp hd, Option.bind_eq_some_iff.mpr ⟨rest, ih.mpr hrest, rfl⟩⟩

theorem writes_iff : Writes 16 s n ↔
    s ≠ [] ∧ ∃ ds, List.Forall₂ IsHexDigit s ds ∧ n = Nat.ofDigits 16 ds.reverse := by
  constructor
  · rintro ⟨ds, hds, hne, rfl⟩
    have hdigits := mapM_digit?_iff.mp hds
    refine ⟨?_, ds, hdigits, ofDigits_eq 16 ds⟩
    rintro rfl
    cases hdigits
    exact hne rfl
  · rintro ⟨hne, ds, hdigits, rfl⟩
    refine ⟨ds, mapM_digit?_iff.mpr hdigits, ?_, ofDigits_eq 16 ds⟩
    rintro rfl
    cases hdigits
    exact hne rfl

/-- A numeral is what is behind a plus sign, if it begins with one. -/
theorem isHexadecimal_iff : IsHexadecimal s n ↔ Writes 16 (dropPlus s) n := by
  rw [writes_iff]
  exact exists_sign_iff fun digits h => (writes_iff.mpr h).head?_ne

/-- **A text is read as a word exactly if it is a numeral of its number.** -/
theorem hexadecimal?_eq_some_iff {word : UInt64} :
    hexadecimal? s = some word ↔ IsHexadecimal s word.toNat :=
  numeral?_eq_some_iff.trans isHexadecimal_iff.symm

end CellAsm.Text
