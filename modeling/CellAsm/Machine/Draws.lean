import CellAsm.Machine.Keystream

set_option autoImplicit false

/-! # Random draws

A source of random numbers is a sequence that draws are taken from, and a draw may use up any part
of it. A machine asks for nothing but numbers that are not above a bound. One way to make such a
source is from a sequence of words: to draw a number below a bound, a word is multiplied by the
bound and the upper half of the product is taken; so that all numbers are equally likely, words
whose lower half lies beyond a zone are passed over.
-/

namespace CellAsm

/-- A source of random numbers. -/
@[ext]
structure Draws where
  /-- The number from 0 to a bound that is drawn at a position, and the position after it. -/
  next : UInt64 → Nat → UInt64 × Nat
  /-- A draw is not above its bound. -/
  next_fst_le (bound : UInt64) (position : Nat) : (next bound position).1 ≤ bound
  /-- A draw does not give back what was used up. -/
  le_next_snd (bound : UInt64) (position : Nat) : position ≤ (next bound position).2

namespace Draws

/-- The source of zeros. -/
instance : Inhabited Draws where
  default :=
    { next := fun _ position => (0, position + 1)
      next_fst_le := fun _ _ => UInt64.zero_le
      le_next_snd := fun _ position => Nat.le_succ position }

/-! ## Draws from words -/

/-- The largest lower half that is accepted for numbers below `count`: the largest shift of
`count` that fits a word, less one. -/
def zone (count : Nat) : Nat := (count <<< (63 - count.log2)) - 1

/-- The number below `count` that a word gives. -/
def scale (count : Nat) (word : UInt64) : UInt64 :=
  UInt64.ofNat (word.toNat * count / UInt64.size)

/-- Whether a word is passed over. -/
def isBiased (count : Nat) (word : UInt64) : Bool :=
  zone count < word.toNat * count % UInt64.size

/-- A position comes right after another, the word of which is passed over. -/
def Follows (count : Nat) (words : Nat → UInt64) (later earlier : Nat) : Prop :=
  later = earlier + 1 ∧ isBiased count (words earlier) = true

/-- A position that is not in front of another. -/
abbrev Ahead (position : Nat) : Type := { found : Nat // position ≤ found }

instance (position : Nat) : Inhabited (Ahead position) where
  default := ⟨position, Nat.le_refl position⟩

/-- Where the first word stands, from `position` on, that is not passed over. The search has no
bound: it ends where there is such a word, and half of all words or more are accepted. -/
def accepted (count : Nat) (words : Nat → UInt64) : (position : Nat) → Ahead position :=
  WellFounded.partialExtrinsicFix (Follows count words) fun position search =>
    if h : isBiased count (words position) = true then
      let found := search (position + 1) ⟨rfl, h⟩
      ⟨found, Nat.le_of_succ_le found.2⟩
    else ⟨position, Nat.le_refl position⟩

section

variable {count : Nat} {words : Nat → UInt64} {position : Nat}

/-- The search from a position ends if an accepted word stands there or behind it. -/
theorem acc_follows (h : ∃ found, position ≤ found ∧ isBiased count (words found) = false) :
    Acc (Follows count words) position := by
  obtain ⟨found, hle, hfound⟩ := h
  obtain ⟨distance, rfl⟩ := Nat.exists_eq_add_of_le hle
  clear hle
  induction distance generalizing position with
  | zero =>
      refine .intro position fun later hlater => ?_
      exact absurd (hfound.symm.trans hlater.2) Bool.false_ne_true
  | succ distance ih =>
      refine .intro position fun later hlater => ?_
      obtain ⟨rfl, -⟩ := hlater
      exact ih (by rwa [Nat.add_right_comm])

theorem accepted_of_isBiased (hacc : Acc (Follows count words) position)
    (h : isBiased count (words position) = true) :
    (accepted count words position).1 = (accepted count words (position + 1)).1 := by
  rw [accepted, WellFounded.partialExtrinsicFix_eq_apply_of_acc hacc, dif_pos h]

theorem accepted_of_not_isBiased (hacc : Acc (Follows count words) position)
    (h : isBiased count (words position) = false) :
    (accepted count words position).1 = position := by
  rw [accepted, WellFounded.partialExtrinsicFix_eq_apply_of_acc hacc, dif_neg (by simp [h])]

/-- What is found is accepted, and everything in front of it from the position on is passed over. -/
theorem accepted_is_first (h : ∃ found, position ≤ found ∧ isBiased count (words found) = false) :
    isBiased count (words (accepted count words position).1) = false ∧
      ∀ passed, position ≤ passed → passed < (accepted count words position).1 →
        isBiased count (words passed) = true := by
  induction acc_follows h with
  | intro position hacc ih =>
      cases hbiased : isBiased count (words position) with
      | false =>
          rw [accepted_of_not_isBiased (.intro position hacc) hbiased]
          exact ⟨hbiased, fun passed hle hlt => absurd hlt (Nat.not_lt.mpr hle)⟩
      | true =>
          rw [accepted_of_isBiased (.intro position hacc) hbiased]
          obtain ⟨found, hle, hfound⟩ := h
          have hne : position ≠ found := by
            rintro rfl
            exact absurd (hbiased.symm.trans hfound) (by decide)
          obtain ⟨hfirst, hpassed⟩ :=
            ih (position + 1) ⟨rfl, hbiased⟩ ⟨found, Nat.lt_of_le_of_ne hle hne, hfound⟩
          refine ⟨hfirst, fun passed hle hlt => ?_⟩
          obtain rfl | hlt' := Nat.eq_or_lt_of_le hle
          · exact hbiased
          · exact hpassed passed hlt' hlt

end

/-- A word scaled to the numbers below `count` is below `count`. -/
theorem toNat_scale_lt {count : Nat} (word : UInt64) (hpos : 0 < count) :
    (scale count word).toNat < count := by
  have hw : word.toNat * count < UInt64.size * count :=
    Nat.mul_lt_mul_of_pos_right word.toNat_lt hpos
  have hq : word.toNat * count / UInt64.size < count := Nat.div_lt_of_lt_mul hw
  rw [scale, UInt64.toNat_ofNat']
  exact Nat.lt_of_le_of_lt (Nat.mod_le _ _) hq

/-- Draws from a sequence of words. -/
def ofWords (words : Nat → UInt64) : Draws where
  next bound position :=
    let found := accepted (bound.toNat + 1) words position
    (scale (bound.toNat + 1) (words found), found + 1)
  next_fst_le bound _ :=
    UInt64.le_iff_toNat_le.mpr (Nat.le_of_lt_succ (toNat_scale_lt _ (Nat.succ_pos bound.toNat)))
  le_next_snd bound position := Nat.le_succ_of_le (accepted (bound.toNat + 1) words position).2

/-- The draws of a seed. -/
def seeded (seed : UInt64) : Draws := ofWords (Keystream.word (Keystream.keyOf seed))

end Draws

end CellAsm
