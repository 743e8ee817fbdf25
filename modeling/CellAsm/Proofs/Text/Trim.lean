import CellAsm.Text.Blank
import Mathlib.Data.List.TakeWhile
import Mathlib.Tactic

set_option autoImplicit false

/-! # Trimmed texts

Trimming takes the blanks away at both ends and nothing in between (`trim_eq_iff`). If a text is cut
off in front of a character that is no blank, it can as well be trimmed before
(`trim_takeWhile_trim`).
-/

namespace CellAsm.Text

theorem trimStart_suffix (s : List Char) : trimStart s <:+ s := List.dropWhile_suffix _

theorem trimEnd_prefix (s : List Char) : trimEnd s <+: s := by
  have h := List.reverse_prefix.mpr (List.dropWhile_suffix (l := s.reverse) isBlank)
  rwa [List.reverse_reverse] at h

/-- A text is its trimmed text with something in front and something behind. -/
theorem exists_eq_append_trim (s : List Char) : ∃ front back, s = front ++ trim s ++ back := by
  obtain ⟨front, hfront⟩ := trimStart_suffix s
  obtain ⟨back, hback⟩ := trimEnd_prefix (trimStart s)
  exact ⟨front, back, by rw [List.append_assoc, trim, hback, hfront]⟩

theorem mem_of_mem_trim {s : List Char} {c : Char} (h : c ∈ trim s) : c ∈ s := by
  obtain ⟨front, back, hs⟩ := exists_eq_append_trim s
  rw [hs]
  simp [h]

/-- Behind the end of a text without the blanks that it ends with there are blanks only. -/
theorem exists_eq_trimEnd_append (s : List Char) :
    ∃ back, s = trimEnd s ++ back ∧ ∀ c ∈ back, isBlank c = true := by
  refine ⟨(s.reverse.takeWhile isBlank).reverse, ?_, fun c hc => ?_⟩
  · rw [trimEnd, ← List.reverse_append, List.takeWhile_append_dropWhile, List.reverse_reverse]
  · exact List.mem_takeWhile_imp (List.mem_reverse.mp hc)

theorem trimEnd_append_of_blank (s : List Char) {back : List Char}
    (hback : ∀ c ∈ back, isBlank c = true) : trimEnd (s ++ back) = trimEnd s := by
  rw [trimEnd, trimEnd, List.reverse_append, List.dropWhile_append_of_pos]
  exact fun c hc => hback c (List.mem_reverse.mp hc)

/-- A trimmed text begins with no blank. -/
theorem trimStart_trim (s : List Char) : trimStart (trim s) = trim s := by
  cases hstart : trimStart s with
  | nil => rw [trim, hstart]; rfl
  | cons c r =>
      have hc := isBlank_of_trimStart_eq_cons hstart
      have hprefix : trim s <+: c :: r := hstart ▸ trimEnd_prefix (trimStart s)
      cases htrim : trim s with
      | nil => rfl
      | cons d t =>
          rw [htrim] at hprefix
          obtain ⟨rfl, -⟩ := List.cons_prefix_cons.mp hprefix
          exact List.dropWhile_cons_of_neg (by simp [hc])

/-- A trimmed text begins with what begins the text behind its blanks, if that ends with none. -/
theorem prefix_trim_iff {front s : List Char} (hlast : ∀ c ∈ front.getLast?, isBlank c = false) :
    front <+: trim s ↔ front <+: trimStart s := by
  refine ⟨fun h => h.trans <| trimEnd_prefix _, fun h => ?_⟩
  obtain ⟨back, hback, hblank⟩ := exists_eq_trimEnd_append (trimStart s)
  rw [hback] at h
  rcases List.prefix_or_prefix_of_prefix h (List.prefix_append _ back) with hfront | ⟨more, rfl⟩
  · exact hfront
  -- otherwise `front` goes on into the blanks behind the trimmed text, and ends with one
  · have hmore : more <+: back := (List.prefix_append_right_inj _).mp h
    cases hend : more.getLast? with
    | none =>
        rw [List.getLast?_eq_none_iff.mp hend, List.append_nil]
        exact List.prefix_rfl
    | some c =>
        have hc : c ∈ more := List.mem_of_getLast? hend
        have hnot : isBlank c = false := hlast c (by rw [List.getLast?_append, hend]; rfl)
        rw [hblank c (hmore.subset hc)] at hnot
        cases hnot

section

variable {p : Char → Bool} (hp : ∀ c, isBlank c = true → p c = true)
include hp

theorem trimStart_takeWhile (s : List Char) :
    trimStart (s.takeWhile p) = (trimStart s).takeWhile p := by
  induction s with
  | nil => rfl
  | cons c s ih =>
      cases hc : isBlank c with
      | true =>
          rw [List.takeWhile_cons_of_pos (hp c hc), trimStart, trimStart,
            List.dropWhile_cons_of_pos hc, List.dropWhile_cons_of_pos hc]
          exact ih
      | false =>
          rw [trimStart, trimStart, List.dropWhile_cons_of_neg (by simp [hc])]
          cases hpc : p c with
          | true => rw [List.takeWhile_cons_of_pos hpc, List.dropWhile_cons_of_neg (by simp [hc])]
          | false => rw [List.takeWhile_cons_of_neg (by simp [hpc])]; rfl

theorem trimEnd_takeWhile_trimEnd (s : List Char) :
    trimEnd ((trimEnd s).takeWhile p) = trimEnd (s.takeWhile p) := by
  obtain ⟨back, hs, hblank⟩ := exists_eq_trimEnd_append s
  have hback : back.takeWhile p = back :=
    List.takeWhile_eq_self_iff.mpr fun c hc => hp c (hblank c hc)
  conv_rhs => rw [hs, List.takeWhile_append, hback]
  split_ifs with hall
  · rw [trimEnd_append_of_blank _ hblank, (List.takeWhile_prefix p).eq_of_length hall]
  · rfl

/-- Cutting a text off in front of a character that is no blank, it does not matter whether it was
trimmed before. -/
theorem trim_takeWhile_trim (s : List Char) : trim ((trim s).takeWhile p) = trim (s.takeWhile p) := by
  calc trim ((trim s).takeWhile p)
      = trimEnd ((trim s).takeWhile p) := by rw [trim, trimStart_takeWhile hp, trimStart_trim]
    _ = trimEnd ((trimStart s).takeWhile p) := trimEnd_takeWhile_trimEnd hp (trimStart s)
    _ = trim (s.takeWhile p) := by rw [trim, trimStart_takeWhile hp]

end

/-- A text that begins and ends with no blank is trimmed. -/
theorem trim_of_ends {s : List Char} (hhead : ∀ c ∈ s.head?, isBlank c = false)
    (hlast : ∀ c ∈ s.getLast?, isBlank c = false) : trim s = s := by
  have hstart : trimStart s = s := by
    cases s with
    | nil => rfl
    | cons c s => exact List.dropWhile_cons_of_neg (by simp [hhead c rfl])
  have hend : trimEnd s = s := by
    rw [← List.head?_reverse] at hlast
    rw [trimEnd]
    cases hreverse : s.reverse with
    | nil => exact (List.reverse_eq_nil_iff.mp hreverse).symm
    | cons c rest =>
        rw [List.dropWhile_cons_of_neg (by simp [hlast c (by rw [hreverse]; rfl)]), ← hreverse,
          List.reverse_reverse]
  rw [trim, hstart, hend]

/-! ## What is left of a text -/

/-- The first text is the second one with nothing but blanks around it, and the second one begins
and ends with none. -/
structure Trims (s t : List Char) : Prop where
  around : ∃ front back, s = front ++ t ++ back ∧ (∀ c ∈ front, isBlank c = true) ∧
    ∀ c ∈ back, isBlank c = true
  head : ∀ c ∈ t.head?, isBlank c = false
  last : ∀ c ∈ t.getLast?, isBlank c = false

theorem trim_append_of_blank (s : List Char) {back : List Char}
    (hback : ∀ c ∈ back, isBlank c = true) : trim (s ++ back) = trim s := by
  rw [trim, trim, trimStart, List.dropWhile_append]
  split_ifs with hstart
  · -- the text is blank throughout, and so is what follows it
    have hnil : back.dropWhile isBlank = [] := List.dropWhile_eq_nil_iff.mpr hback
    rw [hnil, trimStart, List.isEmpty_iff.mp hstart]
  · exact trimEnd_append_of_blank _ hback

theorem trim_blank_append {front : List Char} (hfront : ∀ c ∈ front, isBlank c = true)
    (s : List Char) : trim (front ++ s) = trim s := by
  rw [trim, trimStart, List.dropWhile_append_of_pos hfront, trim, trimStart]

theorem head?_trim (s : List Char) : ∀ c ∈ (trim s).head?, isBlank c = false := by
  intro c hc
  obtain ⟨rest, hrest⟩ := List.head?_eq_some_iff.mp hc
  have hstart : trimStart (trim s) = c :: rest := by rw [trimStart_trim, hrest]
  exact isBlank_of_trimStart_eq_cons hstart

theorem getLast?_trim (s : List Char) : ∀ c ∈ (trim s).getLast?, isBlank c = false := by
  intro c hc
  rw [trim, trimEnd, List.getLast?_reverse] at hc
  have hnot := List.head?_dropWhile_not isBlank (trimStart s).reverse
  rw [hc] at hnot
  simpa using hnot

/-- **What trimming leaves.** -/
theorem trim_eq_iff {s t : List Char} : trim s = t ↔ Trims s t := by
  constructor
  · rintro rfl
    obtain ⟨back, hback, hblank⟩ := exists_eq_trimEnd_append (trimStart s)
    refine ⟨⟨s.takeWhile isBlank, back, ?_, fun c hc => List.mem_takeWhile_imp hc, hblank⟩,
      head?_trim s, getLast?_trim s⟩
    rw [List.append_assoc, trim, ← hback, trimStart, List.takeWhile_append_dropWhile]
  · rintro ⟨⟨front, back, rfl, hfront, hback⟩, hhead, hlast⟩
    rw [trim_append_of_blank _ hback, trim_blank_append hfront, trim_of_ends hhead hlast]

end CellAsm.Text
