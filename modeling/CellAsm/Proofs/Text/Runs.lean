import CellAsm.Proofs.Text.Trim

set_option autoImplicit false

/-! # Runs without blanks

`Runs s runs` says which maximal runs of characters without blanks a text has, in the order in which
they stand in it: a run is not empty, and a blank or an end of the text is on either side of it.
These are the words into which a text is cut (`runs_iff_words`), so every text has its runs, and
only these.
-/

namespace CellAsm.Text

/-- The maximal runs of a text without blanks, from the front of the text to its end. -/
inductive Runs : List Char → List (List Char) → Prop
  /-- A text of blanks has no run. -/
  | blank {s : List Char} (hs : ∀ c ∈ s, isBlank c = true) : Runs s []
  /-- The first run is behind blanks, and behind it is the end of the text or another blank. -/
  | run {front run rest : List Char} {runs : List (List Char)}
      (hfront : ∀ c ∈ front, isBlank c = true) (hne : run ≠ [])
      (hrun : ∀ c ∈ run, isBlank c = false) (hrest : ∀ c ∈ rest.head?, isBlank c = true)
      (h : Runs rest runs) : Runs (front ++ run ++ rest) (run :: runs)

variable {s r : List Char} {c : Char}

/-! ## Cutting words off -/

theorem words_of_trimStart_eq_nil (h : trimStart s = []) : words s = [] := by
  rw [words]
  split
  · rfl
  · next h' => exact absurd (h.symm.trans h') (by simp)

theorem words_of_trimStart_eq_cons (h : trimStart s = c :: r) :
    words s = word (c :: r) :: words (afterWord (c :: r)) := by
  rw [words]
  split
  · next h' => exact absurd (h.symm.trans h') (by simp)
  · next c' r' h' =>
    obtain ⟨rfl, rfl⟩ := List.cons.inj (h.symm.trans h')
    rfl

theorem trimStart_of_blank (hs : ∀ c ∈ s, isBlank c = true) : trimStart s = [] :=
  List.dropWhile_eq_nil_iff.mpr hs

theorem trimStart_blank_append (hs : ∀ c ∈ s, isBlank c = true) (r : List Char) :
    trimStart (s ++ r) = trimStart r := List.dropWhile_append_of_pos hs

theorem exists_eq_append_trimStart (s : List Char) :
    ∃ front, (∀ c ∈ front, isBlank c = true) ∧ s = front ++ trimStart s :=
  ⟨s.takeWhile isBlank, fun _ hc => List.mem_takeWhile_imp hc, List.takeWhile_append_dropWhile.symm⟩

theorem word_append_afterWord (s : List Char) : word s ++ afterWord s = s :=
  List.takeWhile_append_dropWhile

theorem isBlank_of_mem_word (h : c ∈ word s) : isBlank c = false := by
  simpa using List.mem_takeWhile_imp h

/-- A word ends where the text does or in front of a blank. -/
theorem isBlank_of_mem_head?_afterWord (h : c ∈ (afterWord s).head?) : isBlank c = true := by
  have hhead : (s.dropWhile fun c => !isBlank c).head? = some c := h
  have hstop := List.head?_dropWhile_not (fun c => !isBlank c) s
  simpa [hhead] using hstop

theorem word_ne_nil (hc : isBlank c = false) : word (c :: r) ≠ [] := by
  simp [word, hc]

section

variable {run rest : List Char} (hrun : ∀ c ∈ run, isBlank c = false)
  (hrest : ∀ c ∈ rest.head?, isBlank c = true)
include hrun hrest

theorem word_append : word (run ++ rest) = run := by
  rw [word, List.takeWhile_append_of_pos (by simpa using hrun)]
  cases rest with
  | nil => simp
  | cons d rest => simp [hrest d rfl]

theorem afterWord_append : afterWord (run ++ rest) = rest :=
  List.append_cancel_left <| (word_append hrun hrest ▸ word_append_afterWord (run ++ rest))

end

/-! ## The runs of a text are its words -/

theorem runs_words (s : List Char) : Runs s (words s) := by
  induction s using words.induct with
  | case1 s hs =>
      rw [words_of_trimStart_eq_nil hs]
      exact .blank (List.dropWhile_eq_nil_iff.mp hs)
  | case2 s c r hs ih =>
      obtain ⟨front, hfront, hsplit⟩ := exists_eq_append_trimStart s
      have hcut : s = front ++ word (c :: r) ++ afterWord (c :: r) := by
        rw [List.append_assoc, word_append_afterWord, ← hs]
        exact hsplit
      rw [words_of_trimStart_eq_cons hs]
      -- only the text is to be cut, not what has been found in its rest
      generalize words (afterWord (c :: r)) = runs at ih ⊢
      rw [hcut]
      exact .run hfront (word_ne_nil (isBlank_of_trimStart_eq_cons hs))
        (fun _ => isBlank_of_mem_word) (fun _ => isBlank_of_mem_head?_afterWord) ih

/-- **The runs of a text are the words into which it is cut.** -/
theorem runs_iff_words {runs : List (List Char)} : Runs s runs ↔ words s = runs := by
  constructor
  · intro h
    induction h with
    | blank hs => exact words_of_trimStart_eq_nil (trimStart_of_blank hs)
    | @run front run rest runs hfront hne hrun hrest _ ih =>
        obtain ⟨c, r, rfl⟩ := List.exists_cons_of_ne_nil hne
        have htrim : trimStart (front ++ (c :: r) ++ rest) = c :: (r ++ rest) := by
          rw [List.append_assoc, trimStart_blank_append hfront]
          exact List.dropWhile_cons_of_neg (by simp [hrun c List.mem_cons_self])
        rw [words_of_trimStart_eq_cons htrim, ← List.cons_append, word_append hrun hrest,
          afterWord_append hrun hrest, ih]
  · rintro rfl
    exact runs_words s

end CellAsm.Text
