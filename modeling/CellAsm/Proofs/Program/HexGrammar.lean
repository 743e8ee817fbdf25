import CellAsm.Proofs.Program.TextForm

set_option autoImplicit false

/-! # The notation of a program text

A program text is read run by run, where a run is what stands between blanks. Each run has to be a
word in hexadecimal notation (`IsHexWord`): the mark, and then the numeral of a number below
`2 ^ 64`. How many digits a numeral has does not matter, only which number it is. A text is read
exactly if all of its runs are such words, and otherwise the first run that is none is at fault
(`ofText_iff`).
-/

namespace CellAsm.Program

/-- The text is the mark of hexadecimal notation, in either case, and what is behind it. -/
def Marked (run numeral : List Char) : Prop :=
  run = ['0', 'x'] ++ numeral ∨ run = ['0', 'X'] ++ numeral

/-- The text is the number in hexadecimal notation, with its mark, and a word can hold it. -/
def IsHexWord (run : List Char) (n : Nat) : Prop :=
  ∃ numeral, Marked run numeral ∧ Text.IsHexadecimal numeral n ∧ n < 2 ^ 64

/-- What is wrong with a text that is no word: it has no mark, or what is behind its mark is no
numeral of a number that a word can hold. -/
inductive Rejected (run : List Char) : Fault.Cause → Prop
  | unmarked (hmark : ∀ numeral, ¬ Marked run numeral) : Rejected run (.hexMark run)
  | unreadable {numeral : List Char} (hmark : Marked run numeral) (hword : ∀ n, ¬ IsHexWord run n) :
      Rejected run (.hexDigits run)

variable {run numeral : List Char} {word : UInt64} {cause : Fault.Cause} {n : Nat}

theorem Rejected.not_isHexWord (h : Rejected run cause) (n : Nat) : ¬ IsHexWord run n := by
  cases h with
  | unmarked hmark => exact fun ⟨numeral, hmarked, _⟩ => hmark numeral hmarked
  | unreadable _ hword => exact hword n

/-! ## One word -/

theorem readWord_of_marked (h : Marked run numeral) :
    readWord run = match Text.hexadecimal? numeral with
      | some word => .ok word
      | none => .error (.hexDigits run) := by
  rcases h with rfl | rfl <;> rfl

theorem readWord_of_unmarked (h : ∀ numeral, ¬ Marked run numeral) :
    readWord run = .error (.hexMark run) := by
  unfold readWord
  split
  · next numeral => exact absurd (.inl rfl) (h numeral)
  · next numeral => exact absurd (.inr rfl) (h numeral)
  · rfl

/-- **A word is read exactly from its notations.** -/
theorem readWord_eq_ok_iff : readWord run = .ok word ↔ IsHexWord run word.toNat := by
  constructor
  · intro h
    by_cases hmark : ∃ numeral, Marked run numeral
    · obtain ⟨numeral, hmark⟩ := hmark
      rw [readWord_of_marked hmark] at h
      split at h
      · next found hfound =>
        obtain rfl := Except.ok.inj h
        exact ⟨numeral, hmark, Text.hexadecimal?_eq_some_iff.mp hfound, found.toNat_lt⟩
      · cases h
    · rw [readWord_of_unmarked (not_exists.mp hmark)] at h
      cases h
  · rintro ⟨numeral, hmark, hnumeral, -⟩
    rw [readWord_of_marked hmark, Text.hexadecimal?_eq_some_iff.mpr hnumeral]

/-- Further zeros do not matter, whatever their number. -/
example : readWord "0X+00000000000000000fF".toList = .ok 255 := by decide

theorem IsHexWord.readWord_eq (h : IsHexWord run n) :
    readWord run = .ok (.ofNat n) ∧ (UInt64.ofNat n).toNat = n := by
  obtain ⟨numeral, hmark, hnumeral, hlt⟩ := h
  have htoNat : (UInt64.ofNat n).toNat = n := UInt64.toNat_ofNat_of_lt' hlt
  refine ⟨readWord_eq_ok_iff.mpr ?_, htoNat⟩
  rw [htoNat]
  exact ⟨numeral, hmark, hnumeral, hlt⟩

theorem exists_readWord_iff : (∃ word, readWord run = .ok word) ↔ ∃ n, IsHexWord run n :=
  ⟨fun ⟨_, hword⟩ => ⟨_, readWord_eq_ok_iff.mp hword⟩, fun ⟨_, hn⟩ => ⟨_, hn.readWord_eq.1⟩⟩

/-- A text is the notation of one number at the most. -/
theorem IsHexWord.unique {m : Nat} (h : IsHexWord run n) (h' : IsHexWord run m) : n = m := by
  obtain ⟨hn, hntoNat⟩ := h.readWord_eq
  obtain ⟨hm, hmtoNat⟩ := h'.readWord_eq
  rw [← hntoNat, ← hmtoNat, Except.ok.inj (hn.symm.trans hm)]

theorem Rejected.readWord_eq (h : Rejected run cause) : readWord run = .error cause := by
  cases h with
  | unmarked hmark => exact readWord_of_unmarked hmark
  | unreadable hmark hword =>
      rw [readWord_of_marked hmark]
      split
      · next word hfound =>
        have hnumeral := Text.hexadecimal?_eq_some_iff.mp hfound
        exact absurd ⟨_, hmark, hnumeral, word.toNat_lt⟩ (hword word.toNat)
      · rfl

theorem exists_rejected (hword : ∀ n, ¬ IsHexWord run n) : ∃ cause, Rejected run cause := by
  by_cases hmark : ∃ numeral, Marked run numeral
  · obtain ⟨numeral, hmark⟩ := hmark
    exact ⟨_, .unreadable hmark hword⟩
  · exact ⟨_, .unmarked (not_exists.mp hmark)⟩

/-- **What is no word is rejected**, and nothing else is. -/
theorem readWord_eq_error_iff : readWord run = .error cause ↔ Rejected run cause := by
  constructor
  · intro h
    have hword : ∀ n, ¬ IsHexWord run n := by
      intro n hn
      rw [hn.readWord_eq.1] at h
      cases h
    -- a run is rejected for one cause only, which is the one that it is read with
    obtain ⟨found, hfound⟩ := exists_rejected hword
    obtain rfl := Except.error.inj (h.symm.trans hfound.readWord_eq)
    exact hfound
  · exact Rejected.readWord_eq

/-! ## The whole text -/

theorem ofText_eq_ok_iff {text : String} {program : Program} :
    ofText text = .ok program ↔ ∃ words, (Text.words text.toList).mapM readWord = .ok words ∧
      program = { words := words.toArray } := by
  unfold ofText
  split
  · next words hwords => simp [hwords, eq_comm]
  · next cause hcause => simp [hcause]

theorem ofText_eq_error_iff {text : String} {fault : Fault} :
    ofText text = .error fault ↔ ∃ cause, (Text.words text.toList).mapM readWord = .error cause ∧
      fault = ⟨cause, none⟩ := by
  unfold ofText
  split
  · next words hwords => simp [hwords]
  · next cause hcause => simp [hcause, eq_comm]

/-- The words of a text that is read are the numbers of its runs. -/
theorem forall₂_of_ofText {text : String} {program : Program} {runs : List (List Char)}
    (hruns : Text.words text.toList = runs) (h : ofText text = .ok program) :
    List.Forall₂ IsHexWord runs (program.words.toList.map UInt64.toNat) := by
  obtain ⟨words, hwords, rfl⟩ := ofText_eq_ok_iff.mp h
  rw [hruns] at hwords
  refine List.forall₂_map_right_iff.mpr ?_
  exact (Success.mapM_iff.mp hwords).imp fun _ _ hword => readWord_eq_ok_iff.mp hword

theorem exists_ofText_iff {text : String} {runs : List (List Char)}
    (hruns : Text.words text.toList = runs) :
    (∃ program, ofText text = .ok program) ↔ ∀ run ∈ runs, ∃ n, IsHexWord run n := by
  constructor
  · rintro ⟨program, h⟩ run hrun
    obtain ⟨words, hwords, -⟩ := ofText_eq_ok_iff.mp h
    obtain ⟨word, -, hword⟩ := Success.exists_mem_of_mapM hwords (hruns ▸ hrun)
    exact ⟨_, readWord_eq_ok_iff.mp hword⟩
  · intro h
    cases hresult : ofText text with
    | ok program => exact ⟨program, rfl⟩
    | error fault =>
        obtain ⟨cause, hcause, -⟩ := ofText_eq_error_iff.mp hresult
        obtain ⟨run, hrun, hfails⟩ := Failure.exists_mem_of_mapM hcause
        obtain ⟨word, hword⟩ := exists_readWord_iff.mpr (h run (hruns ▸ hrun))
        rw [hfails] at hword
        cases hword

theorem ofText_eq_error_iff_rejected {text : String} {fault : Fault} {runs : List (List Char)}
    (hruns : Text.words text.toList = runs) :
    ofText text = .error fault ↔ ∃ front run back cause, runs = front ++ run :: back ∧
      (∀ earlier ∈ front, ∃ n, IsHexWord earlier n) ∧ Rejected run cause ∧
      fault = ⟨cause, none⟩ := by
  rw [ofText_eq_error_iff, hruns]
  simp only [Failure.mapM_iff, exists_readWord_iff, readWord_eq_error_iff]
  constructor
  · rintro ⟨cause, ⟨front, run, back, hsplit, hfront, hrejected⟩, hfault⟩
    exact ⟨front, run, back, cause, hsplit, hfront, hrejected, hfault⟩
  · rintro ⟨front, run, back, cause, hsplit, hfront, hrejected, hfault⟩
    exact ⟨cause, ⟨front, run, back, hsplit, hfront, hrejected⟩, hfault⟩

/-- **A program text is accepted exactly if it is in its notation.** A text is read if each of its
runs is a word. Its words are then the numbers of the runs, no address has a line, and the text form
of the program is read as the same words. Otherwise the fault is for the first run that is no word,
whose want of a mark is told apart from what else it can lack, and it is in no line. -/
theorem ofText_iff (text : String) :
    ∃ runs, Text.Runs text.toList runs ∧ (∀ others, Text.Runs text.toList others → others = runs) ∧
      ((∃ program, ofText text = .ok program) ↔ ∀ run ∈ runs, ∃ n, IsHexWord run n) ∧
      (∀ program, ofText text = .ok program →
        (∀ ns, List.Forall₂ IsHexWord runs ns ↔ ns = program.words.toList.map UInt64.toNat) ∧
        (∀ address, program.lineFor address = none) ∧
        ∃ again, ofText program.text = .ok again ∧ again.words = program.words) ∧
      ∀ fault, ofText text = .error fault →
        ∃ front run back, runs = front ++ run :: back ∧
          (∀ earlier ∈ front, ∃ n, IsHexWord earlier n) ∧ (∀ n, ¬ IsHexWord run n) ∧
          fault.line = none ∧
          ((∀ numeral, ¬ Marked run numeral) ∧ fault.cause = .hexMark run ∧
              fault.code = .syntaxError ∨
            (∃ numeral, Marked run numeral) ∧ fault.cause = .hexDigits run ∧
              fault.code = .invalidArgument) := by
  refine ⟨Text.words text.toList, Text.runs_words _,
    fun others h => (Text.runs_iff_words.mp h).symm, exists_ofText_iff rfl,
    fun program h => ⟨fun ns => ?_, fun address => ?_, _, ofText_text program, rfl⟩,
    fun fault h => ?_⟩
  · have hvalues := forall₂_of_ofText rfl h
    refine ⟨fun hns => ?_, fun hns => hns ▸ hvalues⟩
    exact List.right_unique_forall₂' (fun _ _ _ hn hm => hn.unique hm) hns hvalues
  · obtain ⟨words, -, rfl⟩ := ofText_eq_ok_iff.mp h
    rfl
  · obtain ⟨front, run, back, cause, hsplit, hfront, hrejected, rfl⟩ :=
      (ofText_eq_error_iff_rejected rfl).mp h
    refine ⟨front, run, back, hsplit, hfront, hrejected.not_isHexWord, rfl, ?_⟩
    cases hrejected with
    | unmarked hmark => exact .inl ⟨hmark, rfl, rfl⟩
    | unreadable hmark _ => exact .inr ⟨⟨_, hmark⟩, rfl, rfl⟩

end CellAsm.Program
