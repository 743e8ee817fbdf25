import CellAsm.Proofs.Pass.Label
import CellAsm.Proofs.Program.Encoding

set_option autoImplicit false

/-! # What lines generate

Once the table of labels is filled, the rest of assembling goes line by line: references are
replaced, then literals, then the instructions are encoded. `Generates labels lines listing` says
that lines in front of the label pass end as the instructions `listing`. It is compositional
(`Generates.of_append`), so the program can be cut where its source is cut, and a line generates
the instructions of its tokens, replaced one by one (`Generates.of_singleton`).
-/

namespace CellAsm

namespace Listing

/-- The words of a listing. -/
def words (listing : Listing) : List UInt64 := listing.flatMap fun entry => entry.2.words

/-- The number of words of a listing. -/
def size (listing : Listing) : Nat := listing.words.length

@[simp] theorem words_append (listing more : Listing) :
    words (listing ++ more) = words listing ++ words more :=
  List.flatMap_append

@[simp] theorem size_append (listing more : Listing) :
    size (listing ++ more) = size listing + size more := by
  simp [size]

theorem words_map_pair (line : Line) (instructions : List Instruction) :
    words (instructions.map fun instruction => (line, instruction))
      = instructions.flatMap Instruction.words := by
  rw [words, List.flatMap_map]

theorem ofLines_append_eq_ok {lines more : List Line} {listing : Listing}
    (h : ofLines (lines ++ more) = .ok listing) :
    ∃ front back, ofLines lines = .ok front ∧ ofLines more = .ok back ∧
      listing = front ++ back := by
  induction lines generalizing listing with
  | nil => exact ⟨[], listing, rfl, h, rfl⟩
  | cons line lines ih =>
      rw [List.cons_append, ofLines] at h
      obtain ⟨first, hfirst, h⟩ := Success.bind_iff.mp h
      obtain ⟨rest, hrest, h⟩ := Success.bind_iff.mp h
      obtain rfl := Success.pure_iff.mp h
      obtain ⟨front, back, hfront, hback, rfl⟩ := ih hrest
      refine ⟨first ++ front, back, ?_, hback, (List.append_assoc _ _ _).symm⟩
      rw [ofLines]
      exact Success.bind_iff.mpr ⟨first, hfirst, Success.bind_iff.mpr ⟨front, hfront, rfl⟩⟩

end Listing

@[simp] theorem Program.toList_words_ofListing (listing : Listing) :
    (Program.ofListing listing).words.toList = listing.words := by
  rw [Program.ofListing, List.toList_toArray, Listing.words]

namespace Label.Table

theorem replaceLines_append_eq_ok {table : Table} {lines more kept : List Line}
    (h : table.replaceLines (lines ++ more) = .ok kept) :
    ∃ front back, table.replaceLines lines = .ok front ∧ table.replaceLines more = .ok back ∧
      kept = front ++ back := by
  induction lines generalizing kept with
  | nil => exact ⟨[], kept, rfl, h, rfl⟩
  | cons line lines ih =>
      rw [List.cons_append, replaceLines] at h
      obtain ⟨tokens, htokens, h⟩ := Success.bind_iff.mp h
      obtain ⟨rest, hrest, h⟩ := Success.bind_iff.mp h
      obtain rfl := Success.pure_iff.mp h
      obtain ⟨front, back, hfront, hback, rfl⟩ := ih hrest
      refine ⟨if tokens = [] then front
        else line.withContents (Token.join tokens) :: front, back, ?_, hback, ?_⟩
      · rw [replaceLines]
        exact Success.bind_iff.mpr ⟨tokens, htokens, Success.bind_iff.mpr ⟨front, hfront, rfl⟩⟩
      · split
        · rfl
        · rfl

/-- Lines in front of the label pass end as the instructions of a listing. -/
def Generates (labels : Table) (lines : List Line) (listing : Listing) : Prop :=
  ∃ kept coded, labels.replaceLines lines = .ok kept ∧ Character.replace kept = .ok coded ∧
    Listing.ofLines coded = .ok listing

/-- The tokens that remain of a line are not joined to a space literal. -/
def Separates (labels : Table) (line : Line) : Prop :=
  ∀ kept, labels.replaceTokens line.tokens = .ok kept → Token.IsSeparated kept

namespace Generates

variable {labels : Table} {lines more : List Line} {line : Line} {listing : Listing}

theorem nil_iff : labels.Generates [] listing ↔ listing = [] := by
  constructor
  · rintro ⟨kept, coded, hkept, hcoded, hlisting⟩
    injection hkept with hkept
    subst hkept
    obtain rfl := Success.pure_iff.mp hcoded
    injection hlisting with hlisting
    exact hlisting.symm
  · rintro rfl
    exact ⟨[], [], rfl, rfl, rfl⟩

/-- What a stretch of lines generates is cut where the lines are cut. -/
theorem of_append (h : labels.Generates (lines ++ more) listing) :
    ∃ front back, labels.Generates lines front ∧ labels.Generates more back ∧
      listing = front ++ back := by
  obtain ⟨kept, coded, hkept, hcoded, hlisting⟩ := h
  obtain ⟨keptFront, keptBack, hkeptFront, hkeptBack, rfl⟩ := replaceLines_append_eq_ok hkept
  rw [Character.replace, List.mapM_append] at hcoded
  obtain ⟨codedFront, hcodedFront, hcoded⟩ := Success.bind_iff.mp hcoded
  obtain ⟨codedBack, hcodedBack, hcoded⟩ := Success.bind_iff.mp hcoded
  obtain rfl := Success.pure_iff.mp hcoded
  obtain ⟨front, back, hfront, hback, rfl⟩ := Listing.ofLines_append_eq_ok hlisting
  exact ⟨front, back, ⟨keptFront, codedFront, hkeptFront, hcodedFront, hfront⟩,
    ⟨keptBack, codedBack, hkeptBack, hcodedBack, hback⟩, rfl⟩

theorem of_cons (h : labels.Generates (line :: lines) listing) :
    ∃ front back, labels.Generates [line] front ∧ labels.Generates lines back ∧
      listing = front ++ back := by
  rw [← List.singleton_append] at h
  exact of_append h

/-- The instructions of one line are those of its tokens, replaced one by one. -/
theorem of_singleton (hsep : labels.Separates line) (h : labels.Generates [line] listing) :
    ∃ kept codes instructions, labels.replaceTokens line.tokens = .ok kept ∧
      List.Forall₂ (fun token code => Character.replaceToken token = .ok code) kept codes ∧
      Instruction.parse codes = .ok instructions ∧
      listing.words = instructions.flatMap Instruction.words := by
  obtain ⟨keptLines, coded, hkept, hcoded, hlisting⟩ := h
  rw [replaceLines] at hkept
  obtain ⟨kept, htokens, hkept⟩ := Success.bind_iff.mp hkept
  rw [Success.check_iff] at htokens
  obtain ⟨rest, hrest, hkept⟩ := Success.bind_iff.mp hkept
  obtain rfl := Success.pure_iff.mp hkept
  injection hrest with hrest
  subst hrest
  by_cases hempty : kept = []
  · -- the line is dropped
    rw [if_pos hempty] at hcoded
    obtain rfl := Success.pure_iff.mp hcoded
    injection hlisting with hlisting
    subst hempty hlisting
    exact ⟨[], [], [], htokens, .nil, Instruction.parse_nil, rfl⟩
  · rw [if_neg hempty, Character.replace, Success.mapM_iff] at hcoded
    cases hcoded with
    | cons hline hnone =>
        cases hnone
        -- the kept tokens are joined, replaced and read again as one line
        obtain ⟨codes, hcodes, hcoded⟩ :=
          Character.replaceLine_join (isProper_of_mem_kept htokens) (hsep kept htokens) hline
        rw [Listing.ofLines] at hlisting
        obtain ⟨first, hfirst, hlisting⟩ := Success.bind_iff.mp hlisting
        obtain ⟨last, hlast, hlisting⟩ := Success.bind_iff.mp hlisting
        obtain rfl := Success.pure_iff.mp hlisting
        injection hlast with hlast
        subst hlast
        rw [Listing.ofLine] at hfirst
        obtain ⟨instructions, hparse, hfirst⟩ := Success.bind_iff.mp hfirst
        obtain rfl := Success.pure_iff.mp hfirst
        rw [Success.check_iff, hcoded] at hparse
        exact ⟨kept, codes, instructions, htokens, hcodes, hparse, by
          rw [List.append_nil, Listing.words_map_pair]⟩

end Generates

end Label.Table

end CellAsm
