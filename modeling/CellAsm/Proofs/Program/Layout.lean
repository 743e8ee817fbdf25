import CellAsm.Proofs.Program.Generation

set_option autoImplicit false

/-! # Words at an address

`Program.HasAt program address words` says which words stand at an address. A listing stands in
the program behind the listings before it (`Program.hasAt_ofListing`), and a list of words can be
followed part by part (`Program.hasAt_append`).
-/

namespace CellAsm

namespace Program

/-- The words at an address and after it. -/
def HasAt (program : Program) (address : Nat) (words : List UInt64) : Prop :=
  words <+: program.words.toList.drop address

instance (program : Program) (address : Nat) (words : List UInt64) :
    Decidable (program.HasAt address words) :=
  inferInstanceAs (Decidable (words <+: program.words.toList.drop address))

variable {program : Program} {address : Nat} {words more : List UInt64} {word : UInt64}

theorem hasAt_append :
    program.HasAt address (words ++ more) ↔
      program.HasAt address words ∧ program.HasAt (address + words.length) more := by
  unfold HasAt
  rw [← List.drop_drop]
  constructor
  · intro h
    obtain ⟨rest, hrest⟩ := h
    rw [List.append_assoc] at hrest
    rw [← hrest, List.drop_left]
    exact ⟨List.prefix_append _ _, List.prefix_append _ _⟩
  · rintro ⟨⟨rest, hrest⟩, hmore⟩
    rw [← hrest, List.drop_left] at hmore
    rw [← hrest]
    exact List.prefix_append_right_inj _ |>.mpr hmore

theorem HasAt.word? (h : program.HasAt address (word :: words)) :
    program.word? address = some word := by
  obtain ⟨rest, hrest⟩ := h
  rw [Program.word?, ← Array.getElem?_toList, ← List.head?_drop, ← hrest]
  rfl

theorem HasAt.lt_size (h : program.HasAt address (word :: words)) : address < program.size := by
  obtain ⟨hlt, -⟩ := Array.getElem?_eq_some_iff.mp h.word?
  exact hlt

theorem HasAt.tail (h : program.HasAt address (word :: words)) :
    program.HasAt (address + 1) words := by
  have happend : program.HasAt address ([word] ++ words) := h
  exact (hasAt_append.mp happend).2

/-- Any of the words at an address. -/
theorem HasAt.word?_add (h : program.HasAt address words) {i : Nat} (hword : words[i]? = some word) :
    program.word? (address + i) = some word := by
  obtain ⟨rest, hrest⟩ := h
  rw [Program.word?, ← Array.getElem?_toList, ← List.getElem?_drop, ← hrest]
  exact (List.getElem?_append_left (List.getElem?_eq_some_iff.mp hword).1).trans hword

/-- The code of a part of a listing stands behind the code of the parts before it. -/
theorem hasAt_ofListing (front code back : Listing) :
    (Program.ofListing (front ++ code ++ back)).HasAt front.size code.words := by
  unfold HasAt
  rw [toList_words_ofListing, Listing.words_append, Listing.words_append, List.append_assoc,
    Listing.size, List.drop_left]
  exact List.prefix_append _ _

end Program

end CellAsm
