import CellAsm.Proofs.Pass.Plain
import CellAsm.Proofs.Program.Emission

set_option autoImplicit false

/-! # From expanded lines to code

When subroutines have been expanded, the rest of assembling carries two things from line to line:
the constants defined so far and the address. `Compiles labels cells start table lines last
listing` says that plain lines which begin at the address `start` with the constants `table` are
assembled to `listing`, leave the constants `last`, and that the labels defined in them stand for
their addresses. It is cut where the lines are cut (`Compiles.append_inv`), so a statement about
a program is put together from statements about single lines (`Compiles.of_code`).
-/

namespace CellAsm

/-! ## Labels at their addresses -/

/-- Every label that lines define, the first of them at address `start`, stands for its
address. -/
def Label.Table.Locates (labels : Label.Table) (start : Nat) (lines : List Line) : Prop :=
  ∀ before token after name, stream lines = before ++ token :: after →
    ofToken? token = some (.definition name) → labels.address? name = some (start + width before)

namespace Label.Table.Locates

variable {labels : Label.Table} {start : Nat} {lines more : List Line}

theorem of_enterLines (h : ({} : Label.Table).enterLines lines = .ok labels) :
    labels.Locates 0 lines := by
  intro before token after name hsplit htoken
  rw [Nat.zero_add]
  exact address?_of_enterLines h hsplit htoken

theorem of_append (h : labels.Locates start (lines ++ more)) :
    labels.Locates start lines ∧ labels.Locates (start + width (stream lines)) more := by
  refine ⟨fun before token after name hsplit htoken => ?_,
    fun before token after name hsplit htoken => ?_⟩
  · refine h before token (after ++ stream more) name ?_ htoken
    rw [stream_append, hsplit, List.append_assoc, List.cons_append]
  · have haddress := h (stream lines ++ before) token after name
      (by rw [stream_append, hsplit, List.append_assoc]) htoken
    rwa [width_append, ← Nat.add_assoc] at haddress

end Label.Table.Locates

/-! ## Lines of code -/

/-- Plain lines at the address `start`, with the constants `table` in front of them, are assembled
to `listing` and leave the constants `last`. -/
structure Compiles (labels : Label.Table) (cells start : Nat) (table : Constant.Table)
    (lines : List Line) (last : Constant.Table) (listing : Listing) : Prop where
  plainTable : table.IsPlain
  plainLines : ∀ line ∈ lines, line.IsPlain
  stages : ∃ kept, Constant.Substitutes cells .strict table lines last kept ∧
    labels.Generates kept listing ∧ labels.Locates start kept

namespace Compiles

variable {labels : Label.Table} {cells start : Nat} {table last : Constant.Table}
  {lines more : List Line} {line : Line} {listing : Listing}

/-- What is assembled is cut where the lines are cut; the second part begins at the address after
the first. -/
theorem append_inv (h : Compiles labels cells start table (lines ++ more) last listing) :
    ∃ next front back, Compiles labels cells start table lines next front ∧
      Compiles labels cells (start + front.size) next more last back ∧
      listing = front ++ back := by
  obtain ⟨hlines, hmore⟩ := List.forall_mem_append.mp h.plainLines
  obtain ⟨kept, hkept, hgenerates, hlocates⟩ := h.stages
  obtain ⟨next, keptFront, keptBack, hfront, hback, rfl⟩ := hkept.append_inv
  obtain ⟨front, back, hgenFront, hgenBack, rfl⟩ := hgenerates.of_append
  obtain ⟨hlocFront, hlocBack⟩ := hlocates.of_append
  obtain ⟨hnext, hplainFront⟩ := hfront.isPlain h.plainTable hlines
  have hsize : front.size = Label.width (Label.Table.stream keptFront) :=
    hgenFront.size_eq_width fun line hline =>
      Label.Table.separates_of_isPlain (hplainFront line hline)
  refine ⟨next, front, back, ⟨h.plainTable, hlines, keptFront, hfront, hgenFront, hlocFront⟩,
    ⟨hnext, hmore, keptBack, hback, hgenBack, ?_⟩, rfl⟩
  rwa [hsize]

theorem cons_inv (h : Compiles labels cells start table (line :: lines) last listing) :
    ∃ next front back, Compiles labels cells start table [line] next front ∧
      Compiles labels cells (start + front.size) next lines last back ∧
      listing = front ++ back := by
  rw [← List.singleton_append] at h
  exact h.append_inv

/-- What a constant stands for is the same in all lines after it. -/
theorem valueOf_eq (h : Compiles labels cells start table lines last listing)
    {name value : Token} (hvalue : table.valueOf name = .ok value) :
    last.valueOf name = .ok value := by
  obtain ⟨kept, hkept, -⟩ := h.stages
  exact hkept.valueOf_eq hvalue

/-- **A line that defines no constant is assembled token by token**: its constants are replaced,
then its labels, and the instructions are read from what is left. -/
theorem of_code (h : Compiles labels cells start table [line] last listing)
    (hcode : Constant.Statement.ofTokens line.tokens = .code line.tokens) :
    last = table ∧ ∃ resolved instructions, line.tokens.mapM table.resolve = .ok resolved ∧
      Instruction.parse (resolved.filterMap labels.kept?) = .ok instructions ∧
      listing.words = instructions.flatMap Instruction.words ∧
      ∀ before token after name, resolved = before ++ token :: after →
        Label.ofToken? token = some (.definition name) →
        labels.address? name = some (start + Label.width before) := by
  have hplain := h.plainLines line List.mem_cons_self
  obtain ⟨kept, hkept, hgenerates, hlocates⟩ := h.stages
  cases hkept with
  | definition hline => rw [hcode] at hline; cases hline
  | @code _ _ _ _ tokens resolved _ _ hline hresolved hnil =>
      obtain rfl := Constant.Statement.tokens_of_code hline
      cases hnil
      have hresolvedPlain :=
        h.plainTable.mapM_resolve (fun token htoken => hplain.token htoken) hresolved
      have htokens : (line.withContents (Token.join resolved)).tokens = resolved :=
        Line.tokens_withContents_join hresolvedPlain
      obtain ⟨instructions, hparse, hwords⟩ :=
        hgenerates.of_plain (Line.isPlain_withContents_join hresolvedPlain)
      rw [htokens] at hparse
      refine ⟨rfl, resolved, instructions, hresolved, hparse, hwords, ?_⟩
      intro before token after name hsplit htoken
      refine hlocates before token after name ?_ htoken
      rw [Label.Table.stream_cons, Label.Table.stream_nil, List.append_nil, htokens, hsplit]

end Compiles

end CellAsm
