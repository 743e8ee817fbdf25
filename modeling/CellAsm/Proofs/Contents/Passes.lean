import CellAsm.Assembler
import CellAsm.Proofs.Contents.Agree
import CellAsm.Proofs.Pass.ConstantLine

set_option autoImplicit false

/-! # Each pass looks at contents only

For every pass behind the comments there is one fact: on lines with the same contents it agrees with
itself. Tables of subroutines, constants and labels are equal then, since they hold names, numbers
and texts but no lines. The last fact of this kind is about encoding: the words are the same.
-/

namespace CellAsm

/-! ## Subroutines -/

namespace Subroutine

variable {line line' : Line} {lines lines' : List Line}

theorem marker_congr (h : line.contents = line'.contents) : Marker.of? line = Marker.of? line' := by
  rw [Marker.of?, Marker.of?, Line.code_congr h]

theorem agree_declare (table : Table) (h : SameLines lines lines') :
    Agree Fault.Alike Eq (declare table lines) (declare table lines') := by
  induction h generalizing table with
  | nil => exact .ok rfl
  | @cons line line' lines lines' hline _ ih =>
      rw [declare, declare, marker_congr hline, Line.code_congr hline]
      split_ifs
      · refine .bind (.check line line' (.refl _)) ?_
        rintro d _ rfl
        split_ifs
        · exact .inLine line line' _
        · exact ih (d :: table)
      · exact ih table

theorem sameLines_handOver (line line' : Line) (i : Nat) (arguments : List Token) :
    SameLines (handOver line i arguments) (handOver line' i arguments) := by
  induction arguments generalizing i with
  | nil => exact .nil
  | cons argument rest ih => exact .cons_withContents line line' _ (ih (i + 1))

theorem sameLines_call (line line' : Line) (n : Nat) (name : Token) (arguments : List Token) :
    SameLines (call line n name arguments) (call line' n name arguments) :=
  (sameLines_handOver line line' 0 arguments).append
    (.cons rfl (.cons rfl (.cons rfl .nil)))

theorem agree_callLines (table : Table) (h : line.contents = line'.contents) (n : Nat) :
    Agree Eq SameLines (callLines table line n) (callLines table line' n) := by
  rw [callLines, callLines, Line.code_congr h]
  refine .bind (.refl _) ?_
  rintro list _ rfl
  dsimp only
  cases table.find? (list.headD []) with
  | none => exact .error rfl
  | some d =>
      dsimp only
      split_ifs
      · exact .error rfl
      · exact .error rfl
      · exact .ok (sameLines_call line line' n _ _)

/-- Whether a body is open decides, but not the line that opened it. -/
theorem agree_expandMarkers (table : Table) (calls : Nat) {isOpen isOpen' : Option Line}
    (hopen : isOpen.isSome = isOpen'.isSome) (h : SameLines lines lines') :
    Agree Fault.Alike SameLines (expandMarkers table calls isOpen lines)
      (expandMarkers table calls isOpen' lines') := by
  induction h generalizing calls isOpen isOpen' with
  | nil =>
      cases isOpen with
      | none =>
          obtain rfl : isOpen' = none := Option.not_isSome_iff_eq_none.mp (by simp [← hopen])
          exact .ok .nil
      | some opened =>
          obtain ⟨opened', rfl⟩ := Option.isSome_iff_exists.mp hopen.symm
          exact .inLine opened opened' _
  | @cons line line' lines lines' hline hlines ih =>
      rw [expandMarkers, expandMarkers, marker_congr hline]
      cases Marker.of? line' with
      | none => exact .bind (ih calls hopen) fun rest rest' hrest => .ok (.cons hline hrest)
      | some marker =>
          cases marker with
          | call =>
              refine .bind (.check line line' (agree_callLines table hline calls)) ?_
              intro own own' hown
              exact .bind (ih (calls + 1) hopen) fun rest rest' hrest => .ok (hown.append hrest)
          -- a body may begin on both sides or on neither
          | start =>
              dsimp only
              rw [← hopen, Line.code_congr hline]
              split_ifs
              · exact .inLine line line' _
              · refine .bind (.check line line' (.refl _)) ?_
                rintro d _ rfl
                refine .bind (ih calls rfl) fun rest rest' hrest => ?_
                exact .ok (.cons_withContents line line' _ (.cons_withContents line line' _ hrest))
          | finish =>
              dsimp only
              rw [← Option.not_isSome, ← Option.not_isSome, hopen]
              split_ifs
              · exact .inLine line line' _
              · refine .bind (ih calls rfl) fun rest rest' hrest => ?_
                exact .ok (.cons_withContents line line' _ hrest)

/-- What is looked for by contents is found at the same place. -/
theorem find?_congr {p : Line → Bool}
    (hp : ∀ line line' : Line, line.contents = line'.contents → p line = p line')
    (h : SameLines lines lines') :
    Option.Rel (fun line line' => line.contents = line'.contents) (lines.find? p)
      (lines'.find? p) := by
  induction h with
  | nil => exact .none
  | @cons line line' lines lines' hline _ ih =>
      rw [List.find?_cons, List.find?_cons, hp line line' hline]
      cases p line' with
      | true => exact .some hline
      | false => exact ih

theorem agree_checkUnused (h : SameLines lines lines') :
    Agree Fault.Alike SameLines (checkUnused lines) (checkUnused lines') := by
  have hcall := find?_congr (p := fun line => mentionsCall line.contents.toList)
    (fun line line' hline => by rw [hline]) h
  have hfinish := find?_congr (p := fun line => Marker.of? line = some .finish)
    (fun line line' hline => by rw [marker_congr hline]) h
  rw [checkUnused, checkUnused]
  generalize lines.find? (fun line => mentionsCall line.contents.toList) = found at hcall ⊢
  generalize lines'.find? (fun line => mentionsCall line.contents.toList) = found' at hcall ⊢
  generalize lines.find? (fun line => Marker.of? line = some .finish) = ended at hfinish ⊢
  generalize lines'.find? (fun line => Marker.of? line = some .finish) = ended' at hfinish ⊢
  cases hcall with
  | some _ => exact .inLine _ _ _
  | none =>
      cases hfinish with
      | some _ => exact .inLine _ _ _
      | none => exact .ok h

theorem agree_expand (h : SameLines lines lines') :
    Agree Fault.Alike SameLines (expand lines) (expand lines') := by
  refine .bind (agree_declare [] h) ?_
  rintro table _ rfl
  split_ifs
  · exact agree_checkUnused h
  · refine .bind (agree_expandMarkers table 0 rfl h) fun body body' hbody => ?_
    exact .ok ((SameLines.refl _).append hbody)

end Subroutine

/-! ## Constants -/

namespace Constant

variable {policy policy' : Policy} {cells : Nat} {table : Table} {line line' : Line}
  {lines lines' : List Line}

theorem alike_process (hpolicy : policy.Alike policy') (line line' : Line) (name value : Token) :
    (process policy cells table line name value).Alike Eq
      (process policy' cells table line' name value) := by
  rw [process, process]
  have hdefine := Agree.check line line' (.refl (table.define cells name value))
  split_ifs
  · exact .fail line line' _
  · exact .bind (.warn hpolicy line line' _) fun _ _ _ => .ofExcept hdefine
  · exact .ofExcept hdefine

theorem alike_advance (hpolicy : policy.Alike policy') (h : line.contents = line'.contents) :
    (advance policy cells table line).Alike
      (fun step step' => step.1 = step'.1 ∧ SameLines step.2 step'.2)
      (advance policy' cells table line') := by
  rw [advance, advance, Line.tokens_congr h]
  cases Statement.ofTokens line'.tokens with
  | unfinished => exact .fail line line' _
  | overlong extra => exact .fail line line' _
  | definition name value =>
      refine .bind (alike_process hpolicy line line' name value) ?_
      rintro next _ rfl
      exact .pure ⟨rfl, .nil⟩
  | code tokens =>
      refine .bind (.ofExcept (.check line line' (.refl _))) ?_
      rintro resolved _ rfl
      exact .pure ⟨rfl, .cons_withContents line line' _ .nil⟩

theorem alike_replaceFrom (hpolicy : policy.Alike policy') (h : SameLines lines lines') :
    (replaceFrom policy cells table lines).Alike SameLines
      (replaceFrom policy' cells table lines') := by
  induction h generalizing policy policy' table with
  | nil => exact .pure .nil
  | @cons line line' _ _ hline _ ih =>
      rw [replaceFrom_cons, replaceFrom_cons]
      have hadvance : (advance policy cells table line).Alike _
          (advance policy' cells table line') := alike_advance hpolicy hline
      refine hadvance.bind ?_
      rintro ⟨next, own⟩ ⟨_, own'⟩ ⟨rfl, hown⟩
      exact .bind (ih (hpolicy.after hadvance.warnings)) fun rest rest' hrest =>
        .pure (hown.append hrest)

end Constant

/-! ## Labels and characters -/

namespace Label.Table

variable {table : Table} {lines lines' : List Line}

theorem agree_enterLines (h : SameLines lines lines') :
    Agree Fault.Alike Eq (table.enterLines lines) (table.enterLines lines') := by
  induction h generalizing table with
  | nil => exact .ok rfl
  | @cons line line' lines lines' hline _ ih =>
      rw [enterLines, enterLines, Line.tokens_congr hline]
      refine .bind (.check line line' (.refl _)) ?_
      rintro next _ rfl
      exact ih

theorem agree_replaceLines (h : SameLines lines lines') :
    Agree Fault.Alike SameLines (table.replaceLines lines) (table.replaceLines lines') := by
  induction h with
  | nil => exact .ok .nil
  | @cons line line' lines lines' hline _ ih =>
      rw [replaceLines, replaceLines, Line.tokens_congr hline]
      refine .bind (.check line line' (.refl _)) ?_
      rintro tokens _ rfl
      refine .bind ih fun rest rest' hrest => .ok ?_
      split_ifs
      · exact hrest
      · exact .cons_withContents line line' _ hrest

end Label.Table

theorem Label.agree_replace {lines lines' : List Line} (h : SameLines lines lines') :
    Agree Fault.Alike SameLines (replace lines) (replace lines') := by
  refine .bind (Table.agree_enterLines h) ?_
  rintro table _ rfl
  exact Table.agree_replaceLines h

theorem Character.agree_replace {lines lines' : List Line} (h : SameLines lines lines') :
    Agree Fault.Alike SameLines (replace lines) (replace lines') := by
  refine .mapM (h.imp fun line line' hline => ?_)
  rw [replaceLine, replaceLine, hline]
  refine .bind (.check line line' (.refl _)) ?_
  rintro tokens _ rfl
  exact .ok rfl

/-! ## The passes behind the comments -/

namespace Pass

variable {assembler : Assembler} {lines lines' : List Line}

theorem alike_apply (hpolicy : assembler.policy.Alike assembler.policy) {pass : Pass}
    (himports : pass ≠ .imports) (hcomments : pass ≠ .comments) (h : SameLines lines lines') :
    (pass.apply assembler lines).Alike SameLines (pass.apply assembler lines') := by
  cases pass with
  | imports => exact absurd rfl himports
  | comments => exact absurd rfl hcomments
  | subroutines => exact .ofExcept (Subroutine.agree_expand h)
  | constants => exact Constant.alike_replaceFrom hpolicy h
  | labels => exact .ofExcept (Label.agree_replace h)
  | characters => exact .ofExcept (Character.agree_replace h)

theorem alike_applyAll (hpolicy : assembler.policy.Alike assembler.policy) {passes : List Pass}
    (himports : .imports ∉ passes) (hcomments : .comments ∉ passes) (h : SameLines lines lines') :
    (applyAll assembler passes lines).Alike SameLines (applyAll assembler passes lines') := by
  induction passes generalizing lines lines' with
  | nil => exact .pure h
  | cons pass passes ih =>
      have hpass : pass ≠ .imports := (List.ne_of_not_mem_cons himports).symm
      have hpass' : pass ≠ .comments := (List.ne_of_not_mem_cons hcomments).symm
      refine .bind (alike_apply hpolicy hpass hpass' h) fun next next' hnext => ?_
      exact ih (List.not_mem_of_not_mem_cons himports) (List.not_mem_of_not_mem_cons hcomments)
        hnext

end Pass

/-! ## Encoding -/

namespace Listing

/-- Listings with the same instructions. -/
abbrev SameInstructions (listing listing' : Listing) : Prop :=
  listing.map Prod.snd = listing'.map Prod.snd

theorem agree_ofLine {line line' : Line} (h : line.contents = line'.contents) :
    Agree Fault.Alike SameInstructions (ofLine line) (ofLine line') := by
  rw [ofLine, ofLine, Line.tokens_congr h]
  refine .bind (.check line line' (.refl _)) ?_
  rintro instructions _ rfl
  refine .ok ?_
  rw [SameInstructions, List.map_map, List.map_map]
  rfl

theorem agree_ofLines {lines lines' : List Line} (h : SameLines lines lines') :
    Agree Fault.Alike SameInstructions (ofLines lines) (ofLines lines') := by
  induction h with
  | nil => exact .ok rfl
  | cons hline _ ih =>
      refine .bind (agree_ofLine hline) fun first first' hfirst => ?_
      refine .bind ih fun rest rest' hrest => .ok ?_
      rw [SameInstructions, List.map_append, List.map_append, hfirst, hrest]

end Listing

/-- The words of a program do not depend on where its lines stand. -/
theorem Program.agree_ofLines {lines lines' : List Line} (h : SameLines lines lines') :
    Agree Fault.Alike (fun program program' => program.words = program'.words)
      (ofLines lines) (ofLines lines') := by
  refine (Listing.agree_ofLines h).map fun listing listing' hsame => ?_
  have hwords : ∀ listing : Listing, (listing.flatMap fun entry => entry.2.words)
      = (listing.map Prod.snd).flatMap Instruction.words :=
    fun listing => (List.flatMap_map Prod.snd Instruction.words listing).symm
  rw [ofListing, ofListing, hwords, hwords, hsame]

end CellAsm
