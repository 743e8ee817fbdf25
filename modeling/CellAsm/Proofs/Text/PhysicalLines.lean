import CellAsm.Proofs.Token.Rejoin

set_option autoImplicit false

/-! # Cutting a text into the lines it was put together from

Lines that hold no line feed and do not end with a carriage return are found again in the text
that they are written to, whether every line is ended by a line feed (`physicalLines_ended`) or
the lines are separated by line feeds (`physicalLines_separated`).
-/

namespace CellAsm.Text

/-- A line that is found again when it is written to a text. -/
@[mk_iff]
structure IsPhysical (line : List Char) : Prop where
  no_lineFeed : '\n' ∉ line
  no_return : line.getLast? ≠ some '\r'

/-- The only blanks of joined tokens are the spaces between them. -/
theorem isPhysical_join {tokens : List Token}
    (h : ∀ token ∈ tokens, ∀ c ∈ token, isBlank c = false) : IsPhysical (Token.join tokens) := by
  have hblank : ∀ c, isBlank c = true → c ≠ ' ' → c ∉ Token.join tokens := by
    intro c hc hne hmem
    rcases Token.mem_join hmem with hspace | ⟨token, htoken, hmem⟩
    · exact hne hspace
    · rw [h token htoken c hmem] at hc
      cases hc
  exact ⟨hblank '\n' (by decide) (by decide),
    fun hlast => hblank '\r' (by decide) (by decide) (List.mem_of_getLast? hlast)⟩

theorem physicalLines_lineFeed (s : List Char) :
    physicalLines ('\n' :: s) = [] :: physicalLines s := by
  rw [physicalLines]

/-- A character that begins no line end belongs to the first line. -/
theorem physicalLines_cons {c : Char} {s line : List Char} {lines : List (List Char)}
    (hc : c ≠ '\n') (hreturn : c = '\r' → s.head? ≠ some '\n')
    (h : physicalLines s = line :: lines) : physicalLines (c :: s) = (c :: line) :: lines := by
  rw [physicalLines, h]
  · rintro t rfl rfl
    exact hreturn rfl rfl
  · exact hc

theorem IsPhysical.tail {c : Char} {line : List Char} (h : IsPhysical (c :: line)) :
    IsPhysical line := by
  refine ⟨fun hmem => h.no_lineFeed (List.mem_cons_of_mem c hmem), fun hlast => ?_⟩
  rw [List.getLast?_eq_some_iff] at hlast
  obtain ⟨front, rfl⟩ := hlast
  exact h.no_return (List.getLast?_concat (l := c :: front))

/-- A line that is ended by a line feed is cut off. -/
theorem physicalLines_append_lineFeed {line : List Char} (h : IsPhysical line) (s : List Char) :
    physicalLines (line ++ '\n' :: s) = line :: physicalLines s := by
  induction line with
  | nil => exact physicalLines_lineFeed s
  | cons c line ih =>
      have hc : c ≠ '\n' := by
        rintro rfl
        exact h.no_lineFeed List.mem_cons_self
      refine physicalLines_cons hc ?_ (ih h.tail)
      -- a carriage return is not the last character of the line, so no line feed follows
      rintro rfl
      cases line with
      | nil => exact absurd rfl h.no_return
      | cons d line =>
          rintro hd
          obtain rfl := Option.some.inj hd
          exact h.no_lineFeed (List.mem_cons_of_mem _ List.mem_cons_self)

/-- The last line needs no line feed, unless it is empty. -/
theorem physicalLines_of_notMem {line : List Char} (h : '\n' ∉ line) (hne : line ≠ []) :
    physicalLines line = [line] := by
  induction line with
  | nil => exact absurd rfl hne
  | cons c line ih =>
      obtain ⟨hc, hline⟩ := not_or.mp (mt List.mem_cons.mpr h)
      cases line with
      | nil => rw [physicalLines] <;> simp [physicalLines, Ne.symm hc]
      | cons d line =>
          refine physicalLines_cons (Ne.symm hc) (fun _ hd => ?_)
            (ih hline (List.cons_ne_nil d line))
          obtain rfl := Option.some.inj hd
          exact hline List.mem_cons_self

/-- **Lines that are ended by line feeds are found again.** -/
theorem physicalLines_ended {lines : List (List Char)} (h : ∀ line ∈ lines, IsPhysical line) :
    physicalLines (lines.flatMap (· ++ ['\n'])) = lines := by
  induction lines with
  | nil => rfl
  | cons line lines ih =>
      obtain ⟨hline, hlines⟩ := List.forall_mem_cons.mp h
      rw [List.flatMap_cons, List.append_assoc, List.singleton_append,
        physicalLines_append_lineFeed hline, ih hlines]

/-- **Lines that are separated by line feeds are found again**, if none is empty. -/
theorem physicalLines_separated {lines : List (List Char)} (h : ∀ line ∈ lines, IsPhysical line)
    (hne : ∀ line ∈ lines, line ≠ []) : physicalLines (['\n'].intercalate lines) = lines := by
  induction lines with
  | nil => rfl
  | cons line lines ih =>
      obtain ⟨hline, hlines⟩ := List.forall_mem_cons.mp h
      obtain ⟨hfirst, hrest⟩ := List.forall_mem_cons.mp hne
      cases lines with
      | nil =>
          rw [List.intercalate_singleton]
          exact physicalLines_of_notMem hline.no_lineFeed hfirst
      | cons next lines =>
          rw [List.intercalate_cons_cons, List.append_assoc, List.singleton_append,
            physicalLines_append_lineFeed hline, ih hlines hrest]

/-- The characters of lines that are ended by line feeds. -/
theorem toList_join_ended (texts : List String) :
    (String.join (texts.map (· ++ "\n"))).toList
      = (texts.map String.toList).flatMap (· ++ ['\n']) := by
  rw [String.toList_join, List.flatMap_map, List.flatMap_map]
  simp only [String.toList_append]
  rfl

end CellAsm.Text

namespace CellAsm.Line

theorem map_contents_numberedFrom (first : Nat) (file : String) (texts : List (List Char)) :
    (numberedFrom first file texts).map contents = texts.map String.ofList := by
  induction texts generalizing first with
  | nil => rfl
  | cons text texts ih => rw [numberedFrom, List.map_cons, List.map_cons, ih, typed]

theorem map_tokens_ofText (file text : String) :
    (ofText file text).map tokens = (Text.physicalLines text.toList).map Token.scan := by
  have htokens : tokens = Token.scan ∘ String.toList ∘ contents := rfl
  rw [htokens, ofText, ← List.map_map, ← List.map_map, map_contents_numberedFrom, List.map_map,
    List.map_map]
  simp only [Function.comp_def, String.toList_ofList]

end CellAsm.Line
