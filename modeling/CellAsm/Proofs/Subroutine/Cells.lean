import CellAsm.Proofs.Program.Compiled

set_option autoImplicit false

/-! # The shared cells

The preamble of a program with subroutines allocates the cells that calls and bodies share: cell 0
for the result, cell 1 for the return address and the cells after them for the arguments. It
comes first, so these numbers do not depend on the program (`shares_of_compiles`), and under the
strict policy no line of the program can give the names another meaning (`Shares.of_compiles`).
-/

namespace CellAsm.Subroutine

/-- The name of the constant for an argument. -/
def argumentName (i : Nat) : Token := "arg".toList ++ Text.decimal i

/-- The cell that holds the return address. -/
def jumpBackCell : Nat := 1

/-- The cell that holds an argument. -/
def argumentCell (i : Nat) : Nat := 2 + i

/-- The names of the shared cells in their order. -/
def sharedNames (arity : Nat) : List Token :=
  ["return".toList, "jump_back".toList] ++ (List.range arity).map argumentName

/-- The constants of the shared cells stand for their cells. -/
structure Shares (table : Constant.Table) (arity cells : Nat) : Prop where
  result : table.valueOf "return".toList = .ok (Constant.cell 0)
  jumpBack : table.valueOf "jump_back".toList = .ok (Constant.cell jumpBackCell)
  argument : ∀ i < arity, table.valueOf (argumentName i) = .ok (Constant.cell (argumentCell i))
  fits : arity + 2 ≤ cells

/-- The characters of a shared name. -/
theorem mem_sharedName {arity : Nat} {name : Token} (hname : name ∈ sharedNames arity) {c : Char}
    (hc : c ∈ name) : c ∈ "returnjump_backarg".toList ∨ c.isDigit = true := by
  rcases List.mem_append.mp hname with hname | hname
  · have hreturn : ∀ c ∈ "return".toList, c ∈ "returnjump_backarg".toList :=
      List.all_iff_forall_prop.mp (by decide)
    have hjumpBack : ∀ c ∈ "jump_back".toList, c ∈ "returnjump_backarg".toList :=
      List.all_iff_forall_prop.mp (by decide)
    simp only [List.mem_cons, List.not_mem_nil, or_false] at hname
    rcases hname with rfl | rfl
    · exact .inl (hreturn c hc)
    · exact .inl (hjumpBack c hc)
  · obtain ⟨i, -, rfl⟩ := List.mem_map.mp hname
    rcases List.mem_append.mp hc with hc | hc
    · have hargument : ∀ c ∈ "arg".toList, c ∈ "returnjump_backarg".toList :=
        List.all_iff_forall_prop.mp (by decide)
      exact .inl (hargument c hc)
    · exact .inr (Text.isDigit_of_mem_decimal hc)

theorem ne_nil_of_mem_sharedNames {arity : Nat} : ∀ name ∈ sharedNames arity, name ≠ [] := by
  intro name hname
  rcases List.mem_append.mp hname with hname | hname
  · simp only [List.mem_cons, List.not_mem_nil, or_false] at hname
    rcases hname with rfl | rfl <;> decide
  · obtain ⟨i, -, rfl⟩ := List.mem_map.mp hname
    simp [argumentName]

theorem argumentName_injective : Function.Injective argumentName := fun _ _ h =>
  Text.decimal_injective (List.append_cancel_left h)

/-- No two shared cells have one name. -/
theorem nodup_sharedNames (arity : Nat) : (sharedNames arity).Nodup := by
  refine List.nodup_append'.mpr ⟨by decide, List.nodup_range.map argumentName_injective, ?_⟩
  intro name hname hargument
  obtain ⟨i, -, rfl⟩ := List.mem_map.mp hargument
  have hhead : (argumentName i).head? = some 'a' := rfl
  simp only [List.mem_cons, List.not_mem_nil, or_false] at hname
  rcases hname with hname | hname
  · rw [hname] at hhead; exact absurd hhead (by decide)
  · rw [hname] at hhead; exact absurd hhead (by decide)

theorem isBlank_of_mem_sharedNames {arity : Nat} :
    ∀ name ∈ sharedNames arity, ∀ c ∈ name, Text.isBlank c = false := by
  have hletters : ∀ c ∈ "returnjump_backarg".toList, Text.isBlank c = false :=
    List.all_iff_forall_prop.mp (by decide)
  intro name hname c hc
  rcases mem_sharedName hname hc with hc | hc
  · exact hletters c hc
  · exact Text.isBlank_of_isDigit hc

theorem preamble_eq (arity : Nat) :
    preamble arity
      = Line.numberedFrom 1 preambleFile ((sharedNames arity).map Constant.allocationText) := by
  have hargument : ∀ i : Nat,
      (s!"$arg{i}" ++ " = [_]").toList = Constant.allocationText (argumentName i) := by
    intro i
    simp [Constant.allocationText, argumentName, Text.decimal, toString, Nat.repr]
  have hnames : (sharedNames arity).map Constant.allocationText
      = [("$return" ++ " = [_]").toList, ("$jump_back" ++ " = [_]").toList]
        ++ (List.range arity).map fun i => (s!"$arg{i}" ++ " = [_]").toList := by
    rw [sharedNames, List.map_append, List.map_map]
    congr 1
    exact List.map_congr_left fun i _ => (hargument i).symm
  rw [hnames]
  rfl

theorem isPlain_numberedFrom {first : Nat} {file : String} {texts : List (List Char)}
    (h : ∀ text ∈ texts, '\'' ∉ text) :
    ∀ line ∈ Line.numberedFrom first file texts, line.IsPlain := by
  induction texts generalizing first with
  | nil => simp [Line.numberedFrom]
  | cons text texts ih =>
      obtain ⟨htext, htexts⟩ := List.forall_mem_cons.mp h
      rw [Line.numberedFrom, List.forall_mem_cons]
      refine ⟨?_, ih htexts⟩
      rwa [Line.IsPlain, Line.typed, String.toList_ofList]

theorem isPlain_preamble (arity : Nat) : ∀ line ∈ preamble arity, line.IsPlain := by
  rw [preamble_eq]
  refine isPlain_numberedFrom fun text htext hmem => ?_
  obtain ⟨name, hname, rfl⟩ := List.mem_map.mp htext
  have hname' : '\'' ∈ name := by simpa [Constant.allocationText] using hmem
  rcases mem_sharedName hname hname' with hc | hc
  · exact absurd hc (by decide)
  · exact absurd hc (by decide)

theorem isPlain_of_expand {lines expanded : List Line} (h : expand lines = .ok expanded)
    (hlines : ∀ line ∈ lines, line.IsPlain) : ∀ line ∈ expanded, line.IsPlain := by
  obtain ⟨table, -, ⟨-, hunused⟩ | ⟨-, calls, body, hbody, rfl⟩⟩ := expand_eq_ok h
  · obtain rfl := checkUnused_eq_ok hunused
    exact hlines
  · exact List.forall_mem_append.mpr ⟨isPlain_preamble _, hbody.isPlain hlines⟩

/-- The preamble gives each shared name its cell. -/
theorem shares_of_substitutes {cells arity : Nat} {last : Constant.Table} {kept : List Line}
    (h : Constant.Substitutes cells .strict {} (preamble arity) last kept) :
    kept = [] ∧ Shares last arity cells := by
  rw [preamble_eq] at h
  obtain ⟨hkept, hvalues⟩ := h.valueOf_of_allocations isBlank_of_mem_sharedNames
  have hvalue : ∀ j name, (sharedNames arity)[j]? = some name →
      last.valueOf name = .ok (Constant.cell j) ∧ j < cells := by
    intro j name hname
    have hj := hvalues j name hname
    rwa [show ({} : Constant.Table).nextCell = 0 from rfl, Nat.zero_add] at hj
  have hargument : ∀ i < arity, (sharedNames arity)[argumentCell i]? = some (argumentName i) := by
    intro i hi
    rw [sharedNames, argumentCell, List.getElem?_append_right (by simp)]
    simp [hi]
  refine ⟨hkept, (hvalue 0 _ rfl).1, (hvalue 1 _ rfl).1,
    fun i hi => (hvalue _ _ (hargument i hi)).1, ?_⟩
  -- the last name that is allocated has a cell, so there are as many cells as names
  cases arity with
  | zero =>
      have hcell := (hvalue 1 _ rfl).2
      omega
  | succ arity =>
      have hcell := (hvalue _ _ (hargument arity (Nat.lt_succ_self _))).2
      rw [argumentCell] at hcell
      omega

theorem Shares.jumpBackCell_lt {cells arity : Nat} {table : Constant.Table}
    (h : Shares table arity cells) : jumpBackCell < cells := by
  have hfits := h.fits
  rw [jumpBackCell]
  omega

/-- The shared cells are the same in all lines. -/
theorem Shares.of_compiles {labels : Label.Table} {cells start arity : Nat}
    {table last : Constant.Table} {lines : List Line} {listing : Listing}
    (h : Shares table arity cells)
    (hlines : Compiles labels cells start table lines last listing) : Shares last arity cells :=
  ⟨hlines.valueOf_eq h.result, hlines.valueOf_eq h.jumpBack,
    fun i hi => hlines.valueOf_eq (h.argument i hi), h.fits⟩

/-- The preamble is assembled to nothing. -/
theorem shares_of_compiles {labels : Label.Table} {cells start arity : Nat}
    {last : Constant.Table} {listing : Listing}
    (h : Compiles labels cells start {} (preamble arity) last listing) :
    listing = [] ∧ Shares last arity cells := by
  obtain ⟨kept, hkept, hgenerates, -⟩ := h.stages
  obtain ⟨rfl, hshares⟩ := shares_of_substitutes hkept
  exact ⟨Label.Table.Generates.nil_iff.mp hgenerates, hshares⟩

end CellAsm.Subroutine
