import CellAsm.Pass.Subroutine
import CellAsm.Proofs.Success
import CellAsm.Proofs.Text.Trim

set_option autoImplicit false

/-! # Where the lines of subroutines come from

The expansion of a program goes line by line and needs of the lines before only the number of
calls among them. `Expands table n lines m expanded` says so: lines after `n` calls expand, and
`m` calls come before the lines after them. It is compositional (`Expands.append_inv`), so the
expansion can be cut at any line. The pass succeeds exactly if the lines expand in this way and the
bodies among them close (`expandMarkers_eq_ok_iff`). The other statements say what success tells of
the program: which declarations there are (`exists_of_mem_declare`) and what a call refers to
(`callLines_eq_ok`).
-/

namespace CellAsm.Subroutine

theorem prefix_of_marker {line : Line} {marker : Marker} (h : Marker.of? line = some marker) :
    marker.spelling <+: line.code := by
  unfold Marker.of? at h
  exact List.isPrefixOf_iff_prefix.mp (by simpa using List.find?_some h)

/-! ## Line by line -/

/-- A line expands, after `n` calls, and `m` calls come before the line after it. -/
inductive ExpandsLine (table : Table) (n : Nat) (line : Line) : List Line → Nat → Prop
  | plain (hmarker : Marker.of? line = none) : ExpandsLine table n line [line] n
  | call {expanded : List Line} (hmarker : Marker.of? line = some .call)
      (hcall : callLines table line n = .ok expanded) : ExpandsLine table n line expanded (n + 1)
  | start {d : Declaration} (hmarker : Marker.of? line = some .start)
      (hdeclaration : declarationIn line.code = .ok d) :
      ExpandsLine table n line (opening line d.name) n
  | finish (hmarker : Marker.of? line = some .finish) : ExpandsLine table n line [closing line] n

/-- Lines expand one after the other. -/
inductive Expands (table : Table) : Nat → List Line → Nat → List Line → Prop
  | nil (n : Nat) : Expands table n [] n []
  | cons {n k m : Nat} {line : Line} {lines first rest : List Line}
      (hline : ExpandsLine table n line first k) (hlines : Expands table k lines m rest) :
      Expands table n (line :: lines) m (first ++ rest)

namespace ExpandsLine

variable {table : Table} {n k : Nat} {line : Line} {own : List Line}

theorem plain_iff (hmarker : Marker.of? line = none) :
    ExpandsLine table n line own k ↔ own = [line] ∧ k = n := by
  constructor
  · intro h
    cases h with
    | plain _ => exact ⟨rfl, rfl⟩
    | call h | start h | finish h => cases hmarker.symm.trans h
  · rintro ⟨rfl, rfl⟩
    exact .plain hmarker

theorem call_iff (hmarker : Marker.of? line = some .call) :
    ExpandsLine table n line own k ↔ callLines table line n = .ok own ∧ k = n + 1 := by
  constructor
  · intro h
    cases h with
    | call _ hcall => exact ⟨hcall, rfl⟩
    | plain h | start h | finish h => cases hmarker.symm.trans h
  · rintro ⟨hcall, rfl⟩
    exact .call hmarker hcall

theorem start_iff (hmarker : Marker.of? line = some .start) :
    ExpandsLine table n line own k ↔
      (∃ d, declarationIn line.code = .ok d ∧ own = opening line d.name) ∧ k = n := by
  constructor
  · intro h
    cases h with
    | start _ hd => exact ⟨⟨_, hd, rfl⟩, rfl⟩
    | plain h | call h | finish h => cases hmarker.symm.trans h
  · rintro ⟨⟨d, hd, rfl⟩, rfl⟩
    exact .start hmarker hd

theorem finish_iff (hmarker : Marker.of? line = some .finish) :
    ExpandsLine table n line own k ↔ own = [closing line] ∧ k = n := by
  constructor
  · intro h
    cases h with
    | finish _ => exact ⟨rfl, rfl⟩
    | plain h | call h | start h => cases hmarker.symm.trans h
  · rintro ⟨rfl, rfl⟩
    exact .finish hmarker

end ExpandsLine

theorem Expands.append_inv {table : Table} {n m : Nat} {lines more expanded : List Line}
    (h : Expands table n (lines ++ more) m expanded) :
    ∃ k front back, Expands table n lines k front ∧ Expands table k more m back ∧
      expanded = front ++ back := by
  induction lines generalizing n expanded with
  | nil => exact ⟨n, [], expanded, .nil n, h, rfl⟩
  | cons line lines ih =>
      cases h with
      | cons hline hlines =>
          obtain ⟨k, front, back, hfront, hback, rfl⟩ := ih hlines
          exact ⟨k, _, back, .cons hline hfront, hback, (List.append_assoc _ _ _).symm⟩

/-- The cut around one line. -/
theorem Expands.split {table : Table} {n m : Nat} {before after expanded : List Line}
    {line : Line} (h : Expands table n (before ++ line :: after) m expanded) :
    ∃ k k' front own back, Expands table n before k front ∧ ExpandsLine table k line own k' ∧
      Expands table k' after m back ∧ expanded = front ++ own ++ back := by
  obtain ⟨k, front, back, hfront, hback, rfl⟩ := h.append_inv
  cases hback with
  | cons hline hafter =>
      exact ⟨k, _, front, _, _, hfront, hline, hafter, (List.append_assoc _ _ _).symm⟩

section

variable {table : Table} {n m : Nat} {line : Line} {lines expanded : List Line}

theorem Expands.nil_iff : Expands table n [] m expanded ↔ m = n ∧ expanded = [] := by
  constructor
  · intro h
    cases h
    exact ⟨rfl, rfl⟩
  · rintro ⟨rfl, rfl⟩
    exact .nil m

theorem Expands.cons_iff : Expands table n (line :: lines) m expanded ↔
    ∃ k own rest, ExpandsLine table n line own k ∧ Expands table k lines m rest ∧
      expanded = own ++ rest := by
  constructor
  · intro h
    cases h with
    | cons hline hlines => exact ⟨_, _, _, hline, hlines, rfl⟩
  · rintro ⟨k, own, rest, hline, hlines, rfl⟩
    exact .cons hline hlines

/-! ### Bodies -/

/-- The markers among lines that begin or end a body. -/
def borders (lines : List Line) : List Marker :=
  (lines.filterMap Marker.of?).filter (· ≠ .call)

/-- The markers of `count` bodies one after the other. -/
def bodies (count : Nat) : List Marker := (List.replicate count [Marker.start, .finish]).flatten

theorem bodies_succ (count : Nat) : bodies (count + 1) = .start :: .finish :: bodies count := rfl

theorem borders_cons (line : Line) (lines : List Line) :
    borders (line :: lines)
      = ((Marker.of? line).toList.filter (· ≠ .call)) ++ borders lines := by
  rw [borders, borders, ← List.filter_append]
  cases h : Marker.of? line with
  | none => rw [List.filterMap_cons_none h]; rfl
  | some marker => rw [List.filterMap_cons_some h]; rfl

/-- From a line inside a body (`isOpen`) or outside, bodies end and begin in turn and the last one
ends. -/
def Closes (isOpen : Bool) (lines : List Line) : Prop :=
  ∃ count, borders lines = (if isOpen then [Marker.finish] else []) ++ bodies count

variable {isOpen : Bool}

theorem closes_nil_iff : Closes isOpen [] ↔ isOpen = false := by
  cases isOpen with
  | false => exact iff_of_true ⟨0, rfl⟩ rfl
  | true =>
      refine iff_of_false ?_ Bool.noConfusion
      rintro ⟨count, hborders⟩
      cases hborders

/-- A line that begins no body and ends none makes no difference. -/
theorem closes_cons_iff_of_inner (hmarker : Marker.of? line = none ∨ Marker.of? line = some .call) :
    Closes isOpen (line :: lines) ↔ Closes isOpen lines := by
  have hsame : borders (line :: lines) = borders lines := by
    rw [borders_cons]
    rcases hmarker with h | h
    · rw [h]; rfl
    · rw [h]; rfl
  rw [Closes, Closes, hsame]

theorem closes_cons_start_iff (hmarker : Marker.of? line = some .start) :
    Closes isOpen (line :: lines) ↔ isOpen = false ∧ Closes true lines := by
  have hborders : borders (line :: lines) = .start :: borders lines := by
    rw [borders_cons, hmarker]; rfl
  rw [Closes, hborders]
  cases isOpen with
  | true =>
      refine iff_of_false ?_ fun h => Bool.noConfusion h.1
      rintro ⟨count, heq⟩
      cases heq
  | false =>
      rw [and_iff_right rfl]
      constructor
      · rintro ⟨count, heq⟩
        cases count with
        | zero => cases heq
        | succ count =>
            rw [bodies_succ] at heq
            exact ⟨count, (List.cons.inj heq).2⟩
      · rintro ⟨count, heq⟩
        exact ⟨count + 1, by rw [bodies_succ, heq]; rfl⟩

theorem closes_cons_finish_iff (hmarker : Marker.of? line = some .finish) :
    Closes isOpen (line :: lines) ↔ isOpen = true ∧ Closes false lines := by
  have hborders : borders (line :: lines) = .finish :: borders lines := by
    rw [borders_cons, hmarker]; rfl
  rw [Closes, hborders]
  cases isOpen with
  | false =>
      refine iff_of_false ?_ fun h => Bool.noConfusion h.1
      rintro ⟨count, heq⟩
      cases count with
      | zero => cases heq
      | succ count => cases heq
  | true =>
      rw [and_iff_right rfl]
      constructor
      · rintro ⟨count, heq⟩
        exact ⟨count, (List.cons.inj heq).2⟩
      · rintro ⟨count, heq⟩
        exact ⟨count, by rw [heq]; rfl⟩

/-- The line that began the body behind a line, if one is open there, where `opened` is that of the
body in front of it; `none` if the line may not stand there, since bodies do not nest. -/
def turn (opened : Option Line) (line : Line) : Option (Option Line) :=
  match Marker.of? line with
  | none | some .call => some opened
  | some .start => if opened.isSome then none else some (some line)
  | some .finish => if opened.isNone then none else some none

theorem closes_cons_iff {opened : Option Line} :
    Closes opened.isSome (line :: lines) ↔
      ∃ next, turn opened line = some next ∧ Closes next.isSome lines := by
  rw [turn]
  match hmarker : Marker.of? line with
  | none => simp [closes_cons_iff_of_inner (.inl hmarker)]
  | some .call => simp [closes_cons_iff_of_inner (.inr hmarker)]
  | some .start =>
      rw [closes_cons_start_iff hmarker]
      cases opened <;> simp
  | some .finish =>
      rw [closes_cons_finish_iff hmarker]
      cases opened <;> simp

/-- The first line expands, and the lines behind it do. -/
theorem expandMarkers_cons_eq_ok_iff {opened : Option Line} :
    expandMarkers table n opened (line :: lines) = .ok expanded ↔
      ∃ next k own rest, turn opened line = some next ∧ ExpandsLine table n line own k ∧
        expandMarkers table k next lines = .ok rest ∧ expanded = own ++ rest := by
  rw [expandMarkers, turn]
  match hmarker : Marker.of? line with
  | none =>
      simp only [Success.bind_iff, Success.pure_iff, ExpandsLine.plain_iff hmarker]
      simp [eq_comm]
  | some .call =>
      simp only [Success.bind_iff, Success.pure_iff, Success.check_iff,
        ExpandsLine.call_iff hmarker]
      simp [eq_comm]
  | some .start =>
      cases opened with
      | none =>
          simp only [Option.isSome_none, Bool.false_eq_true, if_false, Success.bind_iff,
            Success.pure_iff, Success.check_iff, ExpandsLine.start_iff hmarker]
          constructor
          · rintro ⟨d, hd, rest, hrest, rfl⟩
            exact ⟨some line, n, _, rest, rfl, ⟨⟨d, hd, rfl⟩, rfl⟩, hrest, rfl⟩
          · rintro ⟨_, _, _, rest, ⟨⟩, ⟨⟨d, hd, rfl⟩, rfl⟩, hrest, rfl⟩
            exact ⟨d, hd, rest, hrest, rfl⟩
      | some begun => simp
  | some .finish =>
      cases opened with
      | none => simp
      | some begun =>
          simp only [Option.isNone_some, Bool.false_eq_true, if_false, Success.bind_iff,
            Success.pure_iff, ExpandsLine.finish_iff hmarker]
          simp [eq_comm]

/-- **Lines expand if each of them does and the bodies close**, each line after the other. -/
theorem expandMarkers_eq_ok_iff {opened : Option Line} :
    expandMarkers table n opened lines = .ok expanded ↔
      (∃ m, Expands table n lines m expanded) ∧ Closes opened.isSome lines := by
  induction lines generalizing n opened expanded with
  | nil =>
      rw [closes_nil_iff]
      cases opened with
      | some begun => exact iff_of_false (fun h => nomatch h) fun h => Bool.noConfusion h.2
      | none =>
          simp only [Expands.nil_iff, exists_eq_left, Option.isSome_none, and_true]
          exact ⟨fun h => (Except.ok.inj h).symm, fun h => congrArg Except.ok h.symm⟩
  | cons line lines ih =>
      rw [expandMarkers_cons_eq_ok_iff, closes_cons_iff]
      constructor
      · rintro ⟨next, k, own, rest, hturn, hline, hrest, rfl⟩
        obtain ⟨⟨m, hlines⟩, hcloses⟩ := ih.mp hrest
        exact ⟨⟨m, .cons hline hlines⟩, next, hturn, hcloses⟩
      · rintro ⟨⟨m, hexpands⟩, next, hturn, hcloses⟩
        obtain ⟨k, own, rest, hline, hlines, rfl⟩ := Expands.cons_iff.mp hexpands
        exact ⟨next, k, own, rest, hturn, hline, ih.mpr ⟨⟨m, hlines⟩, hcloses⟩, rfl⟩

end

theorem expands_of_expandMarkers {table : Table} {n : Nat} {opened : Option Line}
    {lines expanded : List Line} (h : expandMarkers table n opened lines = .ok expanded) :
    ∃ m, Expands table n lines m expanded :=
  (expandMarkers_eq_ok_iff.mp h).1

/-! ## Declarations -/

theorem isValidName_of_declarationIn {code : List Char} {d : Declaration}
    (h : declarationIn code = .ok d) : isValidName d.name = true := by
  obtain ⟨list, -, h⟩ := Success.bind_iff.mp h
  split at h
  · split at h
    · cases h
    · next hname =>
      split at h
      · obtain rfl := Except.ok.inj h
        simpa using hname
      · cases h
  · cases h

theorem Table.mem_of_find? {table : Table} {name : Token} {d : Declaration}
    (h : table.find? name = some d) : d ∈ table ∧ d.name = name :=
  ⟨List.mem_of_find?_eq_some h, by simpa using List.find?_some h⟩

theorem Table.find?_eq_none_iff {table : Table} {name : Token} :
    table.find? name = none ↔ name ∉ table.map Declaration.name := by
  rw [Table.find?, List.find?_eq_none]
  simp

/-- No name is declared twice. -/
def Table.IsDistinct (table : Table) : Prop := (table.map Declaration.name).Nodup

theorem Table.isDistinct_nil : Table.IsDistinct [] := List.nodup_nil

theorem Table.isDistinct_reverse_iff {table : Table} :
    Table.IsDistinct table.reverse ↔ table.IsDistinct := by
  rw [Table.IsDistinct, List.map_reverse, List.nodup_reverse, Table.IsDistinct]

theorem Table.isDistinct_cons_iff {table : Table} {d : Declaration} :
    Table.IsDistinct (d :: table) ↔ d.name ∉ table.map Declaration.name ∧ table.IsDistinct := by
  rw [Table.IsDistinct, List.map_cons, List.nodup_cons, Table.IsDistinct]

theorem Table.IsDistinct.find?_eq_some_iff {table : Table} (h : table.IsDistinct) {name : Token}
    {d : Declaration} : table.find? name = some d ↔ d ∈ table ∧ d.name = name := by
  constructor
  · exact Table.mem_of_find?
  · rintro ⟨hmem, rfl⟩
    cases hfound : table.find? d.name with
    | none => exact absurd (List.mem_map_of_mem hmem) (Table.find?_eq_none_iff.mp hfound)
    | some found =>
        obtain ⟨hfoundMem, hname⟩ := Table.mem_of_find? hfound
        rw [List.inj_on_of_nodup_map h hfoundMem hmem hname]

theorem declare_cons_of_ne {table : Table} {line : Line} {lines : List Line}
    (h : Marker.of? line ≠ some .start) : declare table (line :: lines) = declare table lines := by
  rw [declare, if_neg h]

theorem declare_cons_start_iff {table final : Table} {line : Line} {lines : List Line}
    (h : Marker.of? line = some .start) :
    declare table (line :: lines) = .ok final ↔
      ∃ d, declarationIn line.code = .ok d ∧ d.name ∉ table.map Declaration.name ∧
        declare (d :: table) lines = .ok final := by
  rw [declare, if_pos h, Success.bind_iff]
  refine exists_congr fun d => ?_
  rw [Success.check_iff, ← Table.find?_eq_none_iff]
  refine and_congr_right fun _ => ?_
  cases table.find? d.name with
  | none => simp
  | some other => simp

theorem declare_eq_self {table : Table} {lines : List Line}
    (h : ∀ line ∈ lines, Marker.of? line ≠ some .start) : declare table lines = .ok table := by
  induction lines with
  | nil => rfl
  | cons line lines ih =>
      obtain ⟨hline, hlines⟩ := List.forall_mem_cons.mp h
      rw [declare_cons_of_ne hline, ih hlines]

/-- Every declaration of a table stands in a line. -/
theorem exists_of_mem_declare {table final : Table} {lines : List Line}
    (h : declare table lines = .ok final) {d : Declaration} (hd : d ∈ final) :
    d ∈ table ∨ ∃ before line after, lines = before ++ line :: after ∧
      Marker.of? line = some .start ∧ declarationIn line.code = .ok d := by
  induction lines generalizing table with
  | nil =>
      obtain rfl := Except.ok.inj h
      exact .inl hd
  | cons line lines ih =>
      -- A declaration of a later line is cut there; one of this line is cut here.
      have hlater : ∀ {table : Table}, declare table lines = .ok final → d ∈ table ∨
          ∃ before line' after, line :: lines = before ++ line' :: after ∧
            Marker.of? line' = some .start ∧ declarationIn line'.code = .ok d := by
        intro table h
        rcases ih h with hmem | ⟨before, line', after, rfl, hline'⟩
        · exact .inl hmem
        · exact .inr ⟨line :: before, line', after, rfl, hline'⟩
      by_cases hmarker : Marker.of? line = some .start
      · obtain ⟨d', hd', -, h⟩ := (declare_cons_start_iff hmarker).mp h
        rcases hlater h with hmem | hcut
        · rcases List.mem_cons.mp hmem with rfl | hmem
          · exact .inr ⟨[], line, lines, rfl, hmarker, hd'⟩
          · exact .inl hmem
        · exact .inr hcut
      · rw [declare_cons_of_ne hmarker] at h
        exact hlater h

theorem Table.IsDistinct.of_declare {table final : Table} {lines : List Line}
    (hdistinct : table.IsDistinct) (h : declare table lines = .ok final) : final.IsDistinct := by
  induction lines generalizing table with
  | nil =>
      obtain rfl := Except.ok.inj h
      exact hdistinct
  | cons line lines ih =>
      by_cases hmarker : Marker.of? line = some .start
      · obtain ⟨d, -, hnew, h⟩ := (declare_cons_start_iff hmarker).mp h
        exact ih (Table.isDistinct_cons_iff.mpr ⟨hnew, hdistinct⟩) h
      · rw [declare_cons_of_ne hmarker] at h
        exact ih hdistinct h

/-- Declarations stay in the table, so it is empty only if there are none. -/
theorem declare_eq_ok_nil_iff {table : Table} {lines : List Line} :
    declare table lines = .ok [] ↔
      table = [] ∧ ∀ line ∈ lines, Marker.of? line ≠ some .start := by
  constructor
  · intro h
    induction lines generalizing table with
    | nil => exact ⟨Except.ok.inj h, List.forall_mem_nil _⟩
    | cons line lines ih =>
        by_cases hmarker : Marker.of? line = some .start
        · obtain ⟨d, -, -, h⟩ := (declare_cons_start_iff hmarker).mp h
          exact absurd (ih h).1 (List.cons_ne_nil d table)
        · rw [declare_cons_of_ne hmarker] at h
          obtain ⟨htable, hlines⟩ := ih h
          exact ⟨htable, List.forall_mem_cons.mpr ⟨hmarker, hlines⟩⟩
  · rintro ⟨rfl, h⟩
    exact declare_eq_self h

theorem le_maxArity {table : Table} {d : Declaration} (h : d ∈ table) :
    d.arity ≤ table.maxArity := by
  induction table with
  | nil => cases h
  | cons first table ih =>
      show d.arity ≤ max first.arity (Table.maxArity table)
      rcases List.mem_cons.mp h with rfl | h
      · exact Nat.le_max_left _ _
      · exact Nat.le_trans (ih h) (Nat.le_max_right _ _)

/-! ## Calls -/

theorem parts_ne_nil (s : List Char) : parts s ≠ [] := by
  unfold parts
  split
  · simp
  · simp
  · split <;> simp

/-- A character that is no comma goes to the front of the first part. -/
theorem parts_cons_of_ne {c : Char} {s first : List Char} {rest : List (List Char)} (hc : c ≠ ',')
    (h : parts s = first :: rest) : parts (c :: s) = (c :: first) :: rest := by
  rw [parts.eq_def]
  split
  · next heq => cases heq
  · next heq => exact absurd (List.cons.inj heq).1 hc
  · next heq =>
    obtain ⟨rfl, rfl⟩ := List.cons.inj heq
    rw [h]

/-- The parts of a text consist of its characters. -/
theorem mem_of_mem_parts {s part : List Char} {c : Char} (hpart : part ∈ parts s) (hc : c ∈ part) :
    c ∈ s := by
  induction s using parts.induct generalizing part with
  | case1 =>
      obtain rfl : part = [] := by simpa [parts] using hpart
      cases hc
  | case2 s ih =>
      rw [parts, List.mem_cons] at hpart
      rcases hpart with rfl | hpart
      · cases hc
      · exact List.mem_cons_of_mem _ (ih hpart hc)
  | case3 d s hcomma hempty ih => exact absurd hempty (parts_ne_nil s)
  | case4 d s hcomma first rest hparts ih =>
      rw [parts_cons_of_ne hcomma hparts, List.mem_cons] at hpart
      -- a part of the text behind the first character, which may have been put in front of it
      have hmem : ∀ part ∈ first :: rest, c ∈ part → c ∈ d :: s := by
        intro part hpart hc
        exact List.mem_cons_of_mem _ (ih (hparts ▸ hpart) hc)
      rcases hpart with rfl | hpart
      · rcases List.mem_cons.mp hc with rfl | hc
        · exact List.mem_cons_self
        · exact hmem first List.mem_cons_self hc
      · exact hmem part (List.mem_cons_of_mem _ hpart) hc

theorem argumentList_eq_ok {s : List Char} {list : List Token} (h : argumentList s = .ok list) :
    list ≠ [] ∧ ∀ argument ∈ list, ∀ c ∈ argument, c ∈ s := by
  unfold argumentList at h
  split at h
  · next inner htrim =>
    split at h
    · obtain rfl := Except.ok.inj h
      refine ⟨by simpa using parts_ne_nil _, ?_⟩
      intro argument hargument c hc
      obtain ⟨part, hpart, rfl⟩ := List.mem_map.mp hargument
      have hinner : c ∈ inner :=
        List.dropLast_subset _ (mem_of_mem_parts hpart (Text.mem_of_mem_trim hc))
      refine Text.mem_of_mem_trim ?_
      rw [htrim]
      exact List.mem_cons_of_mem _ hinner
    · cases h
  · cases h

/-- A call names a declared subroutine and has as many arguments as it takes, none of them
empty. -/
theorem callLines_eq_ok {table : Table} {line : Line} {n : Nat} {expanded : List Line}
    (h : callLines table line n = .ok expanded) :
    ∃ name arguments d, argumentList (line.code.drop Marker.call.spelling.length)
        = .ok (name :: arguments) ∧
      table.find? name = some d ∧ arguments.length = d.arity ∧ [] ∉ arguments ∧
      expanded = call line n name arguments := by
  obtain ⟨list, hlist, h⟩ := Success.bind_iff.mp h
  -- the list of a call is never empty: its first entry is the name
  have hcons : list = list.headD [] :: list.tail := by
    obtain ⟨name, arguments, rfl⟩ := List.exists_cons_of_ne_nil (argumentList_eq_ok hlist).1
    rfl
  refine ⟨list.headD [], list.tail, ?_⟩
  rw [← hcons]
  dsimp only at h
  split at h
  · cases h
  · next d hd =>
    split at h
    · cases h
    · next harity =>
      split at h
      · cases h
      · next hempty =>
        exact ⟨d, hlist, hd, not_not.mp harity, hempty, (Except.ok.inj h).symm⟩

/-! ## The whole program -/

/-- A program that declares subroutines is the preamble and the expansion of its lines. -/
theorem expand_eq_ok {lines expanded : List Line} (h : expand lines = .ok expanded) :
    ∃ table, declare [] lines = .ok table ∧
      (table = [] ∧ checkUnused lines = .ok expanded ∨
        table ≠ [] ∧ ∃ calls body, Expands table 0 lines calls body ∧
          expanded = preamble table.maxArity ++ body) := by
  obtain ⟨table, htable, h⟩ := Success.bind_iff.mp h
  refine ⟨table, htable, ?_⟩
  split at h
  · next hempty => exact .inl ⟨List.isEmpty_iff.mp hempty, h⟩
  · next hempty =>
    obtain ⟨body, hbody, h⟩ := Success.bind_iff.mp h
    obtain rfl := Success.pure_iff.mp h
    obtain ⟨calls, hexpands⟩ := expands_of_expandMarkers hbody
    exact .inr ⟨fun hnil => hempty (by rw [hnil]; rfl), calls, body, hexpands, rfl⟩

theorem mentionsCall_iff {s : List Char} :
    mentionsCall s = true ↔ Marker.call.spelling <:+: s := by
  induction s with
  | nil =>
      rw [List.infix_nil]
      exact iff_of_false Bool.noConfusion (by decide)
  | cons c s ih =>
      rw [mentionsCall, Bool.or_eq_true, List.isPrefixOf_iff_prefix, ih, List.infix_cons_iff]

theorem checkUnused_eq_ok_iff {lines kept : List Line} :
    checkUnused lines = .ok kept ↔
      (∀ line ∈ lines, ¬ Marker.call.spelling <:+: line.contents.toList ∧
        Marker.of? line ≠ some .finish) ∧ kept = lines := by
  unfold checkUnused
  split
  · next line hfound =>
    refine iff_of_false (fun h => nomatch h) fun h => ?_
    have hmentions := List.find?_some hfound
    exact (h.1 line (List.mem_of_find?_eq_some hfound)).1 (mentionsCall_iff.mp hmentions)
  · next hcalls =>
    split
    · next line hfound =>
      refine iff_of_false (fun h => nomatch h) fun h => ?_
      have hfinish := List.find?_some hfound
      exact (h.1 line (List.mem_of_find?_eq_some hfound)).2 (of_decide_eq_true hfinish)
    · next hfinishes =>
      -- neither search has found a line
      have hunused : ∀ line ∈ lines, ¬ Marker.call.spelling <:+: line.contents.toList ∧
          Marker.of? line ≠ some .finish := by
        intro line hmem
        have hcall := List.find?_eq_none.mp hcalls line hmem
        have hfinish := List.find?_eq_none.mp hfinishes line hmem
        exact ⟨fun h => hcall (mentionsCall_iff.mpr h), fun h => hfinish (decide_eq_true h)⟩
      rw [and_iff_right hunused, Except.ok.injEq]
      exact eq_comm

theorem checkUnused_eq_ok {lines kept : List Line} (h : checkUnused lines = .ok kept) :
    kept = lines :=
  (checkUnused_eq_ok_iff.mp h).2

/-- A program with a call declares a subroutine, if it expands at all. -/
theorem ne_nil_of_call {lines expanded : List Line} {table : Table}
    (h : expand lines = .ok expanded) (htable : declare [] lines = .ok table) {line : Line}
    (hmem : line ∈ lines) (hmarker : Marker.of? line = some .call) : table ≠ [] := by
  rintro rfl
  obtain ⟨table', htable', hcases⟩ := expand_eq_ok h
  obtain rfl : [] = table' := Except.ok.inj (htable.symm.trans htable')
  rcases hcases with ⟨-, hunused⟩ | ⟨hne, -⟩
  · -- the code of the line begins with a call, so its contents mention one
    have hcode : line.code <:+: line.contents.toList := by
      obtain ⟨front, back, hcontents⟩ := Text.exists_eq_append_trim line.contents.toList
      exact ⟨front, back, hcontents.symm⟩
    have hmentions := (prefix_of_marker hmarker).isInfix.trans hcode
    exact ((checkUnused_eq_ok_iff.mp hunused).1 line hmem).1 hmentions
  · exact hne rfl

end CellAsm.Subroutine
