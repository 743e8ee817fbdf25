import CellAsm.Proofs.Subroutine.Notation
import Mathlib.Order.Bounds.Defs

set_option autoImplicit false

/-! # The programs that expand

A program with subroutines is a list of statements, one for each line. It is well-formed
(`IsProgram`) if no name is declared twice, bodies begin and end in turn and every call fits a
declaration, which may come later in the program. The pass accepts these programs and no others,
and what it makes of them is read off the statements (`expand_eq_ok_iff`): the allocations of the
shared cells and the expansions of the lines in their order.
-/

namespace CellAsm.Subroutine

/-! ## Programs -/

namespace Statement

/-- The declaration that a statement makes. -/
def declaration? : Statement → Option Declaration
  | start d => some d
  | plain | call _ _ | finish => none

theorem Fits.mono {table table' : Table} (h : table ⊆ table') {statement : Statement}
    (hfits : statement.Fits table) : statement.Fits table' := by
  cases statement with
  | call name arguments =>
      obtain ⟨d, hmem, hcall⟩ := hfits
      exact ⟨d, h hmem, hcall⟩
  | plain | start _ | finish => trivial

end Statement

/-- The declarations of a program. -/
def declarations (statements : List Statement) : List Declaration :=
  statements.filterMap Statement.declaration?

/-- Well-formed programs. -/
structure IsProgram (statements : List Statement) : Prop where
  distinct : ((declarations statements).map Declaration.name).Nodup
  /-- Bodies begin and end in turn, first a beginning and last an end. -/
  alternate : ∃ count, (statements.filterMap Statement.marker?).filter (· ≠ .call) = bodies count
  fits : ∀ statement ∈ statements, statement.Fits (declarations statements)

/-- The lines that a program expands to, where `n` calls came before. -/
def expansion (n : Nat) : List (Line × Statement) → List Line
  | [] => []
  | (line, statement) :: rest =>
    statement.expansion line n ++ expansion (n + statement.calls) rest

/-- The allocations of the shared cells for up to `arity` arguments. -/
def allocations (arity : Nat) : List Line :=
  Line.numberedFrom 1 "<subroutine>"
    ("$return = [_]".toList :: "$jump_back = [_]".toList ::
      (List.range arity).map fun i => s!"$arg{i} = [_]".toList)

/-! ## Lines and what they say -/

section

variable {line : Line} {lines : List Line} {statement : Statement} {statements : List Statement}
  {table final : Table}

theorem borders_eq (h : List.Forall₂ Says lines statements) :
    borders lines = (statements.filterMap Statement.marker?).filter (· ≠ .call) := by
  have hmarkers : lines.filterMap Marker.of? = statements.filterMap Statement.marker? := by
    induction h with
    | nil => rfl
    | @cons line statement lines statements hline _ ih =>
        rw [List.filterMap_cons, List.filterMap_cons, hline.of?_eq, ih]
  rw [borders, hmarkers]

/-- Declarations are added to the table, the latest first, unless a name comes twice. -/
theorem declare_eq_ok_iff (hdistinct : table.IsDistinct)
    (h : List.Forall₂ Says lines statements) :
    declare table lines = .ok final ↔
      final = (declarations statements).reverse ++ table ∧ Table.IsDistinct final := by
  induction h generalizing table with
  | nil =>
      constructor
      · intro h
        obtain rfl := Except.ok.inj h
        exact ⟨rfl, hdistinct⟩
      · rintro ⟨rfl, -⟩
        rfl
  | @cons line statement lines statements hline _ ih =>
      have hmarker := hline.of?_eq
      cases hline with
      -- only the start of a body adds to the table
      | plain _ | call _ _ | finish _ =>
          rw [declare_cons_of_ne (by simp [hmarker, Statement.marker?])]
          exact ih hdistinct
      | @start d _ hdeclares =>
          have hcons : (declarations (.start d :: statements)).reverse ++ table
              = (declarations statements).reverse ++ d :: table := by
            show (d :: declarations statements).reverse ++ table = _
            rw [List.reverse_cons, List.append_assoc]
            rfl
          have hread := declarationIn_eq_ok_iff.mpr hdeclares
          rw [declare_cons_start_iff hmarker, hcons]
          constructor
          · rintro ⟨d', hd', hnew, hrest⟩
            obtain rfl := Except.ok.inj (hd'.symm.trans hread)
            exact (ih (Table.isDistinct_cons_iff.mpr ⟨hnew, hdistinct⟩)).mp hrest
          · rintro ⟨rfl, hfinal⟩
            -- the table behind the start is a part of the last one, so its names differ too
            have htable : Table.IsDistinct (d :: table) := by
              rw [Table.IsDistinct, List.map_append] at hfinal
              exact (List.nodup_append.mp hfinal).2.1
            have hnew := (Table.isDistinct_cons_iff.mp htable).1
            exact ⟨d, hread, hnew, (ih htable).mpr ⟨rfl, hfinal⟩⟩

theorem declarations_ne_nil (h : List.Forall₂ Says lines statements) (hmem : line ∈ lines)
    (hbegins : Begins line .start) : declarations statements ≠ [] := by
  intro hnil
  have hplain := List.filterMap_eq_nil_iff.mp hnil
  clear hnil
  induction h with
  | nil => cases hmem
  | @cons first statement lines statements hfirst _ ih =>
      obtain ⟨hstatement, hstatements⟩ := List.forall_mem_cons.mp hplain
      rcases List.mem_cons.mp hmem with rfl | hmem
      · have hmarker := (of?_eq_some_iff.mpr hbegins).symm.trans hfirst.of?_eq
        cases statement with
        | start d => cases hstatement
        | plain | call _ _ | finish => cases hmarker
      · exact ih hmem hstatements

end

/-! ## What a program expands to -/

/-- Lines expand exactly if each of them says something that fits the declarations. -/
theorem exists_expands_iff {table : Table} (hdistinct : table.IsDistinct) {n : Nat}
    {lines expanded : List Line} :
    (∃ m, Expands table n lines m expanded) ↔
      ∃ statements, List.Forall₂ Says lines statements ∧
        (∀ statement ∈ statements, statement.Fits table) ∧
        expanded = expansion n (lines.zip statements) := by
  induction lines generalizing n expanded with
  | nil =>
      constructor
      · rintro ⟨m, h⟩
        exact ⟨[], .nil, List.forall_mem_nil _, (Expands.nil_iff.mp h).2⟩
      · rintro ⟨statements, hsays, -, rfl⟩
        cases hsays
        exact ⟨n, .nil n⟩
  | cons line lines ih =>
      -- the calls before a line are counted by the statements before it
      simp only [Expands.cons_iff, expandsLine_iff hdistinct]
      constructor
      · rintro ⟨m, _, _, rest, ⟨statement, hsays, hfits, rfl, rfl⟩, hlines, rfl⟩
        obtain ⟨statements, hstatements, hrest, rfl⟩ := ih.mp ⟨m, hlines⟩
        exact ⟨statement :: statements, .cons hsays hstatements,
          List.forall_mem_cons.mpr ⟨hfits, hrest⟩, rfl⟩
      · rintro ⟨statements, hsays, hfits, rfl⟩
        cases hsays with
        | @cons _ statement _ statements hstatement hstatements =>
            obtain ⟨hfirst, hrest⟩ := List.forall_mem_cons.mp hfits
            obtain ⟨m, hlines⟩ := ih.mpr ⟨statements, hstatements, hrest, rfl⟩
            exact ⟨m, _, _, _, ⟨statement, hstatement, hfirst, rfl, rfl⟩, hlines, rfl⟩

theorem Table.isGreatest_maxArity {table : Table} (h : table ≠ []) :
    IsGreatest {arity | ∃ d ∈ table, d.arity = arity} table.maxArity := by
  constructor
  · induction table with
    | nil => exact absurd rfl h
    | cons d table ih =>
        have hcons : Table.maxArity (d :: table) = max d.arity (Table.maxArity table) := rfl
        rw [hcons]
        rcases Nat.le_total d.arity (Table.maxArity table) with hle | hle
        · rw [Nat.max_eq_right hle]
          cases table with
          | nil => exact ⟨d, List.mem_cons_self, Nat.le_zero.mp hle⟩
          | cons next table =>
              obtain ⟨found, hmem, harity⟩ := ih (List.cons_ne_nil next table)
              exact ⟨found, List.mem_cons_of_mem d hmem, harity⟩
        · rw [Nat.max_eq_left hle]
          exact ⟨d, List.mem_cons_self, rfl⟩
  · rintro _ ⟨d, hmem, rfl⟩
    exact le_maxArity hmem

theorem preamble_eq_allocations (arity : Nat) : preamble arity = allocations arity := rfl

/-- With the table of all declarations, lines expand exactly if they are a well-formed program. -/
theorem expandMarkers_iff_isProgram {table : Table} {lines expanded : List Line}
    (htable : declare [] lines = .ok table) :
    expandMarkers table 0 none lines = .ok expanded ↔
      ∃ statements, List.Forall₂ Says lines statements ∧ IsProgram statements ∧
        table = (declarations statements).reverse ∧
        expanded = expansion 0 (lines.zip statements) := by
  have hdistinct : table.IsDistinct := Table.isDistinct_nil.of_declare htable
  rw [expandMarkers_eq_ok_iff, exists_expands_iff hdistinct]
  constructor
  · rintro ⟨⟨statements, hsays, hfits, rfl⟩, count, hcount⟩
    obtain ⟨hreverse, -⟩ := (declare_eq_ok_iff Table.isDistinct_nil hsays).mp htable
    rw [List.append_nil] at hreverse
    subst hreverse
    refine ⟨statements, hsays, ⟨Table.isDistinct_reverse_iff.mp hdistinct, ?_, ?_⟩, rfl, rfl⟩
    · exact ⟨count, (borders_eq hsays).symm.trans hcount⟩
    · intro statement hmem
      exact (hfits statement hmem).mono fun _ => List.mem_reverse.mp
  · rintro ⟨statements, hsays, hprogram, rfl, rfl⟩
    have hfits : ∀ statement ∈ statements, statement.Fits (declarations statements).reverse := by
      intro statement hmem
      exact (hprogram.fits statement hmem).mono fun _ => List.mem_reverse.mpr
    obtain ⟨count, hcount⟩ := hprogram.alternate
    exact ⟨⟨statements, hsays, hfits, rfl⟩, count, (borders_eq hsays).trans hcount⟩

theorem isGreatest_arity_iff {declared : List Declaration} (h : declared ≠ []) {arity : Nat} :
    IsGreatest {n | ∃ d ∈ declared, d.arity = n} arity ↔
      Table.maxArity declared.reverse = arity := by
  have hgreatest := Table.isGreatest_maxArity (List.reverse_ne_nil_iff.mpr h)
  simp only [List.mem_reverse] at hgreatest
  exact ⟨fun harity => hgreatest.unique harity, fun harity => harity ▸ hgreatest⟩

section

variable {lines expanded : List Line}

theorem expand_iff_of_no_start (h : ∀ line ∈ lines, ¬ Begins line .start) :
    expand lines = .ok expanded ↔
      (∀ line ∈ lines, ¬ Begins line .finish ∧ ¬ "@call".toList <:+: line.contents.toList) ∧
        expanded = lines := by
  have htable : declare [] lines = .ok [] :=
    declare_eq_self fun line hmem => mt of?_eq_some_iff.mp (h line hmem)
  have hexpand : expand lines = checkUnused lines := by
    rw [expand, htable]
    rfl
  rw [hexpand, checkUnused_eq_ok_iff]
  refine and_congr_left fun _ => forall₂_congr fun line _ => ?_
  rw [and_comm, ne_eq, of?_eq_some_iff]
  rfl

theorem expand_iff_of_start (h : ∃ line ∈ lines, Begins line .start) :
    expand lines = .ok expanded ↔ ∃ statements arity,
      List.Forall₂ Says lines statements ∧ IsProgram statements ∧
      IsGreatest {n | ∃ d ∈ declarations statements, d.arity = n} arity ∧
      expanded = allocations arity ++ expansion 0 (lines.zip statements) := by
  obtain ⟨line, hmem, hbegins⟩ := h
  rw [expand, Success.bind_iff]
  constructor
  · rintro ⟨table, htable, h⟩
    -- with a start the table is not empty, so the markers are expanded
    have hne : table ≠ [] := by
      rintro rfl
      exact (declare_eq_ok_nil_iff.mp htable).2 line hmem (of?_eq_some_iff.mpr hbegins)
    rw [if_neg (mt List.isEmpty_iff.mp hne)] at h
    obtain ⟨body, hbody, h⟩ := Success.bind_iff.mp h
    obtain rfl := Success.pure_iff.mp h
    obtain ⟨statements, hsays, hprogram, rfl, rfl⟩ := (expandMarkers_iff_isProgram htable).mp hbody
    have hgreatest := (isGreatest_arity_iff (List.reverse_ne_nil_iff.mp hne)).mpr rfl
    exact ⟨statements, _, hsays, hprogram, hgreatest, by rw [preamble_eq_allocations]⟩
  · rintro ⟨statements, arity, hsays, hprogram, hgreatest, rfl⟩
    have hne := declarations_ne_nil hsays hmem hbegins
    have htable : declare [] lines = .ok (declarations statements).reverse := by
      refine (declare_eq_ok_iff Table.isDistinct_nil hsays).mpr ⟨(List.append_nil _).symm, ?_⟩
      exact Table.isDistinct_reverse_iff.mpr hprogram.distinct
    have hbody := (expandMarkers_iff_isProgram htable).mpr ⟨statements, hsays, hprogram, rfl, rfl⟩
    refine ⟨_, htable, ?_⟩
    rw [if_neg (mt List.isEmpty_iff.mp (List.reverse_ne_nil_iff.mpr hne))]
    refine Success.bind_iff.mpr ⟨_, hbody, ?_⟩
    rw [(isGreatest_arity_iff hne).mp hgreatest, preamble_eq_allocations]
    rfl

/-- **Expansion accepts exactly the well-formed programs.** A program that declares no subroutine
must not use one and stays as it is; any other is the allocations for the greatest arity in front
of the expansion of its lines. -/
theorem expand_eq_ok_iff :
    expand lines = .ok expanded ↔
      (∀ line ∈ lines, ¬ Begins line .start) ∧
        (∀ line ∈ lines, ¬ Begins line .finish ∧ ¬ "@call".toList <:+: line.contents.toList) ∧
        expanded = lines ∨
      (∃ line ∈ lines, Begins line .start) ∧ ∃ statements arity,
        List.Forall₂ Says lines statements ∧ IsProgram statements ∧
        IsGreatest {n | ∃ d ∈ declarations statements, d.arity = n} arity ∧
        expanded = allocations arity ++ expansion 0 (lines.zip statements) := by
  by_cases h : ∃ line ∈ lines, Begins line .start
  · have hsome : ¬ ∀ line ∈ lines, ¬ Begins line .start := by
      obtain ⟨line, hmem, hbegins⟩ := h
      exact fun hnone => hnone line hmem hbegins
    rw [expand_iff_of_start h, or_iff_right fun hfree => hsome hfree.1, and_iff_right h]
  · have hnone : ∀ line ∈ lines, ¬ Begins line .start := fun line hmem hbegins =>
      h ⟨line, hmem, hbegins⟩
    rw [expand_iff_of_no_start hnone, or_iff_left fun hprogram => h hprogram.1,
      and_iff_right hnone]

end

end CellAsm.Subroutine
