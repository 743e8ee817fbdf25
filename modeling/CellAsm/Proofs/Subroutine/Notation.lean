import CellAsm.Proofs.Pass.Subroutine

set_option autoImplicit false

/-! # How subroutines are written

A line that declares a subroutine, ends a body or calls a subroutine begins with a marker, and the
markers of declarations and calls are followed by a list in parentheses. `Lists` is the notation of
such a list and `Says` the notation of a line: what it says, if it says anything. The pass reads a
list exactly if it is written in this way (`argumentList_eq_ok_iff`), and takes a line exactly if it
says something (`expandsLine_iff`).
-/

namespace CellAsm.Subroutine

/-! ## Markers -/

/-- Apart from blanks the line begins with the marker. -/
def Begins (line : Line) (marker : Marker) : Prop := marker.spelling <+: line.code

/-- The markers differ in their second characters. -/
theorem Marker.eq_of_getElem? {marker other : Marker}
    (h : marker.spelling[1]? = other.spelling[1]?) : marker = other := by
  revert h
  cases marker <;> cases other <;> decide

theorem Marker.eq_of_prefix {marker other : Marker} {s : List Char} (h : marker.spelling <+: s)
    (hother : other.spelling <+: s) : marker = other := by
  have hsecond : ∀ found : Marker, found.spelling <+: s → s[1]? = found.spelling[1]? := by
    rintro found ⟨rest, rfl⟩
    exact List.getElem?_append_left (by cases found <;> decide)
  exact Marker.eq_of_getElem? ((hsecond marker h).symm.trans (hsecond other hother))

theorem of?_eq_some_iff {line : Line} {marker : Marker} :
    Marker.of? line = some marker ↔ Begins line marker := by
  constructor
  · exact prefix_of_marker
  · intro h
    cases hfound : Marker.of? line with
    | none =>
        have hnone := List.find?_eq_none.mp hfound marker (by cases marker <;> simp)
        exact absurd (List.isPrefixOf_iff_prefix.mpr h) hnone
    | some found => rw [Marker.eq_of_prefix (prefix_of_marker hfound) h]

theorem of?_eq_none_iff {line : Line} : Marker.of? line = none ↔ ∀ marker, ¬ Begins line marker := by
  rw [Option.eq_none_iff_forall_ne_some]
  exact forall_congr' fun marker => not_congr of?_eq_some_iff

/-! ## Lists in parentheses -/

/-- The text writes the list: in parentheses, with commas between its entries and any blanks around
them. -/
def Lists (s : List Char) (list : List Token) : Prop :=
  ∃ entries : List (List Char), entries ≠ [] ∧ (∀ entry ∈ entries, ',' ∉ entry) ∧
    Text.trim s = '(' :: [','].intercalate entries ++ [')'] ∧ list = entries.map Text.trim

theorem parts_eq_splitOn (s : List Char) : parts s = s.splitOn ',' := by
  induction s using parts.induct with
  | case1 => rfl
  | case2 s ih => rw [parts, ih, List.splitOn_cons_eq_if_modifyHead, if_pos (beq_self_eq_true ',')]
  | case3 c s hcomma hempty ih => exact absurd hempty (parts_ne_nil s)
  | case4 c s hcomma first rest hparts ih =>
      have hne : ¬ (c == ',') = true := by simpa using hcomma
      rw [parts_cons_of_ne hcomma hparts, List.splitOn_cons_eq_if_modifyHead, if_neg hne, ← ih,
        hparts]
      rfl

theorem comma_notMem_parts {s entry : List Char} (h : entry ∈ parts s) : ',' ∉ entry := by
  induction s using parts.induct generalizing entry with
  | case1 =>
      obtain rfl : entry = [] := by simpa [parts] using h
      exact List.not_mem_nil
  | case2 s ih =>
      rw [parts, List.mem_cons] at h
      rcases h with rfl | h
      · exact List.not_mem_nil
      · exact ih h
  | case3 c s hcomma hempty ih => exact absurd hempty (parts_ne_nil s)
  | case4 c s hcomma first rest hparts ih =>
      rw [parts_cons_of_ne hcomma hparts, List.mem_cons] at h
      rw [hparts] at ih
      rcases h with rfl | h
      · rw [List.mem_cons]
        rintro (heq | hmem)
        · exact hcomma heq.symm
        · exact ih List.mem_cons_self hmem
      · exact ih (List.mem_cons_of_mem first h)

/-- **The pass reads a list exactly if it is written as one.** -/
theorem argumentList_eq_ok_iff {s : List Char} {list : List Token} :
    argumentList s = .ok list ↔ Lists s list := by
  constructor
  · intro h
    unfold argumentList at h
    split at h
    · next inner htrim =>
      split at h
      · next hlast =>
        obtain rfl := Except.ok.inj h
        have hjoin : [','].intercalate (parts inner.dropLast) = inner.dropLast := by
          rw [parts_eq_splitOn, List.intercalate_splitOn]
        refine ⟨parts inner.dropLast, parts_ne_nil _, fun _ => comma_notMem_parts, ?_, rfl⟩
        rw [htrim, hjoin, List.cons_append, List.dropLast_append_getLast? _ hlast]
      · cases h
    · cases h
  · rintro ⟨entries, hne, hcomma, htrim, rfl⟩
    have hparts : parts ([','].intercalate entries) = entries := by
      rw [parts_eq_splitOn, List.splitOn_intercalate ',' hcomma hne]
    rw [argumentList, htrim, List.cons_append]
    simp only [List.getLast?_concat, if_true, List.dropLast_concat, hparts]

/-! ## Declarations -/

/-- The token is a name: ASCII letters, digits and underscores, at least one of them. -/
def IsName (token : Token) : Prop := token ≠ [] ∧ ∀ c ∈ token, c.isAlphanum = true ∨ c = '_'

theorem isValidName_iff {token : Token} : isValidName token = true ↔ IsName token := by
  have hchars : token.all isNameChar = true ↔ ∀ c ∈ token, c.isAlphanum = true ∨ c = '_' := by
    simp [List.all_eq_true, isNameChar]
  rw [isValidName, Bool.and_eq_true, hchars, IsName]
  simp

/-- The text writes a declaration: a list of its name and its arity, which is a number that fits a
word. -/
def Declares (s : List Char) (d : Declaration) : Prop :=
  ∃ arity n, Lists s [d.name, arity] ∧ IsName d.name ∧ Text.decimal? arity = some n ∧
    d.arity = n.toNat

/-- A declaration is read behind the marker, from the parenthesis on. -/
theorem declarationIn_eq_ok_iff {code : List Char} {d : Declaration} :
    declarationIn code = .ok d ↔ Declares (code.drop "@start".length) d := by
  constructor
  · intro h
    obtain ⟨list, hlist, h⟩ := Success.bind_iff.mp h
    -- there are a name and an arity, the name is valid, and the arity is a numeral
    split at h
    · next name arity =>
      split at h
      · cases h
      · next hname =>
        split at h
        · next n harity =>
          obtain rfl := Except.ok.inj h
          exact ⟨arity, n, argumentList_eq_ok_iff.mp hlist, isValidName_iff.mp (by simpa using hname),
            harity, rfl⟩
        · cases h
    · cases h
  · rintro ⟨arity, n, hlist, hname, harity, hn⟩
    refine Success.bind_iff.mpr ⟨[d.name, arity], argumentList_eq_ok_iff.mpr hlist, ?_⟩
    have hvalid : ¬ (!isValidName d.name) = true := by simp [isValidName_iff.mpr hname]
    dsimp only
    rw [if_neg hvalid, harity]
    dsimp only
    rw [← hn]

/-! ## Lines -/

/-- What a line says about subroutines. -/
inductive Statement where
  /-- Nothing. -/
  | plain
  | call (name : Token) (arguments : List Token)
  | start (declaration : Declaration)
  | finish

/-- The notation of lines. -/
inductive Says (line : Line) : Statement → Prop where
  | plain (hplain : ∀ marker, ¬ Begins line marker) : Says line .plain
  | call {name : Token} {arguments : List Token} (hbegins : Begins line .call)
      (hlist : Lists (line.code.drop "@call".length) (name :: arguments)) :
      Says line (.call name arguments)
  | start {d : Declaration} (hbegins : Begins line .start)
      (hdeclares : Declares (line.code.drop "@start".length) d) : Says line (.start d)
  | finish (hbegins : Begins line .finish) : Says line .finish

namespace Statement

/-- A call names a declared subroutine and has as many arguments as it takes, none of which is
empty. -/
def Fits (table : Table) : Statement → Prop
  | call name arguments =>
    ∃ d ∈ table, d.name = name ∧ arguments.length = d.arity ∧ [] ∉ arguments
  | plain | start _ | finish => True

/-- The marker of a statement. -/
def marker? : Statement → Option Marker
  | plain => none
  | call _ _ => some .call
  | start _ => some .start
  | finish => some .finish

/-- The number of calls. -/
def calls : Statement → Nat
  | call _ _ => 1
  | plain | start _ | finish => 0

/-- The lines that stand for a line that says something, where `n` calls came before. -/
def expansion (line : Line) (n : Nat) : Statement → List Line
  | plain => [line]
  | call name arguments =>
    (arguments.zipIdx.map fun entry =>
      line.withContents (s!"MOV $arg{entry.2} ".toList ++ entry.1))
      ++ [line.withContents s!"MOV $jump_back :ret{n}".toList,
          line.withContents ("JMP :".toList ++ name),
          line.withContents s!"ret{n}:".toList]
  | start d =>
    [line.withContents (d.name ++ [':']), line.withContents "MOV $return 0".toList]
  | finish => [line.withContents "JMP $jump_back".toList]

end Statement

/-- The pass finds the marker of the statement. -/
theorem Says.of?_eq {line : Line} {statement : Statement} (h : Says line statement) :
    Marker.of? line = statement.marker? := by
  cases h with
  | plain hplain => exact of?_eq_none_iff.mpr hplain
  | call hbegins _ => exact of?_eq_some_iff.mpr hbegins
  | start hbegins _ => exact of?_eq_some_iff.mpr hbegins
  | finish hbegins => exact of?_eq_some_iff.mpr hbegins

theorem handOver_eq_map (line : Line) (i : Nat) (arguments : List Token) :
    handOver line i arguments = (arguments.zipIdx i).map fun entry =>
      line.withContents (s!"MOV $arg{entry.2} ".toList ++ entry.1) := by
  induction arguments generalizing i with
  | nil => rfl
  | cons argument arguments ih => rw [handOver, ih, List.zipIdx_cons, List.map_cons]

theorem callLines_eq_ok_iff {table : Table} (hdistinct : table.IsDistinct) {line : Line} {n : Nat}
    {own : List Line} : callLines table line n = .ok own ↔
      ∃ name arguments, Lists (line.code.drop "@call".length) (name :: arguments) ∧
        (Statement.call name arguments).Fits table ∧
        own = (Statement.call name arguments).expansion line n := by
  constructor
  · intro h
    obtain ⟨name, arguments, d, hlist, hd, harity, hempty, rfl⟩ := callLines_eq_ok h
    obtain ⟨hmem, hname⟩ := Table.mem_of_find? hd
    refine ⟨name, arguments, argumentList_eq_ok_iff.mp hlist, ⟨d, hmem, hname, harity, hempty⟩, ?_⟩
    rw [call, handOver_eq_map]
    rfl
  · rintro ⟨name, arguments, hlist, ⟨d, hmem, hname, harity, hempty⟩, rfl⟩
    have hd : table.find? name = some d := hdistinct.find?_eq_some_iff.mpr ⟨hmem, hname⟩
    refine Success.bind_iff.mpr ⟨name :: arguments, argumentList_eq_ok_iff.mpr hlist, ?_⟩
    simp only [List.headD_cons, List.tail_cons, hd, harity, hempty, if_false, ne_eq,
      not_true_eq_false]
    rw [call, handOver_eq_map]
    rfl

/-- **A line expands exactly if it says something that fits the declarations**, and then to what
it says. -/
theorem expandsLine_iff {table : Table} (hdistinct : table.IsDistinct) {n k : Nat} {line : Line}
    {own : List Line} : ExpandsLine table n line own k ↔
      ∃ statement, Says line statement ∧ statement.Fits table ∧
        own = statement.expansion line n ∧ k = n + statement.calls := by
  constructor
  · intro h
    cases h with
    | plain hmarker => exact ⟨.plain, .plain (of?_eq_none_iff.mp hmarker), trivial, rfl, rfl⟩
    | call hmarker hcall =>
        obtain ⟨name, arguments, hlist, hfits, rfl⟩ := (callLines_eq_ok_iff hdistinct).mp hcall
        exact ⟨.call name arguments, .call (of?_eq_some_iff.mp hmarker) hlist, hfits, rfl, rfl⟩
    | @start d hmarker hd =>
        have hdeclares := declarationIn_eq_ok_iff.mp hd
        exact ⟨.start d, .start (of?_eq_some_iff.mp hmarker) hdeclares, trivial, rfl, rfl⟩
    | finish hmarker => exact ⟨.finish, .finish (of?_eq_some_iff.mp hmarker), trivial, rfl, rfl⟩
  · rintro ⟨statement, hsays, hfits, rfl, rfl⟩
    cases hsays with
    | plain hplain => exact .plain (of?_eq_none_iff.mpr hplain)
    | call hbegins hlist =>
        refine .call (of?_eq_some_iff.mpr hbegins) ?_
        exact (callLines_eq_ok_iff hdistinct).mpr ⟨_, _, hlist, hfits, rfl⟩
    | start hbegins hdeclares =>
        exact .start (of?_eq_some_iff.mpr hbegins) (declarationIn_eq_ok_iff.mpr hdeclares)
    | finish hbegins => exact .finish (of?_eq_some_iff.mpr hbegins)

end CellAsm.Subroutine
