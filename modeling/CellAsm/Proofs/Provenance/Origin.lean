import CellAsm.Proofs.Success

set_option autoImplicit false

/-! # Where lines and faults come from

The passes change only the contents of a line, so its number, its file and what was typed there tell
which line it was (`Line.origin`). A pass may drop lines and make several of one; the lines that it
leaves still come from lines before it, in the same order (`Descends`). A computation that fails
blames a line (`Blames`), one of those that it works on. Both are put together link by link.
-/

namespace CellAsm

/-! ## Origins -/

namespace Line

/-- What no pass changes. -/
def origin (line : Line) : Nat × String × String := (line.number, line.file, line.source)

/-- The line is one of the physical lines of a text, as far as its origin tells: the line with this
number in the text is what was typed. -/
structure StandsIn (line : Line) (file text : String) : Prop where
  file_eq : line.file = file
  number_pos : 0 < line.number
  source_eq : (Text.physicalLines text.toList)[line.number - 1]? = some line.source.toList

theorem origin_withContents (line : Line) (contents : List Char) :
    (line.withContents contents).origin = line.origin :=
  rfl

theorem StandsIn.of_origin_eq {line source : Line} {file text : String}
    (h : source.StandsIn file text) (horigin : line.origin = source.origin) :
    line.StandsIn file text := by
  obtain ⟨hnumber, hfile, hsource⟩ :
      line.number = source.number ∧ line.file = source.file ∧ line.source = source.source := by
    simpa [origin] using horigin
  exact ⟨hfile.trans h.file_eq, hnumber ▸ h.number_pos, hnumber ▸ hsource ▸ h.source_eq⟩

theorem exists_of_mem_numberedFrom {first : Nat} {file : String} {texts : List (List Char)}
    {line : Line} (h : line ∈ numberedFrom first file texts) :
    ∃ i text, texts[i]? = some text ∧ line = typed (first + i) file text := by
  induction texts generalizing first with
  | nil => cases h
  | cons text texts ih =>
      rcases List.mem_cons.mp h with rfl | h
      · exact ⟨0, text, rfl, rfl⟩
      · obtain ⟨i, found, hfound, rfl⟩ := ih h
        exact ⟨i + 1, found, hfound, by rw [Nat.add_assoc, Nat.add_comm 1]⟩

theorem standsIn_of_mem_ofText {line : Line} {file text : String} (h : line ∈ ofText file text) :
    line.StandsIn file text := by
  obtain ⟨i, found, hfound, rfl⟩ := exists_of_mem_numberedFrom h
  refine ⟨rfl, Nat.lt_of_lt_of_le Nat.zero_lt_one (Nat.le_add_right 1 i), ?_⟩
  rw [typed, Nat.add_sub_cancel_left, hfound, String.toList_ofList]

end Line

/-! ## Lines that come from lines -/

/-- The lines come from the sources: some of these are dropped, the others are kept once or several
times, with whatever contents. -/
inductive Descends : List Line → List Line → Prop
  | nil : Descends [] []
  | drop {lines sources : List Line} (source : Line) (h : Descends lines sources) :
      Descends lines (source :: sources)
  | keep {line source : Line} {lines sources : List Line} (horigin : line.origin = source.origin)
      (h : Descends lines (source :: sources)) : Descends (line :: lines) (source :: sources)

namespace Descends

variable {lines between sources own : List Line} {source : Line}

/-- What one line leaves, in front of what the lines behind it leave. -/
theorem cons_of_forall (hown : ∀ line ∈ own, line.origin = source.origin)
    (h : Descends lines sources) : Descends (own ++ lines) (source :: sources) := by
  induction own with
  | nil => exact .drop source h
  | cons line own ih =>
      obtain ⟨hline, hown⟩ := List.forall_mem_cons.mp hown
      exact .keep hline (ih hown)

protected theorem refl (lines : List Line) : Descends lines lines := by
  induction lines with
  | nil => exact .nil
  | cons line lines ih => exact .keep rfl (.drop line ih)

protected theorem trans (h : Descends lines between) (hbetween : Descends between sources) :
    Descends lines sources := by
  induction hbetween generalizing lines with
  | nil => exact h
  | drop source _ ih => exact .drop source (ih h)
  | @keep line source between sources horigin hbetween ih =>
      -- the lines that come from `line` come from `source`, the others from lines behind it
      generalize hall : line :: between = all at h
      induction h with
      | nil => cases hall
      | drop found hrest =>
          obtain ⟨rfl, rfl⟩ := List.cons.inj hall
          exact ih hrest
      | keep hline _ ihLines =>
          have hfound := ihLines hall
          obtain ⟨rfl, -⟩ := List.cons.inj hall
          exact .keep (hline.trans horigin) hfound

theorem exists_source_of_mem (h : Descends lines sources) {line : Line} (hline : line ∈ lines) :
    ∃ source ∈ sources, line.origin = source.origin := by
  induction h with
  | nil => cases hline
  | drop source _ ih =>
      obtain ⟨found, hfound, horigin⟩ := ih hline
      exact ⟨found, List.mem_cons_of_mem source hfound, horigin⟩
  | keep horigin _ ih =>
      rcases List.mem_cons.mp hline with rfl | hline
      · exact ⟨_, List.mem_cons_self, horigin⟩
      · exact ih hline

/-- **The lines stand in the order of their sources**, which they name by ascending positions. -/
theorem exists_positions (h : Descends lines sources) :
    ∃ positions : List Nat, positions.Pairwise (· ≤ ·) ∧
      List.Forall₂ (fun line p => ∃ source, sources[p]? = some source ∧ line.origin = source.origin)
        lines positions := by
  induction h with
  | nil => exact ⟨[], .nil, .nil⟩
  | drop source _ ih =>
      obtain ⟨positions, hascending, hsources⟩ := ih
      refine ⟨positions.map (· + 1), ?_, ?_⟩
      · exact List.pairwise_map.mpr (hascending.imp fun hle => Nat.succ_le_succ hle)
      · refine List.forall₂_map_right_iff.mpr (hsources.imp fun line p hp => ?_)
        simpa using hp
  | keep horigin _ ih =>
      obtain ⟨positions, hascending, hsources⟩ := ih
      refine ⟨0 :: positions, List.pairwise_cons.mpr ⟨fun p _ => Nat.zero_le p, hascending⟩, ?_⟩
      exact .cons ⟨_, rfl, horigin⟩ hsources

end Descends

/-! ## Computations that blame a line -/

/-- If the computation fails, its fault has a line, and `P` holds of it. -/
def Blames {α : Type} (P : Line → Prop) (outcome : Except Fault α) : Prop :=
  ∀ fault, outcome = .error fault → ∃ line, P line ∧ fault.line = some line

namespace Blames

variable {α β : Type} {P : Line → Prop} {line : Line}

theorem ok (a : α) : Blames P (.ok a) := fun _ h => by cases h

theorem inLine (h : P line) (cause : Fault.Cause) :
    Blames P (.error (.inLine line cause) : Except Fault α) := fun _ hfault =>
  ⟨line, h, congrArg Fault.line (Except.error.inj hfault).symm⟩

theorem check (h : P line) (result : Except Fault.Cause α) : Blames P (line.check result) := by
  cases result with
  | error cause => exact inLine h cause
  | ok a => exact ok a

theorem bind {x : Except Fault α} {f : α → Except Fault β} (hx : Blames P x)
    (hf : ∀ a, x = .ok a → Blames P (f a)) : Blames P (x >>= f) := fun fault h => by
  rcases Failure.bind_iff.mp h with hfault | ⟨a, ha, hfault⟩
  · exact hx fault hfault
  · exact hf a ha fault hfault

theorem map {x : Except Fault α} (hx : Blames P x) (f : α → β) : Blames P (x.map f) :=
  fun fault h => hx fault (Failure.map_iff.mp h)

theorem mono {Q : Line → Prop} {x : Except Fault α} (hx : Blames P x)
    (h : ∀ line, P line → Q line) : Blames Q x := fun fault hfault => by
  obtain ⟨line, hline, hfault⟩ := hx fault hfault
  exact ⟨line, h line hline, hfault⟩

/-- A report blames what the computations blame that it is made of. -/
theorem andThen {report : Report α} {next : α → Report β} (hreport : Blames P report.result)
    (hnext : ∀ a, report.result = .ok a → Blames P (next a).result) :
    Blames P (report >>= next).result := fun fault h => by
  rcases Failure.andThen_iff.mp h with hfault | ⟨a, ha, hfault⟩
  · exact hreport fault hfault
  · exact hnext a ha fault hfault

theorem mapM {ι : Type} {f : ι → Except Fault α} {inputs : List ι}
    (h : ∀ input ∈ inputs, Blames P (f input)) : Blames P (inputs.mapM f) :=
  fun fault hfault => by
    obtain ⟨input, hinput, hfault⟩ := Failure.exists_mem_of_mapM hfault
    exact h input hinput fault hfault

end Blames

end CellAsm
