import CellAsm.Report
import Mathlib.Data.Bool.AllAny
import Mathlib.Data.List.Forall2
import Mathlib.Tactic

set_option autoImplicit false

/-! # What success says about the parts

Passes, codegen and the machine are chains of computations that can fail. A chain succeeds
exactly when every link does, and then its value is the value of the last link. The lemmas below
take a chain apart in this way, for `Except`, for a computation placed in a line
(`Line.check`), for a list of computations (`List.mapM`) and for a `Report`; they are the only
place where the monads themselves are looked at. A chain fails with the error of the first link
that does, and where this is in a list is said by a cut of the list.
-/

namespace CellAsm

variable {ε α β : Type}

/-- A list with one more item is cut at that item, or where the list itself can be cut. -/
theorem concat_eq_append_cons_iff {before front back : List α} {last x : α} :
    before ++ [last] = front ++ x :: back ↔
      front = before ∧ x = last ∧ back = [] ∨
        ∃ rest, back = rest ++ [last] ∧ before = front ++ x :: rest := by
  constructor
  · intro hsplit
    rcases List.eq_nil_or_concat' back with rfl | ⟨rest, found, rfl⟩
    · obtain ⟨rfl, hlast⟩ := List.append_inj' hsplit rfl
      exact .inl ⟨rfl, (List.singleton_injective hlast).symm, rfl⟩
    · rw [← List.cons_append, ← List.append_assoc] at hsplit
      obtain ⟨rfl, hlast⟩ := List.append_inj' hsplit rfl
      rw [List.singleton_injective hlast]
      exact .inr ⟨rest, rfl, rfl⟩
  · rintro (⟨rfl, rfl, rfl⟩ | ⟨rest, rfl, rfl⟩)
    · rfl
    · simp

namespace Success

theorem bind_iff {x : Except ε α} {f : α → Except ε β} {b : β} :
    x >>= f = .ok b ↔ ∃ a, x = .ok a ∧ f a = .ok b := by
  cases x with
  | error e => simp [bind, Except.bind]
  | ok a => simp [bind, Except.bind]

theorem map_iff {x : Except ε α} {f : α → β} {b : β} :
    x.map f = .ok b ↔ ∃ a, x = .ok a ∧ f a = b := by
  cases x with
  | error e => simp [Except.map]
  | ok a => simp [Except.map]

theorem pure_iff {a b : α} : (pure a : Except ε α) = .ok b ↔ a = b := by
  simp [pure, Except.pure]

theorem check_iff {line : Line} {x : Except Fault.Cause α} {a : α} :
    line.check x = .ok a ↔ x = .ok a := by
  cases x with
  | error e => simp [Line.check, Except.mapError]
  | ok a => simp [Line.check, Except.mapError]

/-- A list of computations succeeds when each of them does, with the list of their values. -/
theorem mapM_iff {f : α → Except ε β} {xs : List α} {ys : List β} :
    xs.mapM f = .ok ys ↔ List.Forall₂ (fun x y => f x = .ok y) xs ys := by
  induction xs generalizing ys with
  | nil =>
      rw [List.mapM_nil, pure_iff, List.forall₂_nil_left_iff]
      exact eq_comm
  | cons x xs ih =>
      rw [List.mapM_cons, bind_iff]
      constructor
      · rintro ⟨y, hy, h⟩
        obtain ⟨rest, hrest, h⟩ := bind_iff.mp h
        obtain rfl := pure_iff.mp h
        exact .cons hy (ih.mp hrest)
      · intro h
        cases h with
        | cons hy hrest => exact ⟨_, hy, bind_iff.mpr ⟨_, ih.mpr hrest, rfl⟩⟩

theorem mapM_nil_iff {f : α → Except ε β} {ys : List β} : [].mapM f = .ok ys ↔ ys = [] := by
  rw [List.mapM_nil, pure_iff]
  exact eq_comm

theorem mapM_cons_iff {f : α → Except ε β} {x : α} {xs : List α} {ys : List β} :
    (x :: xs).mapM f = .ok ys ↔
      ∃ y rest, f x = .ok y ∧ xs.mapM f = .ok rest ∧ ys = y :: rest := by
  simp only [mapM_iff, List.forall₂_cons_left_iff]

theorem exists_mem_of_mapM {f : α → Except ε β} {xs : List α} {ys : List β}
    (h : xs.mapM f = .ok ys) {x : α} (hx : x ∈ xs) : ∃ y ∈ ys, f x = .ok y := by
  have h := mapM_iff.mp h
  clear * - h hx
  induction h with
  | nil => simp at hx
  | @cons x' y xs ys hy _ ih =>
      rcases List.mem_cons.mp hx with rfl | hx
      · exact ⟨y, by simp, hy⟩
      · obtain ⟨z, hz, hxz⟩ := ih hx
        exact ⟨z, by simp [hz], hxz⟩

theorem exists_source_of_mapM {f : α → Except ε β} {xs : List α} {ys : List β}
    (h : xs.mapM f = .ok ys) {y : β} (hy : y ∈ ys) : ∃ x ∈ xs, f x = .ok y := by
  have h := mapM_iff.mp h
  clear * - h hy
  induction h with
  | nil => cases hy
  | @cons x z xs ys hx _ ih =>
      rcases List.mem_cons.mp hy with rfl | hy
      · exact ⟨x, List.mem_cons_self, hx⟩
      · obtain ⟨found, hfound, hy⟩ := ih hy
        exact ⟨found, List.mem_cons_of_mem x hfound, hy⟩

/-- Computations succeed together, each with a value that is right for it, when each one does. -/
theorem exists_mapM_iff {f : α → Except ε β} {P : α → β → Prop} {xs : List α} :
    (∃ ys, xs.mapM f = .ok ys ∧ List.Forall₂ P xs ys) ↔ ∀ x ∈ xs, ∃ y, f x = .ok y ∧ P x y := by
  induction xs with
  | nil =>
      refine iff_of_true ⟨[], mapM_nil_iff.mpr rfl, .nil⟩ ?_
      simp
  | cons x xs ih =>
      rw [List.forall_mem_cons, ← ih]
      constructor
      · rintro ⟨ys, hys, hP⟩
        obtain ⟨y, rest, hy, hrest, rfl⟩ := mapM_cons_iff.mp hys
        cases hP with
        | cons hPy hPrest => exact ⟨⟨y, hy, hPy⟩, rest, hrest, hPrest⟩
      · rintro ⟨⟨y, hy, hPy⟩, rest, hrest, hPrest⟩
        exact ⟨y :: rest, mapM_cons_iff.mpr ⟨y, rest, hy, hrest, rfl⟩, .cons hPy hPrest⟩

theorem andThen_iff {report : Report α} {next : α → Report β} {b : β} :
    (report.andThen next).result = .ok b
      ↔ ∃ a, report.result = .ok a ∧ (next a).result = .ok b := by
  obtain ⟨ws, r⟩ := report
  cases r with
  | error e => simp
  | ok a => simp

end Success

namespace Failure

theorem bind_iff {x : Except ε α} {f : α → Except ε β} {e : ε} :
    x >>= f = .error e ↔ x = .error e ∨ ∃ a, x = .ok a ∧ f a = .error e := by
  cases x with
  | error e' => simp [bind, Except.bind]
  | ok a => simp [bind, Except.bind]

theorem map_iff {x : Except ε α} {f : α → β} {e : ε} : x.map f = .error e ↔ x = .error e := by
  cases x with
  | error e' => simp [Except.map]
  | ok a => simp [Except.map]

theorem andThen_iff {report : Report α} {next : α → Report β} {fault : Fault} :
    (report.andThen next).result = .error fault
      ↔ report.result = .error fault ∨
        ∃ a, report.result = .ok a ∧ (next a).result = .error fault := by
  obtain ⟨warnings, result⟩ := report
  cases result with
  | error found => simp
  | ok a => simp

theorem check_iff {line : Line} {x : Except Fault.Cause α} {fault : Fault} :
    line.check x = .error fault ↔ ∃ cause, x = .error cause ∧ fault = .inLine line cause := by
  cases x with
  | error cause => simp [Line.check, Except.mapError, eq_comm]
  | ok a => simp [Line.check, Except.mapError]

/-- A list of computations fails with the first one that does. -/
theorem mapM_iff {f : α → Except ε β} {xs : List α} {e : ε} :
    xs.mapM f = .error e ↔
      ∃ front x back, xs = front ++ x :: back ∧ (∀ y ∈ front, ∃ b, f y = .ok b) ∧
        f x = .error e := by
  induction xs with
  | nil => simp [List.mapM_nil, pure, Except.pure]
  | cons x xs ih =>
      rw [List.mapM_cons, bind_iff]
      constructor
      · rintro (hx | ⟨b, hb, h⟩)
        · exact ⟨[], x, xs, rfl, List.forall_mem_nil _, hx⟩
        · rcases bind_iff.mp h with hxs | ⟨_, -, h⟩
          · obtain ⟨front, y, back, rfl, hfront, hy⟩ := ih.mp hxs
            exact ⟨x :: front, y, back, rfl, List.forall_mem_cons.mpr ⟨⟨b, hb⟩, hfront⟩, hy⟩
          · cases h
      · rintro ⟨front, y, back, hsplit, hfront, hy⟩
        cases front with
        | nil =>
            obtain ⟨rfl, rfl⟩ := List.cons.inj hsplit
            exact .inl hy
        | cons first front =>
            obtain ⟨rfl, rfl⟩ := List.cons.inj hsplit
            obtain ⟨⟨b, hb⟩, hfront⟩ := List.forall_mem_cons.mp hfront
            exact .inr ⟨b, hb, bind_iff.mpr (.inl (ih.mpr ⟨front, y, back, rfl, hfront, hy⟩))⟩

/-- Where only some of the computations are made, the first of these that fails is at fault. -/
theorem mapM_filter_iff {f : α → Except ε β} {p : α → Bool} {xs : List α} {e : ε} :
    (xs.filter p).mapM f = .error e ↔
      ∃ front x back, xs = front ++ x :: back ∧ (∀ y ∈ front, p y = true → ∃ b, f y = .ok b) ∧
        p x = true ∧ f x = .error e := by
  rw [mapM_iff]
  constructor
  · rintro ⟨front, x, back, hsplit, hfront, hx⟩
    obtain ⟨first, rest, rfl, rfl, hrest⟩ := List.filter_eq_append_iff.mp hsplit
    obtain ⟨skipped, back, rfl, hskipped, hpx, -⟩ := List.filter_eq_cons_iff.mp hrest
    refine ⟨first ++ skipped, x, back, by simp, fun y hy hpy => ?_, hpx, hx⟩
    rcases List.mem_append.mp hy with hy | hy
    · exact hfront y (List.mem_filter.mpr ⟨hy, hpy⟩)
    · exact absurd hpy (hskipped y hy)
  · rintro ⟨front, x, back, rfl, hfront, hpx, hx⟩
    refine ⟨front.filter p, x, back.filter p, ?_, fun y hy => ?_, hx⟩
    · rw [List.filter_append, List.filter_cons_of_pos hpx]
    · obtain ⟨hy, hpy⟩ := List.mem_filter.mp hy
      exact hfront y hy hpy

/-- A computation that goes through a list fails with the first step that does. -/
theorem foldlM_iff {f : β → α → Except ε β} {b : β} {xs : List α} {e : ε} :
    xs.foldlM f b = .error e ↔
      ∃ front x back next, xs = front ++ x :: back ∧ front.foldlM f b = .ok next ∧
        f next x = .error e := by
  -- the first item fails, or the induction cuts the rest behind it
  induction xs generalizing b with
  | nil => simp [pure, Except.pure]
  | cons x xs ih =>
      rw [List.foldlM_cons, bind_iff]
      constructor
      · rintro (hx | ⟨next, hnext, h⟩)
        · exact ⟨[], x, xs, b, rfl, rfl, hx⟩
        · obtain ⟨front, y, back, last, rfl, hfront, hy⟩ := ih.mp h
          refine ⟨x :: front, y, back, last, rfl, ?_, hy⟩
          rw [List.foldlM_cons]
          exact Success.bind_iff.mpr ⟨next, hnext, hfront⟩
      · rintro ⟨front, y, back, last, hsplit, hfront, hy⟩
        cases front with
        | nil =>
            obtain ⟨rfl, rfl⟩ := List.cons.inj hsplit
            obtain rfl := Success.pure_iff.mp hfront
            exact .inl hy
        | cons first front =>
            obtain ⟨rfl, rfl⟩ := List.cons.inj hsplit
            rw [List.foldlM_cons] at hfront
            obtain ⟨next, hnext, hfront⟩ := Success.bind_iff.mp hfront
            exact .inr ⟨next, hnext, ih.mpr ⟨front, y, back, last, rfl, hfront, hy⟩⟩

theorem exists_mem_of_mapM {f : α → Except ε β} {xs : List α} {e : ε}
    (h : xs.mapM f = .error e) : ∃ x ∈ xs, f x = .error e := by
  obtain ⟨front, x, back, rfl, -, hx⟩ := mapM_iff.mp h
  exact ⟨x, List.mem_append_right front List.mem_cons_self, hx⟩

end Failure

namespace Report

theorem bind_of_ok {report : Report α} {a : α} (h : report.result = .ok a)
    (next : α → Report β) :
    report >>= next = ⟨report.warnings ++ (next a).warnings, (next a).result⟩ := by
  rw [bind_eq, andThen, h]

theorem bind_of_error {report : Report α} {fault : Fault} (h : report.result = .error fault)
    (next : α → Report β) : report >>= next = ⟨report.warnings, .error fault⟩ := by
  rw [bind_eq, andThen, h]

theorem warnings_bind_of_ok {report : Report α} {a : α} (h : report.result = .ok a)
    (next : α → Report β) :
    (report >>= next).warnings = report.warnings ++ (next a).warnings :=
  congrArg warnings (bind_of_ok h next)

theorem bind_pure_comp (report : Report α) (f : α → β) :
    (report >>= fun a => pure (f a)) = ⟨report.warnings, report.result.map f⟩ := by
  cases h : report.result with
  | error fault => exact bind_of_error h _
  | ok a => rw [bind_of_ok h, pure_eq, List.append_nil]; rfl

/-- Warnings are joined in the order in which they were met, however the parts are grouped. -/
instance : LawfulMonad Report :=
  .mk' Report
    (by
      rintro α ⟨ws, result⟩
      cases result with
      | error fault => rfl
      | ok a => exact congrArg (fun kept => (⟨kept, .ok a⟩ : Report α)) (List.append_nil ws))
    (fun _ _ => rfl)
    (by
      rintro α β γ ⟨ws, result⟩ next last
      cases result with
      | error fault => rfl
      | ok a =>
          simp only [bind_eq, andThen_ok]
          cases hresult : (next a).result with
          | error fault => simp [andThen, hresult]
          | ok b => simp [andThen, hresult])

end Report

end CellAsm
