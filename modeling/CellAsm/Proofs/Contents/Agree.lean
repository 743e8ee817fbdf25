import CellAsm.Proofs.Success

set_option autoImplicit false

/-! # Lines that differ in their origin only

The number of a line, its file and what was typed there are carried along for the faults and have
no part in what is made of the line. So lines with the same contents (`SameLines`) are processed
alike: computations on them agree (`Agree`) if both succeed, with values that are related again, or
both fail and say the same (`Fault.Alike`). Chains of computations agree link by link.
-/

namespace CellAsm

/-! ## Lines and faults -/

/-- Lines that have the same contents at the same places. -/
abbrev SameLines : List Line → List Line → Prop :=
  List.Forall₂ fun line line' => line.contents = line'.contents

/-- Two faults say the same; the lines that they belong to may be different ones. -/
structure Fault.Alike (fault fault' : Fault) : Prop where
  code_eq : fault.code = fault'.code
  text_eq : fault.text = fault'.text

theorem Fault.Alike.inLine (line line' : Line) (cause : Fault.Cause) :
    Fault.Alike (.inLine line cause) (.inLine line' cause) :=
  ⟨rfl, rfl⟩

namespace Line

variable {line line' : Line}

theorem code_congr (h : line.contents = line'.contents) : line.code = line'.code := by
  rw [code, code, h]

theorem tokens_congr (h : line.contents = line'.contents) : line.tokens = line'.tokens := by
  rw [tokens, tokens, h]

end Line

namespace SameLines

theorem refl (lines : List Line) : SameLines lines lines :=
  List.forall₂_same.mpr fun _ _ => rfl

theorem contents_eq {lines lines' : List Line} (h : SameLines lines lines') :
    lines.map Line.contents = lines'.map Line.contents := by
  induction h with
  | nil => rfl
  | cons hline _ ih => rw [List.map_cons, List.map_cons, hline, ih]

theorem append {lines lines' rest rest' : List Line} (h : SameLines lines lines')
    (hrest : SameLines rest rest') : SameLines (lines ++ rest) (lines' ++ rest') :=
  List.rel_append h hrest

/-- A line with new contents, in front of the others. -/
theorem cons_withContents (line line' : Line) (contents : List Char) {rest rest' : List Line}
    (h : SameLines rest rest') :
    SameLines (line.withContents contents :: rest) (line'.withContents contents :: rest') :=
  .cons rfl h

end SameLines

/-! ## Outcomes that agree -/

/-- Two outcomes agree: both are values, which `R` relates, or both are errors, which `E` relates. -/
inductive Agree {ε α β : Type} (E : ε → ε → Prop) (R : α → β → Prop) :
    Except ε α → Except ε β → Prop
  | ok {a : α} {b : β} (h : R a b) : Agree E R (.ok a) (.ok b)
  | error {e e' : ε} (h : E e e') : Agree E R (.error e) (.error e')

namespace Agree

variable {ε α β γ δ : Type} {E : ε → ε → Prop} {R : α → β → Prop} {S : γ → δ → Prop}

theorem inLine (line line' : Line) (cause : Fault.Cause) :
    Agree Fault.Alike R (.error (.inLine line cause)) (.error (.inLine line' cause)) :=
  .error (.inLine line line' cause)

/-- A cause is the same wherever it is placed. -/
theorem check (line line' : Line) {x : Except Fault.Cause α} {y : Except Fault.Cause β}
    (h : Agree Eq R x y) : Agree Fault.Alike R (line.check x) (line'.check y) := by
  cases h with
  | ok h => exact .ok h
  | error h =>
      obtain rfl := h
      exact inLine line line' _

protected theorem refl (x : Except Fault.Cause α) : Agree Eq Eq x x := by
  cases x with
  | ok a => exact .ok rfl
  | error cause => exact .error rfl

theorem bind {x : Except ε α} {y : Except ε β} {f : α → Except ε γ} {g : β → Except ε δ}
    (h : Agree E R x y) (hnext : ∀ a b, R a b → Agree E S (f a) (g b)) :
    Agree E S (x >>= f) (y >>= g) := by
  cases h with
  | ok h => exact hnext _ _ h
  | error h => exact .error h

theorem map {x : Except ε α} {y : Except ε β} {f : α → γ} {g : β → δ} (h : Agree E R x y)
    (hmap : ∀ a b, R a b → S (f a) (g b)) : Agree E S (x.map f) (y.map g) := by
  cases h with
  | ok h => exact .ok (hmap _ _ h)
  | error h => exact .error h

theorem imp {T : α → β → Prop} {x : Except ε α} {y : Except ε β} (h : Agree E R x y)
    (himp : ∀ a b, R a b → T a b) : Agree E T x y := by
  cases h with
  | ok h => exact .ok (himp _ _ h)
  | error h => exact .error h

/-- Only the second outcome is mapped. -/
theorem map_right {T : α → δ → Prop} {x : Except ε α} {y : Except ε β} {g : β → δ}
    (h : Agree E R x y) (hmap : ∀ a b, R a b → T a (g b)) : Agree E T x (y.map g) := by
  cases h with
  | ok h => exact .ok (hmap _ _ h)
  | error h => exact .error h

theorem mapM {ι κ : Type} {f : ι → Except ε α} {g : κ → Except ε β} {inputs : List ι}
    {inputs' : List κ} (h : List.Forall₂ (fun i k => Agree E R (f i) (g k)) inputs inputs') :
    Agree E (List.Forall₂ R) (inputs.mapM f) (inputs'.mapM g) := by
  induction h with
  | nil => exact .ok .nil
  | cons hinput _ ih =>
      rw [List.mapM_cons, List.mapM_cons]
      refine hinput.bind fun a b hab => ih.bind fun as bs hrest => ?_
      exact .ok (.cons hab hrest)

end Agree

/-! ## Policies that agree -/

/-- Two policies decide alike: which lines the warnings belong to makes no difference. -/
def Policy.Alike (policy policy' : Policy) : Prop :=
  ∀ ⦃noted noted' : List Fault⦄ ⦃warning warning' : Fault⦄, List.Forall₂ Fault.Alike noted noted' →
    warning.Alike warning' → policy.ends noted warning = policy'.ends noted' warning'

namespace Policy.Alike

theorem strict : Policy.Alike .strict .strict := fun _ _ _ _ _ _ => rfl

theorem collect : Policy.Alike .collect .collect := fun _ _ _ _ _ _ => rfl

/-- They go on to do so once they have noted warnings that say the same. -/
theorem after {policy policy' : Policy} (h : policy.Alike policy') {noted noted' : List Fault}
    (hnoted : List.Forall₂ Fault.Alike noted noted') :
    (policy.after noted).Alike (policy'.after noted') :=
  fun _ _ _ _ hmore hwarning => h (List.rel_append hnoted hmore) hwarning

end Policy.Alike

/-! ## Reports that agree -/

/-- Two reports agree: their warnings say the same one by one, and their results agree. -/
structure Report.Alike {α β : Type} (R : α → β → Prop) (report : Report α) (report' : Report β) :
    Prop where
  warnings : List.Forall₂ Fault.Alike report.warnings report'.warnings
  result : Agree Fault.Alike R report.result report'.result

namespace Report.Alike

variable {α β γ δ : Type} {R : α → β → Prop} {S : γ → δ → Prop}

theorem ofExcept {x : Except Fault α} {y : Except Fault β} (h : Agree Fault.Alike R x y) :
    Report.Alike R (.ofExcept x) (.ofExcept y) :=
  ⟨.nil, h⟩

theorem pure {a : α} {b : β} (h : R a b) : Report.Alike R (Pure.pure a) (Pure.pure b) :=
  ⟨.nil, .ok h⟩

theorem fail (line line' : Line) (cause : Fault.Cause) :
    Report.Alike R (.fail (.inLine line cause)) (.fail (.inLine line' cause)) :=
  ⟨.nil, .inLine line line' cause⟩

theorem warn {policy policy' : Policy} (h : policy.Alike policy') (line line' : Line)
    (cause : Fault.Cause) :
    Report.Alike Eq (.warn policy (.inLine line cause)) (.warn policy' (.inLine line' cause)) := by
  rw [Report.warn, Report.warn, h .nil (.inLine line line' cause)]
  split_ifs
  · exact fail line line' cause
  · exact ⟨.cons (.inLine line line' cause) .nil, .ok rfl⟩

theorem bind {report : Report α} {report' : Report β} {next : α → Report γ} {next' : β → Report δ}
    (h : report.Alike R report') (hnext : ∀ a b, R a b → (next a).Alike S (next' b)) :
    (report >>= next).Alike S (report' >>= next') := by
  obtain ⟨warnings, result⟩ := report
  obtain ⟨warnings', result'⟩ := report'
  obtain ⟨hwarnings, hresult⟩ := h
  dsimp only at hwarnings hresult
  cases hresult with
  | ok hvalue =>
      obtain ⟨hmore, hresult⟩ := hnext _ _ hvalue
      exact ⟨List.rel_append hwarnings hmore, hresult⟩
  | error hfault => exact ⟨hwarnings, .error hfault⟩

end Report.Alike

end CellAsm
