import CellAsm.Assembler
import CellAsm.Proofs.Pass.ConstantLine
import CellAsm.Proofs.Pass.Import

set_option autoImplicit false

/-! # Policies

A policy decides of each warning whether it ends the work, and nothing else depends on it. So the
report under any policy can be read off the report under the collecting one: its warnings are raised
again, one after the other, up to the first that ends the work (`Report.under`). Reading it off is a
morphism: it goes through the steps of a longer computation (`Report.under_bind`), and it is enough
to look at the one place where a policy is asked, the definition of a constant. Under the strict
policy the first warning ends the work (`Report.escalate`). The warnings themselves are listed
without running the pass beyond the line they are in (`Constant.redefinitions`).
-/

namespace CellAsm

/-! ## A report read under another policy -/

namespace Policy

variable {policy : Policy} {warnings : List Fault}

/-- Raises warnings one after the other, up to the first that ends the work. -/
def raise (policy : Policy) : List Fault → Report Unit
  | [] => pure ()
  | warning :: warnings => Report.warn policy warning >>= fun _ =>
      (policy.after [warning]).raise warnings

theorem raise_append (policy : Policy) (warnings more : List Fault) :
    policy.raise (warnings ++ more) =
      policy.raise warnings >>= fun _ => (policy.after warnings).raise more := by
  induction warnings generalizing policy with
  | nil => exact (pure_bind () fun _ : Unit => policy.raise more).symm
  | cons warning warnings ih =>
      rw [List.cons_append, raise, raise, bind_assoc]
      simp only [ih, after_after, List.singleton_append]

/-- Where the work goes on, all warnings have been noted. -/
theorem warnings_raise_of_ok (h : (policy.raise warnings).result = .ok ()) :
    (policy.raise warnings).warnings = warnings := by
  induction warnings generalizing policy with
  | nil => rfl
  | cons warning warnings ih =>
      rw [raise, Report.warn] at h ⊢
      cases hends : policy.ends [] warning with
      | true => rw [hends] at h; cases h
      | false =>
          rw [hends] at h
          exact congrArg (warning :: ·) (ih h)

end Policy

namespace Report

variable {α β : Type} {policy : Policy}

/-- The report that a policy gives where the collecting one gives `report`. -/
def under (policy : Policy) (report : Report α) : Report α :=
  policy.raise report.warnings >>= fun _ => ofExcept report.result

/-- The second part is judged by what the policy does once it has noted those of the first. -/
theorem under_bind (policy : Policy) (report : Report α) (next : α → Report β) :
    (report >>= next).under policy =
      report.under policy >>= fun a => (next a).under (policy.after report.warnings) := by
  obtain ⟨warnings, result⟩ := report
  cases result with
  | error fault =>
      rw [bind_eq, andThen_error, under, under, bind_assoc]
      rfl
  | ok a =>
      rw [bind_eq, andThen_ok, under, under, Policy.raise_append, bind_assoc, bind_assoc]
      rfl

theorem under_of_nil {report : Report α} (h : report.warnings = []) :
    report.under policy = report := by
  obtain ⟨warnings, result⟩ := report
  obtain rfl : warnings = [] := h
  rfl

theorem under_warn (policy : Policy) (warning : Fault) :
    (warn .collect warning).under policy = warn policy warning := by
  rw [under, warn, if_neg (by simp [Policy.collect])]
  exact (bind_assoc (warn policy warning) _ _).trans (bind_pure (warn policy warning))

theorem warnings_under_of_ok {report : Report α} {a : α}
    (h : (report.under policy).result = .ok a) :
    (report.under policy).warnings = report.warnings := by
  obtain ⟨_, hraise, -⟩ := Success.andThen_iff.mp h
  rw [under, warnings_bind_of_ok hraise, Policy.warnings_raise_of_ok hraise]
  exact List.append_nil report.warnings

/-- Only what follows a success counts. -/
theorem bind_congr_of_ok {report : Report α} {next next' : α → Report β}
    (h : ∀ a, report.result = .ok a → next a = next' a) : report >>= next = report >>= next' := by
  cases hresult : report.result with
  | error fault => rw [bind_of_error hresult, bind_of_error hresult]
  | ok a => rw [bind_of_ok hresult, bind_of_ok hresult, h a hresult]

/-- A report as the strict policy gives it: the first warning, if there is one, is the fault that
ends the work. -/
def escalate (report : Report α) : Report α :=
  match report.warnings with
  | [] => report
  | warning :: _ => fail warning

theorem under_strict (report : Report α) : report.under .strict = report.escalate := by
  obtain ⟨warnings, result⟩ := report
  cases warnings <;> rfl

end Report

/-! ## The constant pass under a policy -/

namespace Constant

theorem process_under (policy : Policy) (cells : Nat) (table : Table) (line : Line)
    (name value : Token) :
    process policy cells table line name value
      = (process .collect cells table line name value).under policy := by
  unfold process
  by_cases hname : name = []
  · rw [if_pos hname, if_pos hname]
    rfl
  · rw [if_neg hname, if_neg hname]
    by_cases hdefined : table.isDefined name = true
    · rw [if_pos hdefined, if_pos hdefined, Report.under_bind, Report.under_warn]
      rfl
    · rw [if_neg hdefined, if_neg hdefined]
      rfl

theorem advance_under (policy : Policy) (cells : Nat) (table : Table) (line : Line) :
    advance policy cells table line = (advance .collect cells table line).under policy := by
  cases h : Statement.ofTokens line.tokens with
  | unfinished => rw [advance_of_unfinished h, advance_of_unfinished h]; rfl
  | overlong extra => rw [advance_of_overlong h, advance_of_overlong h]; rfl
  | definition name value =>
      rw [advance_of_definition h, advance_of_definition h, Report.under_bind, ← process_under]
      rfl
  | code tokens =>
      rw [Report.under_of_nil (warnings_advance_of_code h), advance_of_code h, advance_of_code h]

/-- **The pass under a policy is the collecting one, judged by the policy.** -/
theorem replaceFrom_under (policy : Policy) (cells : Nat) (table : Table) (lines : List Line) :
    replaceFrom policy cells table lines
      = (replaceFrom .collect cells table lines).under policy := by
  induction lines generalizing policy table with
  | nil => rfl
  | cons line lines ih =>
      rw [replaceFrom_cons, replaceFrom_cons, Report.under_bind, ← advance_under]
      refine Report.bind_congr_of_ok fun step hstep => ?_
      -- the line is gone past, so the policy has noted what the collecting one has
      rw [advance_under] at hstep ⊢
      rw [Report.warnings_under_of_ok hstep, Policy.after_collect, Report.under_bind, ← ih]
      rfl

end Constant

/-! ## Which warnings there are -/

namespace Constant

/-- Whether a name is among others is decided by comparing tokens. -/
local instance lawfulBEqToken : LawfulBEq Token := inferInstance

/-- The warning in a line that comes after the lines `before`: it defines a constant that one of
these has defined. -/
def redefinition? (before : List Line) (line : Line) : Option Fault :=
  match definedName? line with
  | some name =>
    if name ∈ before.filterMap definedName? then some (.inLine line (.constantRedefined name))
    else none
  | none => none

/-- Whether the pass reaches the line at position `i`: no line before it has a fault. -/
def isReached (cells : Nat) (lines : List Line) (i : Nat) : Bool :=
  (replace .collect cells (lines.take i)).result.isOk

/-- A warning for each line that is reached and defines a constant anew, from the first to the
last. -/
def redefinitions (cells : Nat) (lines : List Line) : List Fault :=
  (List.range lines.length).filterMap fun i =>
    if isReached cells lines i then lines[i]?.bind (redefinition? (lines.take i)) else none

variable {cells : Nat} {table next : Table} {line : Line} {before lines own : List Line}

/-- `table` knows the names that the lines `before` define. -/
def Knows (table : Table) (before : List Line) : Prop :=
  ∀ name, table.isDefined name = true ↔ name ∈ before.filterMap definedName?

theorem knows_nil : Knows {} [] := fun name => by
  simp [Table.isDefined]

theorem Knows.snoc {policy : Policy} (h : Knows table before)
    (hline : (advance policy cells table line).result = .ok (next, own)) :
    Knows next (before ++ [line]) := fun name => by
  rw [isDefined_of_advance hline, h, List.filterMap_append, List.mem_append,
    List.mem_filterMap (l := [line])]
  simp only [List.mem_singleton, exists_eq_left]

/-- A definition is worth a warning exactly when its name is known already. -/
theorem warnings_process {name value : Token} :
    (process .collect cells table line name value).warnings
      = if name ≠ [] ∧ table.isDefined name = true then [.inLine line (.constantRedefined name)]
        else [] := by
  unfold process
  by_cases hname : name = []
  · rw [if_pos hname, if_neg (fun h => h.1 hname)]
    rfl
  · by_cases hdefined : table.isDefined name = true
    · rw [if_neg hname, if_pos hdefined, if_pos ⟨hname, hdefined⟩]
      rfl
    · rw [if_neg hname, if_neg hdefined, if_neg (fun h => hdefined h.2)]
      rfl

theorem warnings_advance (cells : Nat) (h : Knows table before) :
    (advance .collect cells table line).warnings = (redefinition? before line).toList := by
  rw [redefinition?, definedName?]
  cases hstatement : Statement.ofTokens line.tokens with
  | unfinished => rw [advance_of_unfinished hstatement]; rfl
  | overlong extra => rw [advance_of_overlong hstatement]; rfl
  | code tokens => rw [advance_of_code hstatement, Report.bind_pure_comp]; rfl
  | definition name value =>
      rw [advance_of_definition hstatement, Report.bind_pure_comp]
      simp only [warnings_process, h name]
      by_cases hname : name = []
      · simp [hname]
      · by_cases hknown : name ∈ before.filterMap definedName?
        · simp only [hname, hknown, ne_eq, not_false_eq_true, and_self, if_true, if_false,
            Option.toList_some]
        · simp only [hname, hknown, and_false, if_false, Option.toList_none]

theorem isOk_replaceFrom_cons (h : (advance .collect cells table line).result = .ok (next, own)) :
    (replaceFrom .collect cells table (line :: lines)).result.isOk
      = (replaceFrom .collect cells next lines).result.isOk := by
  rw [replaceFrom_cons, Report.bind_of_ok h, Report.bind_pure_comp, Policy.after_collect]
  cases (replaceFrom .collect cells next lines).result with
  | error fault => rfl
  | ok rest => rfl

/-- The warning for the line at position `i`, when the lines `before` are behind `lines` and have
left `table`. -/
def warningAt? (cells : Nat) (table : Table) (before lines : List Line) (i : Nat) : Option Fault :=
  if (replaceFrom .collect cells table (lines.take i)).result.isOk then
    lines[i]?.bind (redefinition? (before ++ lines.take i))
  else none

theorem warningAt?_zero :
    warningAt? cells table before (line :: lines) 0 = redefinition? before line := by
  rw [warningAt?, List.take_zero, List.append_nil]
  rfl

theorem warningAt?_succ_of_ok
    (h : (advance .collect cells table line).result = .ok (next, own)) (i : Nat) :
    warningAt? cells table before (line :: lines) (i + 1)
      = warningAt? cells next (before ++ [line]) lines i := by
  rw [warningAt?, warningAt?, List.take_succ_cons, isOk_replaceFrom_cons h,
    List.getElem?_cons_succ, List.append_assoc, List.singleton_append]

/-- Behind a fault no line is reached. -/
theorem warningAt?_succ_of_error {fault : Fault}
    (h : (advance .collect cells table line).result = .error fault) (i : Nat) :
    warningAt? cells table before (line :: lines) (i + 1) = none := by
  rw [warningAt?, List.take_succ_cons, replaceFrom_cons, Report.bind_of_error h]
  rfl

theorem filterMap_range_succ {α : Type} (f : Nat → Option α) (n : Nat) :
    (List.range (n + 1)).filterMap f
      = (f 0).toList ++ (List.range n).filterMap fun i => f (i + 1) := by
  rw [List.range_succ_eq_map, List.filterMap_cons, List.filterMap_map]
  cases f 0 with
  | none => rfl
  | some a => rfl

theorem warnings_replaceFrom (h : Knows table before) :
    (replaceFrom .collect cells table lines).warnings
      = (List.range lines.length).filterMap (warningAt? cells table before lines) := by
  induction lines generalizing table before with
  | nil => rfl
  | cons line lines ih =>
      rw [List.length_cons, filterMap_range_succ, warningAt?_zero, ← warnings_advance cells h,
        replaceFrom_cons]
      cases hline : (advance .collect cells table line).result with
      | error fault =>
          simp only [Report.bind_of_error hline, warningAt?_succ_of_error hline,
            List.filterMap_none, List.append_nil]
      | ok step =>
          obtain ⟨next, own⟩ := step
          simp only [Report.bind_of_ok hline, Report.bind_pure_comp, Policy.after_collect,
            warningAt?_succ_of_ok hline, ih (h.snoc hline)]

/-- **The pass warns of the redefinitions that it reaches, in their order.** -/
theorem warnings_replace (cells : Nat) (lines : List Line) :
    (replace .collect cells lines).warnings = redefinitions cells lines :=
  warnings_replaceFrom knows_nil

theorem code_of_mem_redefinitions {cells : Nat} {lines : List Line} {warning : Fault}
    (h : warning ∈ redefinitions cells lines) : warning.code = .constantRedefined := by
  obtain ⟨i, -, hi⟩ := List.mem_filterMap.mp h
  split at hi
  · obtain ⟨line, -, hline⟩ := Option.bind_eq_some_iff.mp hi
    unfold redefinition? at hline
    split at hline
    · split at hline
      · obtain rfl := Option.some.inj hline
        rfl
      · cases hline
    · cases hline
  · cases hi

end Constant

/-! ## The assembler under a policy -/

namespace Pass

variable {assembler : Assembler} {lines : List Line}

theorem applyAll_append (first second : List Pass) :
    applyAll assembler (first ++ second) lines
      = applyAll assembler first lines >>= applyAll assembler second := by
  induction first generalizing lines with
  | nil => exact (pure_bind lines _).symm
  | cons pass first ih => simp only [List.cons_append, applyAll, bind_assoc, ih]

/-- Only the constant pass asks the policy. -/
theorem apply_eq_collect {config : Config} {files : Files} {policy : Policy} {pass : Pass}
    (h : pass ≠ .constants) :
    pass.apply ⟨config, files, policy⟩ lines = pass.apply ⟨config, files, .collect⟩ lines := by
  cases pass with
  | constants => exact absurd rfl h
  | imports => rfl
  | comments => rfl
  | subroutines => rfl
  | labels => rfl
  | characters => rfl

theorem applyAll_eq_collect {config : Config} {files : Files} {policy : Policy}
    {passes : List Pass} (h : .constants ∉ passes) :
    applyAll ⟨config, files, policy⟩ passes lines
      = applyAll ⟨config, files, .collect⟩ passes lines := by
  induction passes generalizing lines with
  | nil => rfl
  | cons pass passes ih =>
      rw [applyAll, applyAll, apply_eq_collect (List.ne_of_not_mem_cons h).symm]
      simp only [ih (List.not_mem_of_not_mem_cons h)]

/-- Only the constant pass warns. -/
theorem warnings_apply {pass : Pass} (h : pass ≠ .constants) :
    (pass.apply assembler lines).warnings = [] := by
  cases pass with
  | constants => exact absurd rfl h
  | imports => rfl
  | comments => rfl
  | subroutines => rfl
  | labels => rfl
  | characters => rfl

theorem warnings_applyAll {passes : List Pass} (h : .constants ∉ passes) :
    (applyAll assembler passes lines).warnings = [] := by
  induction passes generalizing lines with
  | nil => rfl
  | cons pass passes ih =>
      have hpass : (pass.apply assembler lines).warnings = [] :=
        warnings_apply (List.ne_of_not_mem_cons h).symm
      rw [applyAll]
      cases hresult : (pass.apply assembler lines).result with
      | error fault => rw [Report.bind_of_error hresult, hpass]
      | ok next =>
          rw [Report.bind_of_ok hresult, hpass, ih (List.not_mem_of_not_mem_cons h),
            List.append_nil]

theorem warnings_applyAll_constants {passes : List Pass} (hpolicy : assembler.policy = .collect)
    (h : .constants ∉ passes) :
    (applyAll assembler (.constants :: passes) lines).warnings
      = Constant.redefinitions assembler.config.memorySize lines := by
  have hfirst : (apply assembler .constants lines).warnings
      = Constant.redefinitions assembler.config.memorySize lines := by
    rw [apply, hpolicy, Constant.warnings_replace]
  rw [applyAll, ← hfirst]
  cases hresult : (apply assembler .constants lines).result with
  | error fault => rw [Report.bind_of_error hresult]
  | ok kept => rw [Report.bind_of_ok hresult, warnings_applyAll h, List.append_nil]

end Pass

namespace Assembler

variable {assembler : Assembler} {file text : String}

/-- The lines that the pass for constants works on, if imports, comments and subroutines can be
gone through. -/
def expanded (assembler : Assembler) (file text : String) : Report (List Line) :=
  Pass.applyAll assembler [.imports, .comments, .subroutines] (Line.ofText file text)

/-- The pass for constants and those behind it work on the expanded lines. -/
theorem preprocess_eq_expanded (assembler : Assembler) (file text : String) :
    assembler.preprocess file text = assembler.expanded file text >>=
      Pass.applyAll assembler [.constants, .labels, .characters] :=
  Pass.applyAll_append [.imports, .comments, .subroutines] _

/-- **Under a policy a text is preprocessed as the policy judges the collecting run.** -/
theorem preprocess_under (config : Config) (files : Files) (policy : Policy) (file text : String) :
    (⟨config, files, policy⟩ : Assembler).preprocess file text
      = ((⟨config, files, .collect⟩ : Assembler).preprocess file text).under policy := by
  rw [preprocess_eq_expanded, preprocess_eq_expanded, expanded,
    Pass.applyAll_eq_collect (by decide)]
  have hfirst : ((⟨config, files, .collect⟩ : Assembler).expanded file text).warnings = [] :=
    Pass.warnings_applyAll (by decide)
  rw [Report.under_bind, Report.under_of_nil hfirst, hfirst, Policy.after_nil]
  refine Report.bind_congr_of_ok fun lines _ => ?_
  rw [Pass.applyAll, Pass.applyAll, Report.under_bind]
  have hreplace : Pass.apply ⟨config, files, policy⟩ .constants lines
      = (Pass.apply ⟨config, files, .collect⟩ .constants lines).under policy :=
    Constant.replaceFrom_under ..
  rw [hreplace]
  refine Report.bind_congr_of_ok fun replaced _ => ?_
  rw [Report.under_of_nil (Pass.warnings_applyAll (by decide)),
    Pass.applyAll_eq_collect (by decide)]

/-- Encoding the lines warns of nothing. -/
theorem assemble_under (config : Config) (files : Files) (policy : Policy) (file text : String) :
    (⟨config, files, policy⟩ : Assembler).assemble file text
      = ((⟨config, files, .collect⟩ : Assembler).assemble file text).under policy := by
  rw [assemble, assemble, preprocess_under, Report.under_bind]
  rfl

/-- The warnings that a text is worth. -/
def redefinitions (assembler : Assembler) (file text : String) : List Fault :=
  match (assembler.expanded file text).result with
  | .ok lines => Constant.redefinitions assembler.config.memorySize lines
  | .error _ => []

theorem warnings_preprocess (h : assembler.policy = .collect) :
    (assembler.preprocess file text).warnings = assembler.redefinitions file text := by
  have hfirst : (assembler.expanded file text).warnings = [] := Pass.warnings_applyAll (by decide)
  rw [preprocess_eq_expanded, redefinitions]
  cases hresult : (assembler.expanded file text).result with
  | error fault => rw [Report.bind_of_error hresult, hfirst]
  | ok lines =>
      rw [Report.bind_of_ok hresult, hfirst, List.nil_append]
      exact Pass.warnings_applyAll_constants h (by decide)

theorem warnings_assemble (assembler : Assembler) (file text : String) :
    (assembler.assemble file text).warnings = (assembler.preprocess file text).warnings := by
  rw [assemble]
  cases hresult : (assembler.preprocess file text).result with
  | error fault => rw [Report.bind_of_error hresult]
  | ok lines =>
      rw [Report.bind_of_ok hresult]
      exact List.append_nil _

end Assembler

/-- **The strict policy and the collecting one agree.** A run that collects its warnings tells what
the strict policy does with the same text: without a warning the same, and otherwise it ends with
the first warning, also if the collecting run ends with a fault later on. The warnings are the
redefinitions of constants in the lines that the pass reaches, in their order. Encoding the lines
adds none. What a source of imports answers during a run is a finite set of files, the same for both
runs. -/
theorem strict_agrees_with_collect (config : Config) (files : Files) (file text : String) :
    let strict : Assembler := ⟨config, files, .strict⟩
    let collect : Assembler := ⟨config, files, .collect⟩
    strict.preprocess file text = (collect.preprocess file text).escalate ∧
      strict.assemble file text = (collect.assemble file text).escalate ∧
      (collect.preprocess file text).warnings = collect.redefinitions file text ∧
      (collect.assemble file text).warnings = collect.redefinitions file text ∧
      ∀ warning ∈ collect.redefinitions file text, warning.code = .constantRedefined := by
  intro strict collect
  have hpreprocess : strict.preprocess file text = (collect.preprocess file text).escalate := by
    rw [Assembler.preprocess_under, Report.under_strict]
  have hwarnings : (collect.preprocess file text).warnings = collect.redefinitions file text :=
    Assembler.warnings_preprocess rfl
  refine ⟨hpreprocess, ?_, hwarnings, ?_, fun warning hwarning => ?_⟩
  · rw [Assembler.assemble_under, Report.under_strict]
  · rw [Assembler.warnings_assemble, hwarnings]
  · unfold Assembler.redefinitions at hwarning
    split at hwarning
    · exact Constant.code_of_mem_redefinitions hwarning
    · cases hwarning

/-! ### A constant that is defined again, and again with an unknown value -/

namespace Warnings.Sample

def text : String := "$a = 1\n$a = 2\n$a = $b\nHALT"

def line (number : Nat) (source : String) : Line := ⟨number, "sample", source, source⟩

def lines : List Line := [line 1 "$a = 1", line 2 "$a = 2", line 3 "$a = $b", line 4 "HALT"]

def first : Fault := .inLine (line 2 "$a = 2") (.constantRedefined ['a'])

def second : Fault := .inLine (line 3 "$a = $b") (.constantRedefined ['a'])

theorem redefinitions_text :
    ({ policy := .collect } : Assembler).redefinitions "sample" text = [first, second] := by
  have hexpanded : (({ policy := .collect } : Assembler).expanded "sample" text).result
      = .ok lines := by
    refine Success.andThen_iff.mpr ⟨lines, ?_, by decide +kernel⟩
    have hlines : Line.ofText "sample" text = lines := by decide +kernel
    rw [hlines]
    exact Import.expand_of_no_directive _ (by decide +kernel)
  have hredefinitions : Constant.redefinitions Config.default.memorySize lines
      = [first, second] := by
    decide +kernel
  rw [Assembler.redefinitions, hexpanded]
  exact hredefinitions

end Warnings.Sample

open Warnings.Sample in
theorem strict_agrees_with_collect_sample :
    ({ policy := .strict } : Assembler).assemble "sample" text = .fail first ∧
      (({ policy := .collect } : Assembler).assemble "sample" text).warnings = [first, second] ∧
      second.code = .constantRedefined := by
  obtain ⟨-, hstrict, -, hwarnings, hcode⟩ := strict_agrees_with_collect .default {} "sample" text
  have hassemble := hwarnings.trans redefinitions_text
  refine ⟨?_, hassemble, hcode second ?_⟩
  · rw [hstrict, Report.escalate, hassemble]
  · rw [redefinitions_text]
    exact List.mem_cons_of_mem first List.mem_cons_self

end CellAsm
