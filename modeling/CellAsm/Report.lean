import CellAsm.Fault

set_option autoImplicit false

/-! # Reports

Assembling a text either succeeds or ends with a fault, and on the way it may meet conditions
that it can go past: warnings. A `Report` is the warnings in the order in which they were met
together with the result. A policy decides of every warning whether it is noted and the work goes
on, or whether it is the result and the work ends. Under the strict policy every warning is the
result; under the collecting policy none is.
-/

namespace CellAsm

/-- What is to happen with warnings: whether a warning ends the work, given those that were noted
before it. -/
structure Policy where
  ends : List Fault → Fault → Bool

namespace Policy

/-- Every warning ends the work. -/
def strict : Policy := ⟨fun _ _ => true⟩

/-- Every warning is noted. -/
def collect : Policy := ⟨fun _ _ => false⟩

/-- What a policy does with later warnings once it has noted some. -/
def after (policy : Policy) (noted : List Fault) : Policy :=
  ⟨fun more => policy.ends (noted ++ more)⟩

@[simp] theorem after_nil (policy : Policy) : policy.after [] = policy := rfl

@[simp] theorem after_strict (noted : List Fault) : strict.after noted = strict := rfl

@[simp] theorem after_collect (noted : List Fault) : collect.after noted = collect := rfl

@[simp] theorem ends_after_nil (policy : Policy) (noted : List Fault) (warning : Fault) :
    (policy.after noted).ends [] warning = policy.ends noted warning := by
  simp only [after, List.append_nil]

theorem after_after (policy : Policy) (noted more : List Fault) :
    (policy.after noted).after more = policy.after (noted ++ more) := by
  simp only [after, List.append_assoc]

end Policy

/-- The warnings that were noted, and the result. -/
structure Report (α : Type) where
  warnings : List Fault
  result : Except Fault α

namespace Report

variable {α β : Type}

/-- The report of a result without warnings. -/
def ofExcept (result : Except Fault α) : Report α := ⟨[], result⟩

/-- The report that ends with a fault at once. -/
def fail (fault : Fault) : Report α := ⟨[], .error fault⟩

/-- Goes on with the result, if there is one; the warnings of both parts are kept. -/
def andThen (report : Report α) (next : α → Report β) : Report β :=
  match report.result with
  | .ok a =>
    let rest := next a
    ⟨report.warnings ++ rest.warnings, rest.result⟩
  | .error fault => ⟨report.warnings, .error fault⟩

instance : Monad Report where
  pure a := ⟨[], .ok a⟩
  bind := andThen

instance : MonadLift (Except Fault) Report where
  monadLift := ofExcept

/-- Raises a warning, the first one that the policy is asked about. -/
def warn (policy : Policy) (warning : Fault) : Report Unit :=
  if policy.ends [] warning then fail warning else ⟨[warning], .ok ()⟩

@[simp] theorem pure_eq (a : α) : (pure a : Report α) = ⟨[], .ok a⟩ := rfl

@[simp] theorem bind_eq (report : Report α) (next : α → Report β) :
    report >>= next = report.andThen next :=
  rfl

@[simp] theorem andThen_ok (ws : List Fault) (a : α) (next : α → Report β) :
    andThen ⟨ws, .ok a⟩ next = ⟨ws ++ (next a).warnings, (next a).result⟩ :=
  rfl

@[simp] theorem andThen_error (ws : List Fault) (fault : Fault) (next : α → Report β) :
    andThen ⟨ws, .error fault⟩ next = ⟨ws, .error fault⟩ :=
  rfl

end Report

end CellAsm
