import ConstraintTyping.Check.Config
import ConstraintTyping.Infer.Resolve
import ConstraintTyping.Infer.Finding

/-!
# The state of a check
-/

namespace ConstraintTyping

/-- Everything a check works on. -/
structure CheckState where
  store : Store
  traits : TraitTable
  log : DiagnosticLog
  /-- Functions as bodies see them. -/
  globals : Std.HashMap Name GlobalFn := {}
  /-- Types of the expressions of groups without errors. -/
  exprTypes : Std.HashMap ExprId TypeId := {}
  /-- Final types of functions. -/
  functions : Std.HashMap Name TypeId := {}

/-- Steps of a check. -/
abbrev CheckM := StateM CheckState

namespace CheckM

/-- Build types. -/
def build {α : Type} (act : StoreM α) : CheckM α :=
  fun ⟨store, traits, log, globals, exprTypes, functions⟩ =>
    let (a, store) := act store
    (a, ⟨store, traits, log, globals, exprTypes, functions⟩)

/-- Report a fault. -/
def report (f : TypeFault) : CheckM Unit := modify fun s => { s with log := s.log.report f }

/-- The type of a written type; one that does not resolve is reported and read as the error type. -/
def resolve (written : TypeExpr) (span : Span) : CheckM TypeId := do
  match ← build (written.resolve span).run with
  | .ok ty => return ty
  | .error f =>
    report f
    return TypeId.error

/-- The types of several written types at one place. -/
def resolveEach (written : List TypeExpr) (span : Span) : CheckM (List TypeId) :=
  written.mapM fun w => resolve w span

/-- The fault of a refused declaration. -/
def declFault (e : DeclError) (span : Span) : TypeFault :=
  match e with
  | .redeclared name => .duplicate "type" name span
  | .argCount expected found => .arity "type argument" expected found span
  | e => ⟨.typeMismatch, span, e.message (fun n => n), []⟩

/-- Run a declaration, reporting a refusal at `span`. -/
def declareAt {α : Type} (span : Span) (act : DeclM α) : CheckM (Option α) := do
  match ← build act.run with
  | .ok a => return some a
  | .error e =>
    report (declFault e span)
    return none

end CheckM

end ConstraintTyping
