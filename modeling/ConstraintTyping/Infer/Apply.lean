import ConstraintTyping.Infer.Finding
import ConstraintTyping.Solve.Solution
import ConstraintTyping.Tree.Walk

/-!
# Applying a solution

Once constraints are solved, the recorded types are read through the solution, and the trait
obligations of calls and operators are settled.  An obligation in which the error type occurs is
dropped; one over variables is retained for the enclosing function to ask of its callers; one that
an implementation provides is met; any other is reported, once per place.
-/

namespace ConstraintTyping

/-- The types of a group after solving. -/
structure Applied where
  exprTypes : Std.HashMap ExprId TypeId := {}
  /-- Obligations over variables, each once, in order of discovery. -/
  retained : List TypeId := []

/-- The state of an application. -/
structure ApplyState where
  store : Store
  log : DiagnosticLog
  applied : Applied := {}
  /-- Obligations already reported, with their places. -/
  reported : List (TypeId × Span) := []

/-- What an application works with. -/
structure ApplyContext where
  traits : TraitTable
  bindings : Bindings
  recorded : Std.HashMap ExprId TypeId
  /-- The last call site of each expression. -/
  callSites : Std.HashMap ExprId CallSite

/-- Applications of a solution. -/
abbrev ApplyM := ReaderT ApplyContext (StateM ApplyState)

namespace ApplyM

/-- Build types. -/
def build {α : Type} (act : StoreM α) : ApplyM α := fun _ ⟨store, log, applied, reported⟩ =>
  let (a, store) := act store
  (a, ⟨store, log, applied, reported⟩)

/-- The type that the solution makes of a type. -/
def solved (ty : TypeId) : ApplyM TypeId := do build ((← read).bindings.apply ty)

/-- The fault of an obligation that nothing provides. -/
def unimplemented (st : Store) (obligation : TypeId) (span : Span) : TypeFault :=
  ⟨.unresolvedObligation, span, s!"the trait `{st.print obligation}` is not implemented", []⟩

/-- Settle an obligation. -/
def discharge (obligation : TypeId) (span : Span) : ApplyM Unit := do
  let obligation ← solved obligation
  let st := (← get).store
  if st.hasError obligation then
    return ()
  else if st.isGeneric obligation then
    modify fun s =>
      if s.applied.retained.contains obligation then s
      else { s with applied.retained := s.applied.retained ++ [obligation] }
  else
    let met ← build ((← read).traits.isImplemented obligation)
    if !met then
      modify fun s =>
        if s.reported.contains (obligation, span) then s
        else
          { s with
            reported := (obligation, span) :: s.reported
            log := s.log.report (unimplemented s.store obligation span) }

/-- Record the solved type of one expression and settle what its call asks for. -/
def visit (expr : ExprId) : ApplyM Unit := do
  let context ← read
  if let some ty := context.recorded[expr]? then
    let ty ← solved ty
    modify fun s => { s with applied.exprTypes := s.applied.exprTypes.insert expr ty }
  if let some site := context.callSites[expr]? then
    let callee ← solved site.callee
    if let some sig := (← get).store.signature? callee then
      sig.givens.forM fun given => discharge given site.span

/-- Apply a solution to trees, given by their expressions in order, and settle the obligations. -/
def applyTo (exprs : List ExprId) (obligations : List (TypeId × Span)) : ApplyM Unit := do
  exprs.forM visit
  obligations.forM fun (obligation, span) => discharge obligation span

/-- Run an application from a store and a log. -/
def runOn (traits : TraitTable) (finding : Finding) (solution : Solution) (exprs : List ExprId)
    (store : Store) (log : DiagnosticLog) : ApplyState :=
  let sites := finding.callSites.toList.map fun site => (site.expr, site)
  let context : ApplyContext :=
    { traits
      bindings := solution.bindings
      recorded := finding.exprTypes
      callSites := Std.HashMap.ofList sites }
  (((applyTo exprs solution.obligations).run context).run { store, log }).2

end ApplyM

end ConstraintTyping
