import ConstraintTyping.Check.Generalize
import ConstraintTyping.Check.State
import ConstraintTyping.Infer.Apply
import ConstraintTyping.Infer.Find

/-!
# Checking bodies

The members of a group share one list of constraints and one solution.  A group in which an error
was reported publishes nothing: its functions get the error type, so that callers do not report
consequences of the same error.
-/

namespace ConstraintTyping

namespace CheckM

/-- Find the constraints of a group. -/
def findGroup (members : List (FunctionDecl × TypeId)) : CheckM Finding := fun s =>
  let context : FindContext := { traits := s.traits, globals := s.globals }
  let (_, found) := FindM.runWalk (FindM.findGroup members) context s.store s.log
  (found.finding, { s with store := found.store, log := found.log })

/-- Solve constraints, reporting those that fail. -/
def solveAll (config : CheckConfig) (constraints : List Constraint) : CheckM Solution := do
  let solution ← build (StoreM.solve config.maxUnifySteps constraints)
  let st := (← get).store
  solution.failures.forM fun failure => report (st.explain config.useColor failure)
  return solution

/-- Apply a solution to the bodies of a group. -/
def applyGroup (members : List (FunctionDecl × TypeId)) (finding : Finding) (solution : Solution) :
    CheckM Applied := fun s =>
  let exprs := members.flatMap fun (f, _) => f.subexprs.map Expr.id
  let done := ApplyM.runOn s.traits finding solution exprs s.store s.log
  (done.applied, { s with store := done.store, log := done.log })

/-- Set the final type of a function. -/
def finishFunction (name : Name) (ty : TypeId) : CheckM Unit :=
  modify fun s =>
    { s with
      globals := s.globals.insert name { ty, finished := true }
      functions := s.functions.insert name ty }

/-- Give every member of a group the error type. -/
def failGroup (members : List (FunctionDecl × TypeId)) : CheckM Unit :=
  members.forM fun (f, _) => finishFunction f.name TypeId.error

/-- Publish the types of a group that has no errors. -/
def publishGroup (members : List (FunctionDecl × TypeId)) (solved : List TypeId)
    (applied : Applied) : CheckM Unit := do
  modify fun s => { s with exprTypes := s.exprTypes.insertMany applied.exprTypes.toList }
  (members.zip solved).forM fun ((f, _), ty) => do
    let givens := (← get).store.givensFor ty solved applied.retained
    let ty ← build (StoreM.generalize ty givens)
    finishFunction f.name ty

/-- Check a group of mutually recursive functions. -/
def checkGroup (config : CheckConfig) (group : List FunctionDecl) : CheckM Unit := do
  let globals := (← get).globals
  let members := group.filterMap fun f => globals[f.name]?.map fun g => (f, g.ty)
  let checkpoint := (← get).log.errorCount
  let finding ← findGroup members
  if finding.incomplete then
    failGroup members
  else
    let solution ← solveAll config finding.constraints.toList
    if (← get).log.errorsSince checkpoint then
      failGroup members
    else
      let solved ← members.mapM fun (_, ty) => build (solution.bindings.apply ty)
      let applied ← applyGroup members finding solution
      if (← get).log.errorsSince checkpoint then
        failGroup members
      else
        publishGroup members solved applied

end CheckM

end ConstraintTyping
