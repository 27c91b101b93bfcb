import ConstraintTyping.Fault.Mismatch
import ConstraintTyping.Infer.Scopes
import ConstraintTyping.Solve.Constraint
import ConstraintTyping.Traits.Table
import ConstraintTyping.Tree.Expr

/-!
# What inference finds

A walk over a body gives every expression a type, often a fresh variable, and collects constraints.
Nothing is solved on the way.
-/

namespace ConstraintTyping

/-- A function as other bodies see it. -/
structure GlobalFn where
  ty : TypeId
  /-- Whether `ty` is final and general; otherwise it is used as it is. -/
  finished : Bool
deriving DecidableEq, Repr, Inhabited

/-- A call whose callee carries trait constraints. -/
structure CallSite where
  expr : ExprId
  callee : TypeId
  span : Span
deriving DecidableEq, Repr

/-- Everything found in a group of bodies. -/
structure Finding where
  constraints : Array Constraint := #[]
  exprTypes : Std.HashMap ExprId TypeId := {}
  callSites : Array CallSite := #[]
  /-- Whether a construct was left only partly constrained. -/
  incomplete : Bool := false

/-- What bodies refer to. -/
structure FindContext where
  traits : TraitTable
  globals : Std.HashMap Name GlobalFn

/-- The state of a walk. -/
structure FindState where
  store : Store
  scopes : Scopes := {}
  finding : Finding := {}
  log : DiagnosticLog

/-- Walks over bodies. -/
abbrev FindM := ReaderT FindContext (StateM FindState)

namespace FindM

/-- Build types. -/
def build {α : Type} (act : StoreM α) : FindM α := fun _ ⟨store, scopes, finding, log⟩ =>
  let (a, store) := act store
  (a, ⟨store, scopes, finding, log⟩)

/-- Ask about types. -/
def query {α : Type} (f : Store → α) : FindM α := return f (← get).store

/-- A new variable. -/
def freshVar : FindM TypeId := build StoreM.freshVar

/-- Ask for two types to be equal. -/
def equal (lhs rhs : TypeId) (span : Span) (reason : Reason) : FindM Unit :=
  modify fun s =>
    { s with finding.constraints := s.finding.constraints.push (.equal lhs rhs span reason) }

/-- Ask for a trait type to be implemented. -/
def oblige (obligation : TypeId) (span : Span) : FindM Unit :=
  modify fun s =>
    { s with finding.constraints := s.finding.constraints.push (.implemented obligation span) }

/-- Note the type of an expression. -/
def record (expr : ExprId) (ty : TypeId) : FindM TypeId := do
  modify fun s => { s with finding.exprTypes := s.finding.exprTypes.insert expr ty }
  return ty

/-- Report a fault; the offending node has the error type, which agrees with everything. -/
def fault (f : TypeFault) : FindM TypeId := do
  modify fun s => { s with log := s.log.report f }
  return TypeId.error

/-- Report a fault after which the constraints say too little about the construct. -/
def incomplete (f : TypeFault) : FindM Unit :=
  modify fun s => { s with log := s.log.report f, finding.incomplete := true }

/-- Bind a local name. -/
def bind (name : Name) (ty : TypeId) : FindM Unit :=
  modify fun s => { s with scopes := s.scopes.bind name ty }

/-- Open a scope. -/
def enterScope : FindM Unit := modify fun s => { s with scopes := s.scopes.enter }

/-- Close a scope. -/
def exitScope : FindM Unit := modify fun s => { s with scopes := s.scopes.exit }

end FindM

end ConstraintTyping
