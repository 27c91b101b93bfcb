import ConstraintTyping.Check.Bodies
import ConstraintTyping.Check.CallGraph
import ConstraintTyping.Check.Signatures
import ConstraintTyping.Traits.Operators

/-!
# Checking a module

Types, traits and implementations are registered first, then signatures are collected, then bodies
are checked group by group, callees before callers.  An error limit stops the check between groups.
-/

namespace ConstraintTyping

/-- How a check with errors ended. -/
inductive CheckFlow where
  /-- Every function was checked. -/
  | recover
  /-- The error limit ended the check. -/
  | abort
deriving DecidableEq, Repr

/-- What a flow is called. -/
def CheckFlow.text : CheckFlow → String
  | .recover => "recover"
  | .abort => "abort"

/-- A checked module. -/
structure TypedModule where
  store : Store
  traits : TraitTable
  log : DiagnosticLog
  /-- Types of the expressions of groups without errors. -/
  exprTypes : Std.HashMap ExprId TypeId
  /-- Final types of functions; those of groups with errors have the error type. -/
  functions : Std.HashMap Name TypeId
  errorCount : Nat
  flow : Option CheckFlow

namespace StoreM

/-- Give every product and sum in a type without variables or errors a body. -/
def materializeAll (ty : TypeId) : StoreM Unit := do
  let st ← get
  if st.isGeneric ty || st.hasError ty then
    return ()
  else
    if st.kind ty = .product || st.kind ty = .sum then
      let _ ← (DeclM.materialize ty).run
    (st.children ty).attach.forM fun ⟨c, h⟩ =>
      have : c < ty := Store.lt_of_mem_children h
      materializeAll c
termination_by ty

end StoreM

namespace CheckM

/-- Check groups in order until the error limit is reached; whether it was. -/
def checkGroups (config : CheckConfig) : List (List FunctionDecl) → CheckM Bool
  | [] => return false
  | group :: rest => do
    checkGroup config group
    if config.limitReached (← get).log.errorCount then
      return true
    else
      checkGroups config rest

/-- Give the products and sums in the types of expressions a body, in the order of their numbers. -/
def materializeExprTypes : CheckM Unit := do
  let types := (((← get).exprTypes.toList.map Prod.snd).mergeSort (· ≤ ·)).eraseDups
  types.forM fun ty => build (StoreM.materializeAll ty)

/-- All steps of a check; whether the error limit ended it. -/
def checkAll (config : CheckConfig) (m : Module) : CheckM Bool := do
  registerTypes m.types
  m.traits.forM registerTrait
  m.impls.forM registerImpl
  m.functions.forM collectSignature
  let groups := m.bodyGroups.map fun group => group.filterMap fun i => m.functions[i]?
  let aborted ← checkGroups config groups
  materializeExprTypes
  return aborted

end CheckM

/-- Check a module, reporting to a log. -/
def Module.check (m : Module) (config : CheckConfig) (log : DiagnosticLog) : TypedModule :=
  let (operators, store) := TraitTable.operators.run Store.new
  let traits := { operators with stepLimit := config.maxUnifySteps }
  let (aborted, s) := (CheckM.checkAll config m).run { store, traits, log }
  { store := s.store
    traits := s.traits
    log := s.log
    exprTypes := s.exprTypes
    functions := s.functions
    errorCount := s.log.errorCount
    flow := if s.log.errorCount = 0 then none else some (if aborted then .abort else .recover) }

namespace TypedModule

/-- The type of an expression. -/
def exprType? (t : TypedModule) (expr : ExprId) : Option TypeId := t.exprTypes[expr]?

/-- The type of a function. -/
def functionType? (t : TypedModule) (name : Name) : Option TypeId := t.functions[name]?

/-- Whether errors were reported. -/
def hasErrors (t : TypedModule) : Bool := t.errorCount > 0

/-- Instances of declarations made during the check, in the order of their creation. -/
def variants (t : TypedModule) : List TypeId := t.store.variants

/-- The checked functions as bodies outside the module see them. -/
def globals (t : TypedModule) : Std.HashMap Name GlobalFn :=
  t.functions.map fun _ ty => { ty, finished := true }

end TypedModule

end ConstraintTyping
