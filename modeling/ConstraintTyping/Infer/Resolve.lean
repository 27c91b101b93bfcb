import ConstraintTyping.Fault.Basic
import ConstraintTyping.Tree.TypeExpr
import ConstraintTyping.Types.Variant

/-!
# Meaning of written types

A written name is a primitive, or a declared product or sum at as many arguments as it takes.
-/

namespace ConstraintTyping

/-- Computations on the store that can end in a fault of the program. -/
abbrev ResolveM := ExceptT TypeFault StoreM

/-- The instance of a declared type at resolved arguments. -/
def instantiateWritten (span : Span) (name : Name) (decl : TypeId) (args : List TypeId) :
    ResolveM TypeId := do
  let expected := ((← get).nominalArgs decl).length
  if expected ≠ args.length then
    throw ((TypeFault.arity "type argument" expected args.length span).withNote
      s!"`{name}` takes {expected} type arguments")
  match ← (DeclM.instantiate decl args).run with
  | .ok ty => return ty
  | .error e => throw ⟨.arityMismatch, span, e.message (fun n => n), []⟩

mutual

/-- The type that a written type stands for.  Faults are placed at `span`. -/
def TypeExpr.resolve (span : Span) : TypeExpr → ResolveM TypeId
  | .named name args => do
    match args.isEmpty, Prim.ofName? name with
    | true, some p => return TypeId.ofPrim p
    | _, _ =>
      match (← get).declared? name with
      | none => throw (TypeFault.undeclared "type" name span)
      | some decl =>
        let resolved ← resolveAll span args
        instantiateWritten span name decl resolved
  | .var name => StoreM.namedVar name
  | .pointer target => do
    let target ← target.resolve span
    StoreM.pointer target
  | .array elem length => do
    let elem ← elem.resolve span
    StoreM.array elem length
  | .tuple items => do
    let items ← resolveAll span items
    StoreM.tuple items
  | .function params ret => do
    let params ← resolveAll span params
    let ret ← ret.resolve span
    StoreM.function { ret, params }
  | .qualified qualifier base => do
    let base ← base.resolve span
    StoreM.qualify qualifier base

/-- The types that a list of written types stands for; the first fault ends it. -/
def resolveAll (span : Span) : List TypeExpr → ResolveM (List TypeId)
  | [] => return []
  | t :: rest => do
    let ty ← t.resolve span
    let tys ← resolveAll span rest
    return ty :: tys

end

end ConstraintTyping
