import ConstraintTyping.Check.State
import ConstraintTyping.Tree.Module

/-!
# Registering types, traits and implementations

All type names are declared before any body is resolved, so that declarations can refer to each
other in any order.
-/

namespace ConstraintTyping

namespace CheckM

/-- A declared type waiting for its body. -/
inductive PendingType where
  | product (ty : TypeId) (fields : List FieldDecl) (span : Span)
  /-- A sum with those of its tags that could be declared. -/
  | sum (ty : TypeId) (tags : List (TypeId × TagDecl)) (span : Span)

/-- Declare the tags of a sum over the sum's parameters. -/
def declareTags (params : List Name) (tags : List TagDecl) : CheckM (List (TypeId × TagDecl)) := do
  let declared ← tags.mapM fun tag => do
    let ty ← declareAt tag.span (DeclM.declare .product tag.name params)
    return ty.map fun ty => (ty, tag)
  return declared.filterMap (·)

/-- Declare a type by name. -/
def declareType (d : TypeDecl) : CheckM (Option PendingType) := do
  match d.body with
  | .product fields =>
    let ty ← declareAt d.span (DeclM.declare .product d.name d.params)
    return ty.map fun ty => .product ty fields d.span
  | .sum tags =>
    match ← declareAt d.span (DeclM.declare .sum d.name d.params) with
    | none => return none
    | some ty => return some (.sum ty (← declareTags d.params tags) d.span)

/-- Give a product its fields. -/
def defineFields (ty : TypeId) (fields : List FieldDecl) (span : Span) : CheckM Unit := do
  let types ← fields.mapM fun f => resolve f.written f.span
  let _ ← declareAt span (DeclM.defineProduct ty types (fields.map (·.name)))

/-- Give a declared type its body. -/
def defineType : PendingType → CheckM Unit
  | .product ty fields span => defineFields ty fields span
  | .sum ty tags span => do
    tags.forM fun (tagTy, tag) => defineFields tagTy tag.fields tag.span
    let _ ← declareAt span (DeclM.defineSum ty (tags.map (·.1)))

/-- Register the types of a module. -/
def registerTypes (types : List TypeDecl) : CheckM Unit := do
  let pending ← types.mapM declareType
  (pending.filterMap (·)).forM defineType

/-- The fault of a refused trait. -/
def traitFault (e : TraitError) (name : Name) (span : Span) : TypeFault :=
  match e with
  | .duplicate _ => .duplicate "trait" name span
  | .unknown _ => .undeclared "trait" name span
  | .argCount expected found =>
    (TypeFault.arity "type argument" expected found span).withNote
      s!"the self type counts as the first argument of `{name}`"

/-- Register a trait. -/
def registerTrait (d : TraitDecl) : CheckM Unit := do
  let methods ← d.methods.mapM fun m => do
    let params ← resolveEach m.params m.span
    let ret ← resolve m.ret m.span
    return ({ name := m.name, params, ret } : MethodSig)
  match ← build ((← get).traits.register d.name d.params methods) with
  | .ok (_, traits) => modify fun s => { s with traits }
  | .error e => report (traitFault e d.name d.span)

/-- The trait type that a reference to a trait stands for.  One without arguments is reported here;
other refusals are worded by `explain`. -/
def resolveTraitRef (explain : TraitError → TypeFault) (r : TraitRef) : CheckM (Option TypeId) := do
  match ← resolveEach r.args r.span with
  | [] =>
    report (.arity "type argument" 1 0 r.span)
    return none
  | subject :: args =>
    match ← build ((← get).traits.obligation r.traitName subject args) with
    | .ok ty => return some ty
    | .error e =>
      report (explain e)
      return none

/-- Register an implementation. -/
def registerImpl (d : TraitRef) : CheckM Unit := do
  if let some ty ← resolveTraitRef (traitFault · d.traitName d.span) d then
    modify fun s => { s with traits := s.traits.addImpl ty d.traitName d.span }

end CheckM

end ConstraintTyping
