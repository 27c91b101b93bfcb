import ConstraintTyping.Check.Register

/-!
# Signatures

Every function has a provisional type before any body is checked, so that bodies can refer to
functions in any order.  What is not written is a fresh variable.
-/

namespace ConstraintTyping

namespace CheckM

/-- A written type, or a fresh variable where none is written. -/
def resolveOrFresh (written : Option TypeExpr) (span : Span) : CheckM TypeId :=
  match written with
  | some w => resolve w span
  | none => build StoreM.freshVar

/-- The fault of a bound that was refused. -/
def boundFault (bound : TraitRef) (e : TraitError) : TypeFault :=
  match e with
  | .argCount expected found => .arity "type argument" expected found bound.span
  | .duplicate name | .unknown name => .undeclared "trait" name bound.span

/-- The provisional type of a function. -/
def signature (f : FunctionDecl) : CheckM TypeId := do
  let params ← f.params.mapM fun p => resolveOrFresh p.written p.span
  let ret ← resolveOrFresh f.ret f.span
  let givens ← f.given.mapM fun bound => resolveTraitRef (boundFault bound) bound
  build (StoreM.function
    { ret, params, givens := givens.filterMap (·), isMeta := f.isMeta, isVariadic := f.isVariadic })

/-- Give a function its provisional type.  A function without a body is finished with it. -/
def collectSignature (f : FunctionDecl) : CheckM Unit := do
  if (← get).globals.contains f.name then
    report (.duplicate "function" f.name f.span)
  else
    let ty ← signature f
    let finished := f.body.isNone
    modify fun s =>
      { s with
        globals := s.globals.insert f.name { ty, finished }
        functions := if finished then s.functions.insert f.name ty else s.functions }

end CheckM

end ConstraintTyping
