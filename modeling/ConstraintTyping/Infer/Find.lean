import ConstraintTyping.Infer.Rules

/-!
# Finding constraints

The walk itself: parts before the whole, left to right.  A pattern is checked against the type of
the matched value and binds its names in the scope of its arm.
-/

namespace ConstraintTyping

open FindM

mutual

/-- The type of an expression, with everything it needs asked for and recorded. -/
def Expr.infer : Expr → FindM TypeId
  | .mk id span form => do
    let ty ← form.infer id span
    record id ty

/-- The type of an expression, by its form. -/
def ExprForm.infer (id : ExprId) (span : Span) : ExprForm → FindM TypeId
  | .int _ suffix => intRule suffix span
  | .float _ suffix => floatRule suffix span
  | .bool _ => return TypeId.bool
  | .char _ => return TypeId.c8
  | .string _ => build (StoreM.pointer TypeId.c8)
  | .unit => return TypeId.unit
  | .ident name => identRule name span
  | .call callee args => do
    let calleeTy ← callee.infer
    let argTys ← inferAll args
    callRule id span callee.span calleeTy argTys (args.map Expr.span)
  | .binary op left right => do
    let leftTy ← left.infer
    let rightTy ← right.infer
    binaryRule op span leftTy rightTy left.span right.span
  | .unary op operand => do
    let operandTy ← operand.infer
    unaryRule op span operandTy operand.span
  | .field receiver name => do
    let receiverTy ← receiver.infer
    fieldRule name span receiverTy receiver.span
  | .construct name args => do
    let argTys ← inferAll args
    constructRule name span argTys (args.map Expr.span)
  | .tuple items => do
    let tys ← inferAll items
    build (StoreM.tuple tys)
  | .array items => do
    let elem ← freshVar
    inferElements elem items
    build (StoreM.array elem (some items.length))
  | .block items => do
    enterScope
    let tys ← inferAll items
    exitScope
    return tys.getLastD TypeId.unit
  | .ifThen condition thenBranch => do
    let conditionTy ← condition.infer
    equal TypeId.bool conditionTy condition.span .condition
    let thenTy ← thenBranch.infer
    equal TypeId.unit thenTy thenBranch.span .branch
    return TypeId.unit
  | .ifElse condition thenBranch elseBranch => do
    let conditionTy ← condition.infer
    equal TypeId.bool conditionTy condition.span .condition
    let thenTy ← thenBranch.infer
    let elseTy ← elseBranch.infer
    equal thenTy elseTy elseBranch.span .branch
    return thenTy
  | .select scrutinee arms => do
    let scrutineeTy ← scrutinee.infer
    let result ← freshVar
    inferArms scrutineeTy result arms
    coverageRule (arms.map Arm.pattern) span
    return result
  | .loop condition body => do
    let conditionTy ← condition.infer
    equal TypeId.bool conditionTy condition.span .condition
    let _ ← body.infer
    return TypeId.unit
  | .define name written init => do
    let initTy ← init.infer
    match written with
    | none => bind name initTy
    | some written =>
      let ty ← writtenRule written span
      equal ty initTy init.span .ascription
      bind name ty
    return TypeId.unit
  | .assign target value => do
    let targetTy ← target.infer
    let valueTy ← value.infer
    equal targetTy valueTy span .assign
    return TypeId.unit
  | .ascribe expr written => do
    let exprTy ← expr.infer
    let ty ← writtenRule written span
    equal ty exprTy span .ascription
    return ty
  | .lambda params body => do
    enterScope
    let paramTys ← paramsRule params
    let bodyTy ← body.infer
    exitScope
    build (StoreM.function { ret := bodyTy, params := paramTys })

/-- The types of a list of expressions. -/
def inferAll : List Expr → FindM (List TypeId)
  | [] => return []
  | e :: rest => do
    let ty ← e.infer
    let tys ← inferAll rest
    return ty :: tys

/-- The elements of an array literal, all of one type. -/
def inferElements (elem : TypeId) : List Expr → FindM Unit
  | [] => return ()
  | e :: rest => do
    let ty ← e.infer
    equal elem ty e.span .arrayElement
    inferElements elem rest

/-- The arms of a match, all of one result type, each in a scope of its own. -/
def inferArms (scrutinee result : TypeId) : List Arm → FindM Unit
  | [] => return ()
  | .mk pattern body span :: rest => do
    enterScope
    pattern.check scrutinee span
    let bodyTy ← body.infer
    equal result bodyTy body.span .matchArm
    exitScope
    inferArms scrutinee result rest

/-- A pattern against the type of a value; faults are placed at the arm. -/
def Pattern.check (expected : TypeId) (span : Span) : Pattern → FindM Unit
  | .wildcard _ => return ()
  | .binding _ name => bind name expected
  | .literal _ expr => do
    let ty ← expr.infer
    equal expected ty expr.span .pattern
  | .tuple _ items => do
    let parts ← items.mapM fun _ => freshVar
    let tuple ← build (StoreM.tuple parts)
    equal expected tuple span .pattern
    checkAll parts span items
  | .tag _ name items => do
    match ← query (·.declaredProduct? name) with
    | none =>
      let _ ← fault (.undeclared "tag" name span)
    | some decl =>
      match ← freshProduct decl with
      | none => return ()
      | some (inst, body) =>
        equal expected (body.parent.getD inst) span .pattern
        if items.length ≠ body.fields.length then
          incomplete (.arity "field" body.fields.length items.length span)
        checkAll body.fields span items

/-- Patterns against types, as far as both go. -/
def checkAll (expected : List TypeId) (span : Span) : List Pattern → FindM Unit
  | [] => return ()
  | p :: rest =>
    match expected with
    | [] => return ()
    | ty :: tys => do
      p.check ty span
      checkAll tys span rest

end

namespace FindM

/-- The body of a function against its type: parameters are bound to the parameter types, and the
body must have the result type. -/
def functionRule (f : FunctionDecl) (ty : TypeId) : FindM Unit := do
  match ← query (·.signature? ty), f.body with
  | some sig, some body =>
    enterScope
    (f.params.zip sig.params).forM fun (param, ty) => bind param.name ty
    let bodyTy ← body.infer
    equal sig.ret bodyTy body.span .body
    exitScope
  | _, _ => return ()

/-- Run a walk from a store and a log. -/
def runWalk {α : Type} (walk : FindM α) (context : FindContext) (store : Store)
    (log : DiagnosticLog) : α × FindState :=
  (walk.run context).run { store, log }

/-- Find the constraints of a group of functions, each with its provisional type. -/
def findGroup (members : List (FunctionDecl × TypeId)) : FindM Unit :=
  members.forM fun (f, ty) => functionRule f ty

end FindM

end ConstraintTyping
