import ConstraintTyping.Infer.Coverage
import ConstraintTyping.Infer.Finding
import ConstraintTyping.Infer.Resolve
import ConstraintTyping.Tree.Module

/-!
# The rule of each construct

Each rule takes the types of a construct's parts, asks for what the construct needs, and gives its
type.  There is no implicit conversion between numbers: an overloaded operator has one type for its
operands, and that type must implement the operator's trait.
-/

namespace ConstraintTyping

namespace FindM

/-- A literal with a suffix, which must name a primitive that the literal can have. -/
def suffixRule (allowed : Prim → Bool) (suffix : Name) (span : Span) : FindM TypeId :=
  match (Prim.ofName? suffix).filter allowed with
  | some p => return TypeId.ofPrim p
  | none => fault (.undeclared "literal suffix" suffix span)

/-- An integer literal; a suffix can make it any number. -/
def intRule (suffix : Option Name) (span : Span) : FindM TypeId :=
  match suffix with
  | none => return TypeId.i32
  | some s => suffixRule Prim.isNumeric s span

/-- A floating-point literal; a suffix can change its width. -/
def floatRule (suffix : Option Name) (span : Span) : FindM TypeId :=
  match suffix with
  | none => return TypeId.f64
  | some s => suffixRule Prim.isFloat s span

/-- A name: a local, else a function, else a trait method.  Finished functions and methods are used
at fresh variables. -/
def identRule (name : Name) (span : Span) : FindM TypeId := do
  let context ← read
  match (← get).scopes.lookup? name with
  | some ty => return ty
  | none =>
    match context.globals[name]? with
    | some g => if g.finished then build (StoreM.instantiateFresh g.ty) else return g.ty
    | none =>
      match context.traits.method? name with
      | some method => build (StoreM.instantiateFresh method)
      | none => fault (.undeclared "value" name span)

/-- Constrain arguments to parameters, as far as both go. -/
def argumentsRule (reason : Nat → Reason) (params args : List TypeId) (spans : List Span) :
    FindM Unit :=
  ((params.zip (args.zip spans)).zipIdx).forM fun ((param, arg, span), index) =>
    equal param arg span (reason index)

/-- A call.  A callee of unknown shape must be a function of these arguments; one of known shape
fixes their number and types. -/
def callRule (id : ExprId) (span calleeSpan : Span) (callee : TypeId) (args : List TypeId)
    (argSpans : List Span) : FindM TypeId := do
  let callee ← query (·.bare callee)
  match ← query (·.signature? callee) with
  | none =>
    let result ← freshVar
    let shape ← build (StoreM.function { ret := result, params := args })
    equal callee shape calleeSpan .general
    return result
  | some sig =>
    let fits :=
      if sig.isVariadic then args.length ≥ sig.params.length
      else args.length = sig.params.length
    if !fits then
      let f := TypeFault.arity "argument" sig.params.length args.length span
      incomplete (if sig.isVariadic then
        f.withNote "the function is variadic; extra arguments may follow the declared ones" else f)
    argumentsRule .argument sig.params args argSpans
    if !sig.givens.isEmpty then
      modify fun s =>
        { s with finding.callSites := s.finding.callSites.push { expr := id, callee, span } }
    let result ← freshVar
    equal result sig.ret span .callResult
    return result

/-- A fresh variable that must implement an operator's trait. -/
def operatorVar (traitName : Name) (span : Span) : FindM (Option TypeId) := do
  match (← read).traits.trait? traitName with
  | none =>
    let _ ← fault (.undeclared "trait" traitName span)
    return none
  | some _ =>
    let shared ← freshVar
    let obligation ← build (StoreM.traitType traitName shared [])
    oblige obligation span
    return some shared

/-- A binary operator. -/
def binaryRule (op : BinaryOp) (span : Span) (left right : TypeId) (leftSpan rightSpan : Span) :
    FindM TypeId := do
  match op.traitName? with
  | none =>
    equal TypeId.bool left leftSpan .condition
    equal TypeId.bool right rightSpan .condition
    return TypeId.bool
  | some traitName =>
    match ← operatorVar traitName span with
    | none => return TypeId.error
    | some shared =>
      equal shared left leftSpan .operand
      equal shared right rightSpan .operand
      return if op.isComparison then TypeId.bool else shared

/-- A unary operator. -/
def unaryRule (op : UnaryOp) (span : Span) (operand : TypeId) (operandSpan : Span) :
    FindM TypeId := do
  match op with
  | .neg =>
    match ← operatorVar "Neg" span with
    | none => return TypeId.error
    | some shared =>
      equal shared operand operandSpan .operand
      return shared
  | .not =>
    equal TypeId.bool operand operandSpan .condition
    return TypeId.bool
  | .addressOf => build (StoreM.pointer operand)
  | .deref =>
    let target ← freshVar
    let pointer ← build (StoreM.pointer target)
    equal pointer operand operandSpan .operand
    return target

/-- The instance of a declared product at fresh variables, with its body. -/
def freshProduct (decl : TypeId) : FindM (Option (TypeId × ProductBody)) := do
  match ← build (DeclM.instantiateAtFresh decl).run with
  | .error _ => return none
  | .ok inst => return (← query (·.productBody? inst)).map fun body => (inst, body)

/-- A field access.  The one declared product that has the field decides the type. -/
def fieldRule (field : Name) (span : Span) (receiver : TypeId) (receiverSpan : Span) :
    FindM TypeId := do
  let owners ← query (·.productsWithField field)
  match owners with
  | [] => fault (.undeclared "field" field span)
  | [owner] =>
    match ← freshProduct owner with
    | none => return TypeId.error
    | some (inst, body) =>
      match (body.fieldIndex? field).bind fun index => body.fields[index]? with
      | none => return TypeId.error
      | some ty =>
        equal inst receiver receiverSpan .field
        return ty
  | owners =>
    let names ← query fun st => owners.filterMap st.nominalName?
    fault (.ambiguousField field names span)

/-- A construction.  A tag builds a value of its sum. -/
def constructRule (name : Name) (span : Span) (args : List TypeId) (argSpans : List Span) :
    FindM TypeId := do
  match ← query (·.declaredProduct? name) with
  | none => fault (.undeclared "constructor" name span)
  | some decl =>
    match ← freshProduct decl with
    | none => return TypeId.error
    | some (inst, body) =>
      if body.fields.length ≠ args.length then
        incomplete (.arity "field" body.fields.length args.length span)
      argumentsRule (fun _ => .field) body.fields args argSpans
      return body.parent.getD inst

/-- A written type; one that does not resolve is reported and read as the error type. -/
def writtenRule (written : TypeExpr) (span : Span) : FindM TypeId := do
  match ← build (written.resolve span).run with
  | .ok ty => return ty
  | .error f => fault f

/-- The parameters of a lambda; those without a type get a variable. -/
def paramsRule : List Param → FindM (List TypeId)
  | [] => return []
  | p :: rest => do
    let ty ← match p.written with
      | some written => writtenRule written p.span
      | none => freshVar
    bind p.name ty
    let tys ← paramsRule rest
    return ty :: tys

/-- The coverage of a match. -/
def coverageRule (patterns : List Pattern) (span : Span) : FindM Unit := do
  let missing ← query (·.missingPatterns patterns)
  if !missing.isEmpty then
    let _ ← fault (.nonExhaustive missing span)

end FindM

end ConstraintTyping
