import ConstraintTyping.Types.Build

/-!
# Declarations

A product or sum is declared by name over type parameters and gets its body later, so that
declarations can refer to each other.  A sum's tags are products over the same parameters.
-/

namespace ConstraintTyping

/-- Why a declaration, a body or an instance was refused. -/
inductive DeclError where
  | redeclared (name : Name)
  | notNominal (ty : TypeId)
  | argCount (expected found : Nat)
  | bodyAlreadyDefined (ty : TypeId)
  | bodyNotDefined (ty : TypeId)
  | tagParamsMismatch (tag sum : TypeId)
deriving DecidableEq, Repr

/-- The wording of a refusal, given how names are shown. -/
def DeclError.message (showName : Name → String) : DeclError → String
  | .redeclared name => s!"type {showName name} is declared twice"
  | .notNominal ty => s!"{ty.text} is not a declared product, sum or trait"
  | .argCount expected found => s!"expected {expected} type arguments, found {found}"
  | .bodyAlreadyDefined ty => s!"{ty.text} already has a body"
  | .bodyNotDefined ty => s!"{ty.text} has no body"
  | .tagParamsMismatch tag sum =>
    s!"tag {tag.text} does not share the type parameters of {sum.text}"

/-- Computations on the store that can be refused; what was done before a refusal stays done. -/
abbrev DeclM := ExceptT DeclError StoreM

/-- The two kinds of types that are declared with a body. -/
inductive DeclKind where
  | product | sum
deriving DecidableEq, Repr

/-- The shape of a declared kind. -/
def DeclKind.shape {α : Type} (kind : DeclKind) (name : Name) (args : List α) : Shape α :=
  match kind with
  | .product => .product name args
  | .sum => .sum name args

namespace Store

/-- The declaration behind a type.  A type that was not made as an instance is looked up by name
among the declarations of its kind. -/
def declOf? (st : Store) (ty : TypeId) : Option TypeId :=
  match st.nominals.declOf[ty]? with
  | some decl => some decl
  | none =>
    match st.shape ty with
    | .product name _ | .sum name _ =>
      (st.declared? name).filter fun decl => st.kind decl = st.kind ty
    | _ => none

/-- Whether a type is itself a declaration. -/
def isDeclaration (st : Store) (ty : TypeId) : Bool := st.nominals.declOf[ty]? == some ty

/-- The arguments of a nominal type. -/
def nominalArgs (st : Store) (ty : TypeId) : List TypeId := (st.shape ty).nominalArgs

/-- The name of a nominal type. -/
def nominalName? (st : Store) (ty : TypeId) : Option Name := (st.shape ty).nominalName?

/-- Declared products that have a field of a given name, in the order of their numbers. -/
def productsWithField (st : Store) (field : Name) : List TypeId :=
  let owns (decl : TypeId) := (st.productBody? decl).any fun b => (b.fieldIndex? field).isSome
  ((st.nominals.declared.toList.map Prod.snd).filter owns).mergeSort (· ≤ ·)

/-- Give a type a body. -/
def setBody (st : Store) (ty : TypeId) (body : Body) : Store :=
  { st with nominals.bodies := st.nominals.bodies.insert ty body }

/-- Make a product a tag of a sum, unless it already is a tag. -/
def bindParent (st : Store) (tag sum : TypeId) : Store :=
  match st.productBody? tag with
  | some body => st.setBody tag (.product { body with parent := body.parent.or (some sum) })
  | none => st

/-- Forget all declared products and sums with their bodies and instances.  The types stay. -/
def clearDeclared (st : Store) : Store :=
  let n := st.nominals
  let decls := n.declared.toList.map Prod.snd
  let declOf := n.declOf.filter fun _ decl => !decls.contains decl
  { st with
    nominals :=
      { bodies := n.bodies.filter fun ty _ => declOf.contains ty
        declOf
        declared := {}
        variants := n.variants.filter fun key _ => !decls.contains key.1
        variantOrder := n.variantOrder.filter fun v => declOf.contains v } }

end Store

namespace DeclM

/-- Declare a product or sum over named parameters. -/
def declare (kind : DeclKind) (name : Name) (params : List Name) : DeclM TypeId := do
  if (← get).nominals.declared.contains name then
    throw (.redeclared name)
  let args ← params.mapM fun p => (StoreM.namedVar p : StoreM TypeId)
  let decl ← (StoreM.intern (kind.shape name args) : StoreM TypeId)
  modify fun st =>
    { st with
      nominals.declared := st.nominals.declared.insert name decl
      nominals.declOf := st.nominals.declOf.insert decl decl }
  return decl

/-- Give a declared product its fields. -/
def defineProduct (decl : TypeId) (fields : List TypeId) (names : List (Option Name)) :
    DeclM Unit := do
  let st ← get
  if st.kind decl ≠ .product || !st.isDeclaration decl then
    throw (.notNominal decl)
  if st.nominals.bodies.contains decl then
    throw (.bodyAlreadyDefined decl)
  modify (·.setBody decl (.product { fields, fieldNames := names, parent := none }))

/-- Make one product a tag of a sum. -/
def bindTag (sum tag : TypeId) : DeclM Unit := do
  let st ← get
  if st.kind tag ≠ .product then
    throw (.notNominal tag)
  if st.nominalArgs tag ≠ st.nominalArgs sum then
    throw (.tagParamsMismatch tag sum)
  if (st.productBody? tag).isNone then
    throw (.bodyNotDefined tag)
  modify (·.bindParent tag sum)

/-- Give a declared sum its tags.  Tags are taken one after the other, and those before a tag that
is refused stay bound to the sum. -/
def defineSum (sum : TypeId) (tags : List TypeId) : DeclM Unit := do
  let st ← get
  if st.kind sum ≠ .sum || !st.isDeclaration sum then
    throw (.notNominal sum)
  if st.nominals.bodies.contains sum then
    throw (.bodyAlreadyDefined sum)
  tags.forM (bindTag sum)
  modify (·.setBody sum (.sum tags))

end DeclM

namespace StoreM

/-- Declare a trait over named parameters, the first of which is its subject. -/
def declareTrait (name : Name) (params : List Name) : StoreM TypeId := do
  let vars ← params.mapM namedVar
  let decl ← traitType name (vars.headD TypeId.unit) vars.tail
  modify fun st => { st with nominals.declOf := st.nominals.declOf.insert decl decl }
  return decl

end StoreM

end ConstraintTyping
