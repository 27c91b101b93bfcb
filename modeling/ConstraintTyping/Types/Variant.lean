import ConstraintTyping.Types.Declare
import ConstraintTyping.Types.Substitute

/-!
# Instances of declarations

An instance, or variant, is a declaration at type arguments.  For every declaration and argument
list there is one, which keeps its number.  An instance of a tag belongs to the instance of its sum
at the same arguments, and an instance of a sum consists of the instances of its tags.

The two depend on each other.  An instance is entered before its sum is made, so that making the
sum finds it; each further step of the recursion enters one more declaration at the same arguments,
which bounds its depth by the number of declarations.
-/

namespace ConstraintTyping

namespace DeclM

/-- The declaration behind a type, if it takes as many arguments as are given. -/
def declarationFor (ty : TypeId) (args : List TypeId) : DeclM TypeId := do
  let st ← get
  match st.declOf? ty with
  | none => throw (.notNominal ty)
  | some decl =>
    let expected := (st.nominalArgs decl).length
    if expected ≠ args.length then
      throw (.argCount expected args.length)
    return decl

/-- The type of a declaration at arguments. -/
def variantShape (decl : Shape TypeId) (args : List TypeId) : Shape TypeId :=
  match decl, args with
  | .product name _, args => .product name args
  | .sum name _, args => .sum name args
  | .trait name _ _, subject :: rest => .trait name subject rest
  | shape, _ => shape

/-- Enter `variant` as the instance of `decl` at `args`. -/
def enterVariant (decl : TypeId) (args : List TypeId) (variant : TypeId) (st : Store) : Store :=
  { st with
    nominals.variants := st.nominals.variants.insert (decl, args) variant
    nominals.declOf := st.nominals.declOf.insert variant decl
    nominals.variantOrder := st.nominals.variantOrder.push variant }

/-- Give a type a body unless it has one. -/
def ensureBody (ty : TypeId) (body : Body) (st : Store) : Store :=
  if st.nominals.bodies.contains ty then st else st.setBody ty body

/-- The instance of `parent`'s declaration at `args`; a new one gets `parts` as its fields or tags.
`instantiate` makes the sum's instance when the declaration is a tag. -/
def variantWith (instantiate : TypeId → List TypeId → DeclM TypeId) (parent : TypeId)
    (parts args : List TypeId) : DeclM TypeId := do
  let decl ← declarationFor parent args
  let st ← get
  if st.nominalArgs decl = args then
    return decl
  if let some variant := st.nominals.variants[(decl, args)]? then
    return variant
  let variant ← (StoreM.intern (variantShape (st.shape decl) args) : StoreM TypeId)
  modify (enterVariant decl args variant)
  match st.kind decl with
  | .product =>
    let (fieldNames, parentSum) := match st.productBody? decl with
      | some body => (body.fieldNames, body.parent)
      | none => (List.replicate parts.length none, none)
    modify (ensureBody variant (.product { fields := parts, fieldNames, parent := none }))
    if let some sum := parentSum then
      let sumVariant ← instantiate sum args
      modify (·.bindParent variant sumVariant)
  | .sum =>
    modify (ensureBody variant (.sum parts))
    modify fun st => parts.foldl (fun st tag => st.bindParent tag variant) st
  | _ => pure ()
  return variant

/-- The instance of a type's declaration at `args`, its body derived from the declaration's.  The
depth of the recursion is limited by `depth`. -/
def instantiateWithin : (depth : Nat) → TypeId → List TypeId → DeclM TypeId
  | 0, ty, _ => throw (.notNominal ty)
  | depth + 1, ty, args => do
    let decl ← declarationFor ty args
    let st ← get
    if st.nominalArgs decl = args then
      return decl
    if let some variant := st.nominals.variants[(decl, args)]? then
      return variant
    let mapping := (st.nominalArgs decl).zip args
    let parts ← match st.kind decl with
      | .product =>
        let fields := ((st.productBody? decl).map (·.fields)).getD []
        fields.mapM fun field => (StoreM.substituteAll mapping field : StoreM TypeId)
      | .sum => ((st.sumTags? decl).getD []).mapM fun tag => instantiateWithin depth tag args
      | _ => pure []
    variantWith (instantiateWithin depth) decl parts args

/-- A depth that the recursion never reaches: a tag and its sum for every declaration. -/
def instantiationDepth (st : Store) : Nat := 2 * st.nominals.declOf.size + 4

/-- The instance of a type's declaration at `args`. -/
def instantiate (ty : TypeId) (args : List TypeId) : DeclM TypeId := do
  instantiateWithin (instantiationDepth (← get)) ty args

/-- The instance of a type's declaration at `args`, with `parts` as its body if it is new. -/
def variant (parent : TypeId) (parts args : List TypeId) : DeclM TypeId := do
  variantWith (instantiateWithin (instantiationDepth (← get))) parent parts args

/-- The instance of a type's declaration at fresh variables. -/
def instantiateAtFresh (ty : TypeId) : DeclM TypeId := do
  let st ← get
  match st.declOf? ty with
  | none => throw (.notNominal ty)
  | some decl =>
    let args ← (st.nominalArgs decl).mapM fun _ => (StoreM.freshVar : StoreM TypeId)
    instantiate decl args

/-- Make sure that a product or sum has a body. -/
def materialize (ty : TypeId) : DeclM TypeId := do
  let st ← get
  if st.nominals.bodies.contains ty then
    return ty
  instantiate ty (st.nominalArgs ty)

end DeclM

end ConstraintTyping
