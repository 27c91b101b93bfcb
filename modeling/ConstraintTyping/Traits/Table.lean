import ConstraintTyping.Source.Span
import ConstraintTyping.Solve.Unify
import ConstraintTyping.Types.Declare

/-!
# Traits and implementations

Traits are known by name, implementations by the trait type they provide.  An obligation is met by
an implementation of that very type, or by a generic one of which the obligation is an instance.
-/

namespace ConstraintTyping

/-- Why a trait was refused. -/
inductive TraitError where
  | duplicate (name : Name)
  | unknown (name : Name)
  | argCount (expected found : Nat)
deriving DecidableEq, Repr

/-- The wording of a refusal, given how names are shown. -/
def TraitError.message (showName : Name → String) : TraitError → String
  | .duplicate name => s!"trait {showName name} is declared twice"
  | .unknown name => s!"no trait named {showName name}"
  | .argCount expected found => s!"trait takes {expected} type arguments, found {found}"

/-- A method of a trait, its types over the trait's parameters. -/
structure MethodSig where
  name : Name
  params : List TypeId
  ret : TypeId
deriving DecidableEq, Repr

/-- A declared trait. -/
structure TraitEntry where
  name : Name
  /-- The trait at its own parameters. -/
  decl : TypeId
  /-- The parameters, the subject first. -/
  params : List Name
  /-- Function types of the methods, each of which asks for the trait itself. -/
  methods : Std.HashMap Name TypeId

/-- An implementation: the trait type it provides. -/
structure ImplEntry where
  traitName : Name
  ty : TypeId
  span : Span
deriving DecidableEq, Repr

/-- The traits and implementations of a run. -/
structure TraitTable where
  traits : Std.HashMap Name TraitEntry := {}
  /-- The trait that declares a method; of several the last. -/
  methodOwners : Std.HashMap Name Name := {}
  /-- Implementations in the order in which they were added. -/
  impls : Array ImplEntry := #[]
  /-- Step budget for matching one generic implementation. -/
  stepLimit : Nat := 10000

namespace TraitTable

instance : Inhabited TraitTable := ⟨{}⟩

/-- The trait of a name. -/
def trait? (t : TraitTable) (name : Name) : Option TraitEntry := t.traits[name]?

/-- The generic type of a method. -/
def method? (t : TraitTable) (name : Name) : Option TypeId := do
  let owner ← t.methodOwners[name]?
  let entry ← t.traits[owner]?
  entry.methods[name]?

/-- The implementations of a trait. -/
def implsOf (t : TraitTable) (traitName : Name) : List ImplEntry :=
  t.impls.toList.filter (·.traitName = traitName)

/-- Add an implementation. -/
def addImpl (t : TraitTable) (ty : TypeId) (traitName : Name) (span : Span) : TraitTable :=
  { t with impls := t.impls.push { traitName, ty, span } }

/-- Declare a trait over at least one parameter. -/
def register (t : TraitTable) (name : Name) (params : List Name) (methods : List MethodSig) :
    StoreM (Except TraitError (TypeId × TraitTable)) := do
  if t.traits.contains name then
    return .error (.duplicate name)
  else if params.isEmpty then
    return .error (.argCount 1 0)
  else
    let decl ← StoreM.declareTrait name params
    let typed ← methods.mapM fun m => do
      let ty ← StoreM.function { ret := m.ret, params := m.params, givens := [decl] }
      return (m.name, ty)
    let entry : TraitEntry := { name, decl, params, methods := Std.HashMap.ofList typed }
    return .ok (decl,
      { t with
        traits := t.traits.insert name entry
        methodOwners := typed.foldl (fun owners (m, _) => owners.insert m name) t.methodOwners })

/-- The trait type of a declared trait at as many arguments as it takes, the subject first. -/
def obligation (t : TraitTable) (name : Name) (subject : TypeId) (args : List TypeId) :
    StoreM (Except TraitError TypeId) := do
  match t.trait? name with
  | none => return .error (.unknown name)
  | some entry =>
    if entry.params.length = args.length + 1 then
      return .ok (← StoreM.traitType name subject args)
    else
      return .error (.argCount entry.params.length (args.length + 1))

/-- Whether one of `impls` provides `obligation`: the first that is the same type, or a generic one
whose copy with fresh variables unifies with it. -/
def coveredBy (limit : Nat) (obligation : TypeId) : List ImplEntry → StoreM Bool
  | [] => return false
  | entry :: rest => do
    if entry.ty = obligation then
      return true
    else if (← get).isGeneric entry.ty then
      let candidate ← StoreM.instantiateFresh entry.ty
      match ← StoreM.unify limit candidate obligation with
      | .ok _ => return true
      | .error _ => coveredBy limit obligation rest
    else
      coveredBy limit obligation rest

/-- Whether an implementation provides a trait type; other types are never implemented. -/
def isImplemented (t : TraitTable) (obligation : TypeId) : StoreM Bool := do
  match (← get).shape obligation with
  | .trait name _ _ => coveredBy t.stepLimit obligation (t.implsOf name)
  | _ => return false

end TraitTable

end ConstraintTyping
