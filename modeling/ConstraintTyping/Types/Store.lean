import ConstraintTyping.Types.Table

/-!
# The store

A store is a type table together with the declarations of products, sums and traits made over it.
Building a type may extend the store, so construction is a computation in `StoreM`; asking about a
type is a plain function of the store.
-/

namespace ConstraintTyping

/-- The fields of a product. -/
structure ProductBody where
  fields : List TypeId
  /-- A positional field has no name. -/
  fieldNames : List (Option Name)
  /-- The sum of which the product is a tag. -/
  parent : Option TypeId
deriving DecidableEq, Repr, Inhabited

/-- Position of the field with a given name. -/
def ProductBody.fieldIndex? (b : ProductBody) (name : Name) : Option Nat :=
  b.fieldNames.idxOf? (some name)

/-- What a declared product or sum consists of. -/
inductive Body where
  | product (body : ProductBody)
  | sum (tags : List TypeId)
deriving DecidableEq, Repr, Inhabited

/-- Declarations and their instances. -/
structure Nominals where
  /-- Bodies of declarations and of their instances. -/
  bodies : Std.HashMap TypeId Body := {}
  /-- The declaration from which a type was made; a declaration is its own. -/
  declOf : Std.HashMap TypeId TypeId := {}
  /-- Declared products and sums by name. -/
  declared : Std.HashMap Name TypeId := {}
  /-- Instances by declaration and arguments. -/
  variants : Std.HashMap (TypeId × List TypeId) TypeId := {}
  /-- Instances in the order of their creation. -/
  variantOrder : Array TypeId := #[]

/-- All types and declarations of a run. -/
structure Store where
  table : TypeTable := .new
  nominals : Nominals := {}

/-- Computations that may add types to the store. -/
abbrev StoreM := StateM Store

namespace Store

/-- A store with the primitives only. -/
def new : Store := {}

instance : Inhabited Store := ⟨new⟩

/-- Number of types. -/
def size (st : Store) : Nat := st.table.size

/-- The shape of a type. -/
def shape (st : Store) (ty : TypeId) : Shape TypeId := st.table.shape ty

/-- The constituents of a type. -/
def children (st : Store) (ty : TypeId) : List TypeId := st.table.children ty

theorem lt_of_mem_children {st : Store} {ty c : TypeId} (h : c ∈ st.children ty) : c < ty :=
  TypeTable.lt_of_mem_children h

/-- What a type is built as. -/
def kind (st : Store) (ty : TypeId) : Kind := (st.shape ty).kind

/-- Whether a type is a variable. -/
def isVar (st : Store) (ty : TypeId) : Bool := (st.shape ty).isVar

/-- The facts kept with a type. -/
def flags (st : Store) (ty : TypeId) : Flags := st.table.flagsOf ty

/-- Whether a variable occurs in a type. -/
def isGeneric (st : Store) (ty : TypeId) : Bool := (st.flags ty).has .hasVar

/-- Whether the error type occurs in a type. -/
def hasError (st : Store) (ty : TypeId) : Bool := (st.flags ty).has .hasError

/-- Number of layers of a type, qualifiers not counted. -/
def weight (st : Store) (ty : TypeId) : Nat := st.table.weightOf ty

/-- The type under all qualifiers. -/
def bare (st : Store) (ty : TypeId) : TypeId := st.table.bare ty

/-- The signature of a function type. -/
def signature? (st : Store) (ty : TypeId) : Option (Signature TypeId) := (st.shape ty).signature?

/-- The facts kept with a type as a number.  The low bits tell what occurs in the type, the high
ones what the type is. -/
def flagBits (st : Store) (ty : TypeId) : Nat := (st.flags ty).toNat

/-- The part of the facts that a compound type takes over from a constituent. -/
def inheritedBits (st : Store) (ty : TypeId) : Nat := (st.flags ty).propagated.toNat

/-- One line of counters. -/
def describe (st : Store) : String :=
  "Pool \x7b types: " ++ toString st.size ++ ", vars: " ++ toString st.table.freshCount
    ++ ", .. \x7d"

/-- The fields of a product that has a body. -/
def productBody? (st : Store) (ty : TypeId) : Option ProductBody :=
  match st.nominals.bodies[ty]? with
  | some (.product body) => some body
  | _ => none

/-- The tags of a sum that has a body. -/
def sumTags? (st : Store) (ty : TypeId) : Option (List TypeId) :=
  match st.nominals.bodies[ty]? with
  | some (.sum tags) => some tags
  | _ => none

/-- The declared product or sum of a name. -/
def declared? (st : Store) (name : Name) : Option TypeId := st.nominals.declared[name]?

/-- The declared product of a name. -/
def declaredProduct? (st : Store) (name : Name) : Option TypeId :=
  (st.declared? name).filter fun decl => st.kind decl = .product

/-- Instances in the order of their creation. -/
def variants (st : Store) : List TypeId := st.nominals.variantOrder.toList

end Store

end ConstraintTyping
