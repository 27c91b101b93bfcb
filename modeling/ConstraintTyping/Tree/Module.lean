import ConstraintTyping.Tree.Expr

/-!
# Modules

The declarations that are checked together: types, traits, implementations and functions.
-/

namespace ConstraintTyping

/-- A field of a product; positional fields have no name. -/
structure FieldDecl where
  name : Option Name
  written : TypeExpr
  span : Span
deriving Repr, Inhabited

/-- A tag of a sum with its fields. -/
structure TagDecl where
  name : Name
  fields : List FieldDecl
  span : Span
deriving Repr, Inhabited

/-- What a type declaration introduces. -/
inductive TypeDeclBody where
  | product (fields : List FieldDecl)
  | sum (tags : List TagDecl)
deriving Repr, Inhabited

/-- A type declaration. -/
structure TypeDecl where
  name : Name
  params : List Name
  body : TypeDeclBody
  span : Span
deriving Repr, Inhabited

/-- A method that a trait asks for. -/
structure MethodDecl where
  name : Name
  params : List TypeExpr
  ret : TypeExpr
  span : Span
deriving Repr, Inhabited

/-- A trait declaration; the first parameter is the subject. -/
structure TraitDecl where
  name : Name
  params : List Name
  methods : List MethodDecl
  span : Span
deriving Repr, Inhabited

/-- A trait applied to written types: an implementation, or a bound of a function. -/
structure TraitRef where
  traitName : Name
  args : List TypeExpr
  span : Span
deriving Repr, Inhabited

/-- A function; one without a body is defined elsewhere. -/
structure FunctionDecl where
  name : Name
  params : List Param
  ret : Option TypeExpr
  /-- Trait obligations that callers have to meet. -/
  given : List TraitRef
  isMeta : Bool
  isVariadic : Bool
  body : Option Expr
  span : Span
deriving Inhabited

/-- Declarations that are checked together. -/
structure Module where
  types : List TypeDecl := []
  traits : List TraitDecl := []
  impls : List TraitRef := []
  functions : List FunctionDecl := []
deriving Inhabited

end ConstraintTyping
