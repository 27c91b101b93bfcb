import ConstraintTyping.Types.Shape

/-!
# Written types

A type as it stands in a program.  Primitive types are names without arguments.
-/

namespace ConstraintTyping

/-- A type as written. -/
inductive TypeExpr where
  | named (name : Name) (args : List TypeExpr)
  | var (name : Name)
  | pointer (target : TypeExpr)
  | array (elem : TypeExpr) (length : Option Nat)
  | tuple (items : List TypeExpr)
  | function (params : List TypeExpr) (ret : TypeExpr)
  | qualified (qualifier : Qualifier) (base : TypeExpr)
deriving Repr, Inhabited

end ConstraintTyping
