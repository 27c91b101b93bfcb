import ConstraintTyping.Types.Kind

/-!
# Shapes

A shape is one layer of a type: what it is built as, over constituents of some type `α`.  A type
table stores shapes over type numbers.  Constituents are listed in a fixed order: a function's
result, its parameters, its trait constraints; a trait's subject, then its arguments.
-/

namespace ConstraintTyping

/-- Identifiers of the checked program. -/
abbrev Name := String

/-- Qualifiers that a written type can carry. -/
inductive Qualifier where
  | mutable | constant | global | comptime
deriving DecidableEq, Hashable, Repr, Inhabited

namespace Qualifier

/-- Every qualifier. -/
def all : List Qualifier := [.mutable, .constant, .global, .comptime]

/-- The qualifier as written. -/
def keyword : Qualifier → String
  | .mutable => "mut"
  | .constant => "const"
  | .global => "global"
  | .comptime => "comptime"

/-- The qualifier with a given spelling. -/
def ofKeyword? (keyword : String) : Option Qualifier := all.find? (·.keyword = keyword)

end Qualifier

/-- How a type variable is told apart: by the name a program gave it, or by a number. -/
inductive VarIdent where
  | named (name : Name)
  | fresh (number : Nat)
deriving DecidableEq, Hashable, Repr, Inhabited

/-- A function type over constituents `α`. -/
structure Signature (α : Type) where
  ret : α
  params : List α
  /-- Trait types that a caller has to provide. -/
  givens : List α := []
  isMeta : Bool := false
  /-- Whether calls may pass further arguments after the declared ones. -/
  isVariadic : Bool := false
deriving DecidableEq, Hashable, Repr, Inhabited

/-- One layer of a type over constituents `α`. -/
inductive Shape (α : Type) where
  | prim (p : Prim)
  | pointer (target : α)
  | array (elem : α) (length : Option Nat)
  | tuple (items : List α)
  | function (sig : Signature α)
  | var (ident : VarIdent)
  | product (name : Name) (args : List α)
  | sum (name : Name) (args : List α)
  | trait (name : Name) (subject : α) (args : List α)
  | qualified (qualifier : Qualifier) (base : α)
deriving DecidableEq, Hashable, Repr, Inhabited

namespace Signature

variable {α β : Type}

/-- The constituents of a function type: result, parameters, constraints. -/
def children (sig : Signature α) : List α := sig.ret :: sig.params ++ sig.givens

/-- The same signature over other constituents. -/
def map (f : α → β) (sig : Signature α) : Signature β :=
  { ret := f sig.ret
    params := sig.params.map f
    givens := sig.givens.map f
    isMeta := sig.isMeta
    isVariadic := sig.isVariadic }

@[simp] theorem children_map (f : α → β) (sig : Signature α) :
    (sig.map f).children = sig.children.map f := by
  simp [children, map]

end Signature

namespace Shape

variable {α β : Type}

/-- The constituents of a shape, in their fixed order. -/
def children : Shape α → List α
  | .prim _ | .var _ => []
  | .pointer target => [target]
  | .array elem _ => [elem]
  | .tuple items => items
  | .function sig => sig.children
  | .product _ args | .sum _ args => args
  | .trait _ subject args => subject :: args
  | .qualified _ base => [base]

/-- The same shape over other constituents. -/
def map (f : α → β) : Shape α → Shape β
  | .prim p => .prim p
  | .pointer target => .pointer (f target)
  | .array elem length => .array (f elem) length
  | .tuple items => .tuple (items.map f)
  | .function sig => .function (sig.map f)
  | .var ident => .var ident
  | .product name args => .product name (args.map f)
  | .sum name args => .sum name (args.map f)
  | .trait name subject args => .trait name (f subject) (args.map f)
  | .qualified qualifier base => .qualified qualifier (f base)

@[simp] theorem children_map (f : α → β) (s : Shape α) :
    (s.map f).children = s.children.map f := by
  cases s <;> simp [children, map]

/-- What the shape is built as. -/
def kind : Shape α → Kind
  | .prim p => .prim p
  | .pointer _ => .pointer
  | .array _ _ => .array
  | .tuple _ => .tuple
  | .function _ => .function
  | .var _ => .var
  | .product _ _ => .product
  | .sum _ _ => .sum
  | .trait _ _ _ => .trait
  | .qualified _ _ => .qualified

/-- Whether the shape is a type variable. -/
def isVar : Shape α → Bool
  | .var _ => true
  | _ => false

/-- Whether the shape is the error type. -/
def isError : Shape α → Bool
  | .prim .error => true
  | _ => false

/-- Whether the shape only adds a qualifier to another type. -/
def isQualified : Shape α → Bool
  | .qualified _ _ => true
  | _ => false

/-- The least number above the number of a fresh variable; zero for every other shape. -/
def freshBound : Shape α → Nat
  | .var (.fresh number) => number + 1
  | _ => 0

/-- The name of a product, sum or trait. -/
def nominalName? : Shape α → Option Name
  | .product name _ | .sum name _ | .trait name _ _ => some name
  | _ => none

/-- The arguments of a product, sum or trait, a trait's subject first; nothing for other shapes. -/
def nominalArgs : Shape α → List α
  | .product _ args | .sum _ args => args
  | .trait _ subject args => subject :: args
  | _ => []

/-- The signature of a function. -/
def signature? : Shape α → Option (Signature α)
  | .function sig => some sig
  | _ => none

/-- The identity of a variable. -/
def varIdent? : Shape α → Option VarIdent
  | .var ident => some ident
  | _ => none

/-- The same head over a new list of constituents, given in the order of `children`.  Tuples and
nominal types take any number of them and a function takes surplus ones as constraints.  There is
no such shape when the head needs more than it is given, nor for a head that has none. -/
def withChildren? : Shape α → List β → Option (Shape β)
  | .pointer _, target :: _ => some (.pointer target)
  | .array _ length, elem :: _ => some (.array elem length)
  | .tuple _, items => some (.tuple items)
  | .function sig, ret :: rest =>
    some (.function
      { ret
        params := rest.take sig.params.length
        givens := rest.drop sig.params.length
        isMeta := sig.isMeta
        isVariadic := sig.isVariadic })
  | .product name _, args => some (.product name args)
  | .sum name _, args => some (.sum name args)
  | .trait name _ _, subject :: args => some (.trait name subject args)
  | .qualified qualifier _, base :: _ => some (.qualified qualifier base)
  | _, _ => none

end Shape

end ConstraintTyping
