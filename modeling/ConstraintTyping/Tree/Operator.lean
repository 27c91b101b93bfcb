/-!
# Operators

The binary and unary operators of the language, their spelling, and the trait that each overloadable
one goes through.
-/

namespace ConstraintTyping

/-- Binary operators. -/
inductive BinaryOp where
  | add | sub | mul | div | mod
  | eq | notEq | lt | ltEq | gt | gtEq
  | and | or
deriving DecidableEq, Repr, Inhabited

namespace BinaryOp

/-- Every binary operator. -/
def all : List BinaryOp :=
  [.add, .sub, .mul, .div, .mod, .eq, .notEq, .lt, .ltEq, .gt, .gtEq, .and, .or]

/-- The operator as written. -/
def symbol : BinaryOp → String
  | .add => "+"
  | .sub => "-"
  | .mul => "*"
  | .div => "/"
  | .mod => "%"
  | .eq => "=="
  | .notEq => "!="
  | .lt => "<"
  | .ltEq => "<="
  | .gt => ">"
  | .gtEq => ">="
  | .and => "and"
  | .or => "or"

/-- The trait that types the operator; `and` and `or` are built in. -/
def traitName? : BinaryOp → Option String
  | .add => some "Add"
  | .sub => some "Sub"
  | .mul => some "Mul"
  | .div => some "Div"
  | .mod => some "Mod"
  | .lt | .ltEq | .gt | .gtEq => some "Cmp"
  | .eq | .notEq => some "Eq"
  | .and | .or => none

/-- Whether the result is a truth value rather than the operands' type. -/
def isComparison : BinaryOp → Bool
  | .eq | .notEq | .lt | .ltEq | .gt | .gtEq => true
  | _ => false

/-- The operator with a given spelling. -/
def ofSymbol? (symbol : String) : Option BinaryOp := all.find? (·.symbol = symbol)

end BinaryOp

/-- Unary operators. -/
inductive UnaryOp where
  | neg | not | addressOf | deref
deriving DecidableEq, Repr, Inhabited

namespace UnaryOp

/-- Every unary operator. -/
def all : List UnaryOp := [.neg, .not, .addressOf, .deref]

/-- The operator as written. -/
def symbol : UnaryOp → String
  | .neg => "-"
  | .not => "not"
  | .addressOf => "&"
  | .deref => "@"

/-- The operator with a given spelling. -/
def ofSymbol? (symbol : String) : Option UnaryOp := all.find? (·.symbol = symbol)

end UnaryOp

end ConstraintTyping
