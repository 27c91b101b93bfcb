import ConstraintTyping.Source.Span
import ConstraintTyping.Tree.Operator
import ConstraintTyping.Tree.TypeExpr

/-!
# Expressions and patterns

Expressions carry a number and a span, patterns a number.  What is known about an expression is kept
by its number, so numbers that occur twice share what is known about them.
-/

namespace ConstraintTyping

/-- The number of an expression. -/
abbrev ExprId := Nat

namespace ExprId

/-- The word that numbers no expression. -/
def absent : ExprId := 0xffffffff

/-- Whether the number can belong to an expression. -/
def isValid (id : ExprId) : Bool := id != absent

/-- An expression number as it is shown in messages. -/
def text (id : ExprId) : String := if id.isValid then s!"ExprId({id})" else "ExprId::INVALID"

end ExprId

/-- The number of a pattern. -/
abbrev PatternId := Nat

/-- A parameter of a function or lambda. -/
structure Param where
  name : Name
  written : Option TypeExpr
  span : Span
deriving Repr, Inhabited

mutual

/-- An expression with its number and place. -/
inductive Expr where
  | mk (id : ExprId) (span : Span) (form : ExprForm)

/-- What an expression is. -/
inductive ExprForm where
  | int (value : Nat) (suffix : Option Name)
  /-- A floating-point literal, as the bits of its value. -/
  | float (bits : Nat) (suffix : Option Name)
  | bool (value : Bool)
  | char (value : Char)
  | string (value : String)
  | unit
  | ident (name : Name)
  | call (callee : Expr) (args : List Expr)
  | binary (op : BinaryOp) (left right : Expr)
  | unary (op : UnaryOp) (operand : Expr)
  | field (receiver : Expr) (name : Name)
  /-- A product or sum tag applied to its fields. -/
  | construct (name : Name) (args : List Expr)
  | tuple (items : List Expr)
  | array (items : List Expr)
  /-- A scope whose value is that of its last item. -/
  | block (items : List Expr)
  /-- A conditional without an alternative. -/
  | ifThen (condition thenBranch : Expr)
  | ifElse (condition thenBranch elseBranch : Expr)
  | select (scrutinee : Expr) (arms : List Arm)
  | loop (condition body : Expr)
  /-- A binding for the rest of the enclosing scope. -/
  | define (name : Name) (written : Option TypeExpr) (init : Expr)
  | assign (target value : Expr)
  /-- An expression with a written type. -/
  | ascribe (expr : Expr) (written : TypeExpr)
  | lambda (params : List Param) (body : Expr)

/-- One case of a match. -/
inductive Arm where
  | mk (pattern : Pattern) (body : Expr) (span : Span)

/-- What a value is matched against. -/
inductive Pattern where
  | wildcard (id : PatternId)
  | binding (id : PatternId) (name : Name)
  | literal (id : PatternId) (expr : Expr)
  | tuple (id : PatternId) (items : List Pattern)
  | tag (id : PatternId) (name : Name) (items : List Pattern)

end

namespace ExprForm

instance : Inhabited ExprForm := ⟨.unit⟩

/-- Whether the expression is a literal. -/
def isLiteral : ExprForm → Bool
  | .int _ _ | .float _ _ | .bool _ | .char _ | .string _ | .unit => true
  | _ => false

end ExprForm

namespace Expr

instance : Inhabited Expr := ⟨.mk 0 Span.none .unit⟩

/-- The number of an expression. -/
def id : Expr → ExprId
  | .mk id _ _ => id

/-- The place of an expression. -/
def span : Expr → Span
  | .mk _ span _ => span

/-- What an expression is. -/
def form : Expr → ExprForm
  | .mk _ _ form => form

end Expr

namespace Pattern

instance : Inhabited Pattern := ⟨.wildcard 0⟩

/-- The number of a pattern. -/
def id : Pattern → PatternId
  | .wildcard id | .binding id _ | .literal id _ | .tuple id _ | .tag id _ _ => id

/-- Whether a pattern matches everything by its form alone. -/
def isCatchAll : Pattern → Bool
  | .wildcard _ | .binding _ _ => true
  | _ => false

end Pattern

namespace Arm

/-- The pattern of an arm. -/
def pattern : Arm → Pattern
  | .mk pattern _ _ => pattern

/-- The place of an arm. -/
def span : Arm → Span
  | .mk _ _ span => span

end Arm

end ConstraintTyping
