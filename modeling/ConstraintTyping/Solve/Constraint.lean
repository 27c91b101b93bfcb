import ConstraintTyping.Source.Span
import ConstraintTyping.Types.Table

/-!
# Constraints

Inference asks for two things: that two types are equal, for a reason that a message can name, and
that a trait type is implemented.
-/

namespace ConstraintTyping

/-- Why two types have to be equal. -/
inductive Reason where
  /-- An argument of a call, counted from zero. -/
  | argument (index : Nat)
  /-- The result of a call. -/
  | callResult
  /-- A body against the result type of its function. -/
  | body
  /-- A condition. -/
  | condition
  /-- The branches of a conditional. -/
  | branch
  /-- The arms of a match. -/
  | matchArm
  /-- A written type. -/
  | ascription
  /-- An operand of an operator. -/
  | operand
  /-- A field access or construction. -/
  | field
  /-- A pattern against the matched value. -/
  | pattern
  /-- An assignment. -/
  | assign
  /-- An element of an array literal. -/
  | arrayElement
  /-- Anything else. -/
  | general
deriving DecidableEq, Repr, Inhabited

/-- The message for a failed equality: `$1` stands for the first type and `$2` for the second. -/
def Reason.template : Reason → String
  | .argument index => s!"argument {index + 1} has type $2, but the function expects $1"
  | .callResult => "call result has type $1, but the context expects $2"
  | .body => "function returns $1, but its body has type $2"
  | .condition => "condition must be $1, found $2"
  | .branch => "`if` branches have incompatible types $1 and $2"
  | .matchArm => "match arms have incompatible types $1 and $2"
  | .ascription => "expected $1 from the annotation, found $2"
  | .operand => "operands have incompatible types $1 and $2"
  | .field => "expected $1, found $2"
  | .pattern => "pattern of type $2 cannot match a value of type $1"
  | .assign => "cannot assign $2 to a place of type $1"
  | .arrayElement => "array elements have incompatible types $1 and $2"
  | .general => "type mismatch: expected $1, found $2"

/-- One thing that inference asks for. -/
inductive Constraint where
  /-- Two types must be equal. -/
  | equal (lhs rhs : TypeId) (span : Span) (reason : Reason)
  /-- A trait type must be implemented. -/
  | implemented (obligation : TypeId) (span : Span)
deriving DecidableEq, Repr

end ConstraintTyping
