/-!
# Flat child lists

Child lists of tree nodes can be kept end to end in one array per kind of child; a node then holds
the range of its own children.  A range has a 16-bit length.
-/

namespace ConstraintTyping

/-- The kinds of child lists. -/
inductive ListKind where
  | exprs | arms | params | patterns
deriving DecidableEq, Repr, Inhabited

namespace ListKind

/-- What one element is called. -/
def noun : ListKind → String
  | .exprs => "expression"
  | .arms => "match arm"
  | .params => "parameter"
  | .patterns => "pattern"

/-- What a range of elements is called. -/
def rangeName : ListKind → String
  | .exprs => "ExprRange"
  | .arms => "ArmRange"
  | .params => "ParamRange"
  | .patterns => "PatternRange"

end ListKind

/-- A run of elements in the flat array of one kind. -/
structure ListRange where
  kind : ListKind
  start : Nat
  length : Nat
deriving DecidableEq, Repr

namespace ListRange

/-- Longest list that a range can describe. -/
def maxLength : Nat := 0xffff

/-- Whether the list has no elements. -/
def isEmpty (r : ListRange) : Bool := r.length == 0

/-- The range as it is shown in messages. -/
def text (r : ListRange) : String := s!"{r.kind.rangeName}({r.start}..{r.start + r.length})"

end ListRange

/-- A list that is too long for its range. -/
structure ListOverflow where
  kind : ListKind
deriving DecidableEq, Repr

/-- The wording of a list that is too long. -/
def ListOverflow.message (e : ListOverflow) : String :=
  s!"{e.kind.noun} list exceeded u16::MAX entries"

/-- All child lists of one kind, end to end. -/
structure FlatList (α : Type) where
  kind : ListKind
  items : Array α := #[]
deriving Repr

namespace FlatList

variable {α : Type}

/-- Store a list behind the ones before it.  The elements of a list that is too long are stored all
the same; there is only no range for them. -/
def store (l : FlatList α) (xs : List α) : Except ListOverflow ListRange × FlatList α :=
  let range := ⟨l.kind, l.items.size, xs.length⟩
  let result := if xs.length ≤ ListRange.maxLength then .ok range else .error ⟨l.kind⟩
  (result, { l with items := l.items ++ xs.toArray })

/-- The elements of a range. -/
def read (l : FlatList α) (r : ListRange) : List α :=
  (l.items.extract r.start (r.start + r.length)).toList

end FlatList

end ConstraintTyping
