import ConstraintTyping.Diagnostic.Basic

/-!
# Faults of a program

A fault is what the checker found wrong, where, and in which words; it becomes a diagnostic with one
label under the offending span.
-/

namespace ConstraintTyping

/-- The kinds of faults. -/
inductive FaultKind where
  | undeclaredName
  | typeMismatch
  | infiniteType
  | arityMismatch
  | unresolvedObligation
  | nonExhaustiveMatch
  | ambiguousField
  | stepLimit
  | duplicateDefinition
deriving DecidableEq, Repr, Inhabited

namespace FaultKind

/-- Every kind of fault. -/
def all : List FaultKind :=
  [.undeclaredName, .typeMismatch, .infiniteType, .arityMismatch, .unresolvedObligation,
    .nonExhaustiveMatch, .ambiguousField, .stepLimit, .duplicateDefinition]

/-- The code under which a fault is reported. -/
def code : FaultKind → ErrorCode
  | .typeMismatch => .mismatch
  | .undeclaredName => .undeclared
  | .infiniteType => .infinite
  | .arityMismatch => .arity
  | .unresolvedObligation => .unimplemented
  | .nonExhaustiveMatch => .uncovered
  | .ambiguousField => .ambiguous
  | .stepLimit => .tooComplex
  | .duplicateDefinition => .duplicate

/-- The words under the offending span. -/
def title : FaultKind → String
  | .undeclaredName => "not found in this scope"
  | .typeMismatch => "mismatched types"
  | .infiniteType => "infinite type"
  | .arityMismatch => "wrong number of elements"
  | .unresolvedObligation => "trait not implemented"
  | .nonExhaustiveMatch => "match is not exhaustive"
  | .ambiguousField => "ambiguous field"
  | .stepLimit => "type too complex"
  | .duplicateDefinition => "defined again here"

end FaultKind

/-- A fault at a place in the program. -/
structure TypeFault where
  kind : FaultKind
  span : Span
  message : String
  notes : List String := []
deriving DecidableEq, Repr, Inhabited

namespace TypeFault

/-- Add a note. -/
def withNote (f : TypeFault) (note : String) : TypeFault := { f with notes := f.notes ++ [note] }

/-- A name that is not declared; `what` says what was looked for. -/
def undeclared (what name : String) (span : Span) : TypeFault :=
  ⟨.undeclaredName, span, s!"cannot find {what} `{name}` in this scope", []⟩

/-- A wrong count of something. -/
def arity (what : String) (expected found : Nat) (span : Span) : TypeFault :=
  let plural := if expected = 1 then "" else "s"
  ⟨.arityMismatch, span, s!"expected {expected} {what}{plural}, found {found}", []⟩

/-- A match that leaves patterns open. -/
def nonExhaustive (missing : List String) (span : Span) : TypeFault :=
  let list := ", ".intercalate (missing.map fun m => s!"`{m}`")
  let noun := if missing.length = 1 then "pattern" else "patterns"
  ⟨.nonExhaustiveMatch, span, s!"non-exhaustive match: {noun} {list} not covered",
    ["add an arm for each missing pattern, or a `_` arm"]⟩

/-- Something that is defined twice. -/
def duplicate (what name : String) (span : Span) : TypeFault :=
  ⟨.duplicateDefinition, span, s!"the {what} `{name}` is defined more than once", []⟩

/-- A field that more than one product has. -/
def ambiguousField (field : String) (owners : List String) (span : Span) : TypeFault :=
  ⟨.ambiguousField, span, s!"field `{field}` is declared by more than one type",
    ["candidates: " ++ ", ".intercalate owners]⟩

/-- The fault as a diagnostic. -/
def toDiagnostic (f : TypeFault) : Diagnostic where
  code := f.kind.code
  severity := .error
  message := f.message
  labels := [⟨f.span, f.kind.title, true⟩]
  notes := f.notes

end TypeFault

end ConstraintTyping
