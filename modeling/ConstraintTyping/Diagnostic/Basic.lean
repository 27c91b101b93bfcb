import ConstraintTyping.Source.Span

/-!
# Diagnostics

A diagnostic is plain data: a code, a severity, a message, labelled spans, notes and suggestions.
How it is written out is the business of `ConstraintTyping.Diagnostic.Render`.
-/

namespace ConstraintTyping

/-- What went wrong, as a stable code.  All but the last are faults of the checked program. -/
inductive ErrorCode where
  /-- Two types differ. -/
  | mismatch
  /-- A name is not declared. -/
  | undeclared
  /-- A type variable occurs inside its own binding. -/
  | infinite
  /-- Wrong number of arguments, elements or type arguments. -/
  | arity
  /-- No implementation satisfies a trait obligation. -/
  | unimplemented
  /-- A match does not cover every case. -/
  | uncovered
  /-- A field name belongs to more than one product. -/
  | ambiguous
  /-- Unification exceeded its step budget. -/
  | tooComplex
  /-- Something is defined twice. -/
  | duplicate
  /-- The checker itself is at fault. -/
  | internal
deriving DecidableEq, Repr, Inhabited

namespace ErrorCode

/-- Every code, in the order of their numbers. -/
def all : List ErrorCode :=
  [.mismatch, .undeclared, .infinite, .arity, .unimplemented, .uncovered, .ambiguous, .tooComplex,
    .duplicate, .internal]

/-- The printed code: program faults count from 2001, internal ones from 9001. -/
def text : ErrorCode → String
  | .mismatch => "E2001"
  | .undeclared => "E2002"
  | .infinite => "E2003"
  | .arity => "E2004"
  | .unimplemented => "E2005"
  | .uncovered => "E2006"
  | .ambiguous => "E2007"
  | .tooComplex => "E2008"
  | .duplicate => "E2009"
  | .internal => "E9001"

/-- Whether the checked program, and not the checker, is at fault. -/
def isTypeError : ErrorCode → Bool
  | .internal => false
  | _ => true

/-- The code with a given printed form. -/
def ofText? (text : String) : Option ErrorCode := all.find? (·.text = text)

end ErrorCode

/-- How serious a diagnostic is. -/
inductive Severity where
  | error
  | warning
  | note
  | help
deriving DecidableEq, Repr, Inhabited

namespace Severity

/-- The word that opens a diagnostic. -/
def text : Severity → String
  | .error => "error"
  | .warning => "warning"
  | .note => "note"
  | .help => "help"

/-- The severity with a given name. -/
def ofText? (text : String) : Option Severity :=
  [error, warning, note, help].find? (·.text = text)

end Severity

/-- A span with something to say about it. -/
structure Label where
  span : Span
  message : String
  /-- Whether this is the place of the fault, as opposed to context. -/
  isPrimary : Bool
deriving DecidableEq, Repr, Inhabited

/-- Everything there is to know about one reported fault. -/
structure Diagnostic where
  code : ErrorCode
  severity : Severity
  message : String := ""
  labels : List Label := []
  notes : List String := []
  suggestions : List String := []
deriving DecidableEq, Repr, Inhabited

namespace Diagnostic

/-- Span of the first primary label. -/
def primarySpan? (d : Diagnostic) : Option Span :=
  (d.labels.find? (·.isPrimary)).map (·.span)

/-- Whether the diagnostic counts as an error. -/
def isError (d : Diagnostic) : Bool := d.severity == .error

/-- The first line of the diagnostic: severity, code and message. -/
def headline (d : Diagnostic) : String := s!"{d.severity.text}[{d.code.text}]: {d.message}"

end Diagnostic

end ConstraintTyping
