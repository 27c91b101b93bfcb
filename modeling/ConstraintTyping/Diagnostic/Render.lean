import ConstraintTyping.Source.Lines
import ConstraintTyping.Diagnostic.Basic
import ConstraintTyping.Diagnostic.Color

/-!
# Rendering diagnostics

A renderer turns a diagnostic into text.  With a source file at hand it quotes the line of every
label and underlines the labelled characters:

```text
error[E2001]: type mismatch: expected `i32`, found `f64`
  --> main.tn:3:9-3:12
   |
 3 |     1 + 2.0
   |         ^^^ mismatched types
   = note: integer and float types are never converted implicitly
```

Without one, or for a label that has no place in the text, it prints the bare span.
-/

namespace ConstraintTyping

/-- A named text that the renderer quotes. -/
structure SourceFile where
  name : String
  lines : LineTable
deriving Repr, Inhabited

/-- The file with a given name and text. -/
def SourceFile.ofText (name text : String) : SourceFile := ⟨name, LineTable.ofText text⟩

/-- How diagnostics are written: with or without color, with or without quoted source. -/
structure Renderer where
  color : Bool
  source : Option SourceFile
deriving Repr, Inhabited

/-- `n` copies of a character. -/
def replicateChar (n : Nat) (c : Char) : String := String.ofList (List.replicate n c)

/-- `text` moved right to fill `width` columns. -/
def padLeft (width : Nat) (text : String) : String :=
  replicateChar (width - text.length) ' ' ++ text

/-- Where the underline of a label stands on its quoted line, and how many marks it has. -/
structure Underline where
  line : Nat
  column : Nat
  stopLine : Nat
  stopColumn : Nat
  quoted : String
  indent : Nat
  width : Nat
deriving DecidableEq, Repr

/-- The underline of a span: on one line it covers the span's columns, across lines it runs to the
end of the first, and it is never empty. -/
def SourceFile.underline (file : SourceFile) (span : Span) : Underline :=
  let (line, column) := file.lines.lineColumn span.start
  let (stopLine, stopColumn) := file.lines.lineColumn span.stop
  let quoted := (file.lines.lineText? line).getD ""
  let indent := min (column - 1) quoted.length
  let width := if stopLine = line then stopColumn - column else quoted.length - indent
  { line, column, stopLine, stopColumn, quoted, indent, width := max width 1 }

namespace Renderer

/-- A renderer for an output that is, or is not, a terminal. -/
def ofMode (mode : ColorMode) (isTerminal : Bool) (source : Option SourceFile) : Renderer :=
  { color := mode.enabled isTerminal, source }

/-- `text` painted when this renderer uses color. -/
def paint (r : Renderer) (color text : String) : String := Color.paint r.color color text

/-- Color of a severity's name. -/
def severityColor : Severity → String
  | .error => Color.error
  | .warning => Color.warning
  | .note => Color.note
  | .help => Color.help

/-- Color of a label's text. -/
def labelColor (label : Label) : String :=
  if label.isPrimary then Color.error else Color.secondary

/-- A label as its bare span and message. -/
def plainLabel (r : Renderer) (label : Label) : String :=
  let marker := if label.isPrimary then "-->" else "   "
  s!"  {marker} {label.span.text}: " ++ r.paint (labelColor label) label.message ++ "\n"

/-- A label as a quoted and underlined line. -/
def quotedLabel (r : Renderer) (file : SourceFile) (gutter : Nat) (label : Label) : String :=
  let u := file.underline label.span
  let margin := replicateChar gutter ' '
  let indent := replicateChar u.indent ' '
  let marker := if label.isPrimary then "-->" else ":::"
  let marks := replicateChar u.width (if label.isPrimary then '^' else '-')
  let remark := if label.message.isEmpty then marks else marks ++ " " ++ label.message
  s!"{margin}{marker} {file.name}:{u.line}:{u.column}-{u.stopLine}:{u.stopColumn}\n"
    ++ s!"{margin} |\n"
    ++ s!"{padLeft gutter (toString u.line)} | {u.quoted}\n"
    ++ s!"{margin} | {indent}" ++ r.paint (labelColor label) remark ++ "\n"

/-- Width of the column of line numbers: one more than the longest number, none without source. -/
def gutter (r : Renderer) (labels : List Label) : Nat :=
  match r.source with
  | none => 0
  | some file =>
    let widths := labels.map fun l => (toString (file.lines.lineColumn l.span.start).1).length
    widths.max?.getD 1 + 1

/-- A label, quoted when there is a source and the label has a place in it. -/
def label (r : Renderer) (gutter : Nat) (l : Label) : String :=
  match r.source with
  | some file => if l.span = Span.none then r.plainLabel l else r.quotedLabel file gutter l
  | none => r.plainLabel l

/-- A note or suggestion below the labels. -/
def trailer (r : Renderer) (gutter : Nat) (word color text : String) : String :=
  replicateChar gutter ' ' ++ " = " ++ r.paint color word ++ ": " ++ text ++ "\n"

/-- The full text of a diagnostic, closed by an empty line. -/
def diagnostic (r : Renderer) (d : Diagnostic) : String :=
  let g := r.gutter d.labels
  r.paint (severityColor d.severity) d.severity.text
    ++ r.paint Color.bold s!"[{d.code.text}]"
    ++ s!": {d.message}\n"
    ++ String.join (d.labels.map (r.label g))
    ++ String.join (d.notes.map (r.trailer g "note" Color.bold))
    ++ String.join (d.suggestions.map (r.trailer g "help" Color.help))
    ++ "\n"

/-- The ending of a counted noun. -/
def plural (count : Nat) : String := if count = 1 then "" else "s"

/-- The closing line: errors abort, warnings are counted, and a clean run says nothing. -/
def summary (r : Renderer) (errors warnings : Nat) : String :=
  if errors > 0 then
    let errorPart := if errors = 1 then "previous error" else s!"{errors} previous errors"
    let warningPart :=
      if warnings > 0 then s!"; {warnings} warning{plural warnings} emitted" else ""
    r.paint Color.error "error" ++ s!": aborting due to {errorPart}{warningPart}\n"
  else if warnings > 0 then
    r.paint Color.warning "warning" ++ s!": {warnings} warning{plural warnings} emitted\n"
  else ""

end Renderer

end ConstraintTyping
