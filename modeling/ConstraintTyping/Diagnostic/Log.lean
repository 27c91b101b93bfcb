import ConstraintTyping.Diagnostic.Render

/-!
# The diagnostic log

Every reported diagnostic is rendered at once, counted and kept.  The counts let a pass ask whether
errors appeared since a checkpoint.  An `ErrorWitness` is handed out with every logged error, so
that a failing pass can show that it reported something.
-/

namespace ConstraintTyping

/-- Evidence that at least one error was logged. -/
structure ErrorWitness where
  private mk ::
deriving DecidableEq, Repr

namespace ErrorWitness

/-- Evidence from a count of errors. -/
def ofCount? (errors : Nat) : Option ErrorWitness := if errors > 0 then some ⟨⟩ else none

/-- What the evidence says. -/
def text (_ : ErrorWitness) : String := "error(s) emitted"

end ErrorWitness

/-- The diagnostics of a run, with what has been written about them. -/
structure DiagnosticLog where
  renderer : Option Renderer := none
  entries : Array Diagnostic := #[]
  /-- Everything rendered so far. -/
  written : String := ""
  errorCount : Nat := 0
  warningCount : Nat := 0
  /-- Number of errors after which the caller should stop; zero means never. -/
  errorLimit : Nat := 0
deriving Repr, Inhabited

namespace DiagnosticLog

/-- Keep a diagnostic and render it. -/
def record (log : DiagnosticLog) (d : Diagnostic) : DiagnosticLog :=
  { log with
    entries := log.entries.push d
    written := match log.renderer with
      | some r => log.written ++ r.diagnostic d
      | none => log.written }

/-- Log an error. -/
def error (log : DiagnosticLog) (d : Diagnostic) : DiagnosticLog :=
  { log with errorCount := log.errorCount + 1 }.record d

/-- Log a diagnostic of any severity; an error yields evidence of itself. -/
def emit (log : DiagnosticLog) (d : Diagnostic) : DiagnosticLog × Option ErrorWitness :=
  match d.severity with
  | .error =>
    let log := log.error d
    (log, ErrorWitness.ofCount? log.errorCount)
  | .warning => ({ log with warningCount := log.warningCount + 1 }.record d, none)
  | .note | .help => (log.record d, none)

/-- Evidence of errors, if there are any. -/
def witness? (log : DiagnosticLog) : Option ErrorWitness := ErrorWitness.ofCount? log.errorCount

/-- Whether errors were logged after a checkpoint, which is an earlier error count. -/
def errorsSince (log : DiagnosticLog) (checkpoint : Nat) : Bool := log.errorCount > checkpoint

/-- Whether the error limit is set and reached. -/
def limitReached (log : DiagnosticLog) : Bool :=
  log.errorLimit > 0 && log.errorCount ≥ log.errorLimit

/-- Write the closing summary. -/
def finish (log : DiagnosticLog) : DiagnosticLog :=
  { log with
    written := match log.renderer with
      | some r => log.written ++ r.summary log.errorCount log.warningCount
      | none => log.written }

/-- One line of counters. -/
def describe (log : DiagnosticLog) : String :=
  "DiagnosticSink \x7b error_count: " ++ toString log.errorCount
    ++ ", warning_count: " ++ toString log.warningCount
    ++ ", error_limit: " ++ toString log.errorLimit ++ ", .. \x7d"

end DiagnosticLog

end ConstraintTyping
