import ConstraintTyping.Fault.Basic
import ConstraintTyping.Diagnostic.Log
import ConstraintTyping.Fault.Difference
import ConstraintTyping.Solve.Solution
import ConstraintTyping.Types.Printer

/-!
# Explaining failed equalities

A failed equality is told in the words of its reason, with the two types filled in, and with notes
on the innermost clash where that says more.
-/

namespace ConstraintTyping

/-- Replace `$1` and `$2` in a template by two texts in backticks. -/
def fillTemplate (first second : String) : List Char → String
  | [] => ""
  | '$' :: '1' :: rest => "`" ++ first ++ "`" ++ fillTemplate first second rest
  | '$' :: '2' :: rest => "`" ++ second ++ "`" ++ fillTemplate first second rest
  | c :: rest => c.toString ++ fillTemplate first second rest

namespace Store

/-- A template filled with two types. -/
def printMismatchWith (st : Store) (color : Bool) (template : String) (a b : TypeId) :
    StateM VarNames String := do
  let (first, second) ← st.printPairWith color a b
  return fillTemplate first second template.toList

/-- The notes on a failed equality. -/
def failureNotes (st : Store) (color : Bool) (failure : ConstraintFailure) :
    StateM VarNames (List String) := do
  match failure.error with
  | .mismatch expected found =>
    let inner ←
      if (expected, found) = (failure.lhs, failure.rhs) then pure []
      else do
        let note ← st.printMismatchWith color "the mismatch is between $1 and $2" expected found
        pure [note]
    return inner ++ (st.differences expected found).map (·.note)
  | .infinite var containing =>
    let varText ← st.printWith var
    let containingText ← st.printWith containing
    return [s!"`{varText}` occurs inside `{containingText}`"]
  | .arity expected found kind =>
    let what := match kind with
      | .tuple => "tuple elements"
      | .function => "parameters"
      | .typeArgs => "type arguments"
    return [s!"expected {expected} {what}, found {found}"]
  | .stepLimit _ => return []

/-- The fault of a failed equality. -/
def explain (st : Store) (color : Bool) (failure : ConstraintFailure) : TypeFault :=
  let names := VarNames.forTypes st [failure.lhs, failure.rhs]
  let told : StateM VarNames TypeFault := do
    let message ← st.printMismatchWith color failure.reason.template failure.lhs failure.rhs
    let notes ← st.failureNotes color failure
    return match failure.error with
      | .mismatch _ _ => ⟨.typeMismatch, failure.span, message, notes⟩
      | .infinite _ _ => ⟨.infiniteType, failure.span, message, notes⟩
      | .arity _ _ _ => ⟨.arityMismatch, failure.span, message, notes⟩
      | .stepLimit limit =>
        ⟨.stepLimit, failure.span, s!"{message} (gave up after {limit} unification steps)", notes⟩
  (told.run names).1

end Store

/-- Log a fault. -/
def DiagnosticLog.report (log : DiagnosticLog) (fault : TypeFault) : DiagnosticLog :=
  log.error fault.toDiagnostic

end ConstraintTyping
