import ConstraintTyping.Diagnostic.Color

/-!
# Configuration of a run
-/

namespace ConstraintTyping

/-- What can be chosen for one run of the checker. -/
structure CheckConfig where
  /-- Unification steps for one constraint. -/
  maxUnifySteps : Nat := 10000
  /-- Number of errors after which checking stops; zero means never. -/
  errorLimit : Nat := 0
  color : ColorMode := .auto
  /-- Whether diagnostics go to a terminal. -/
  isTerminal : Bool := false
deriving DecidableEq, Repr, Inhabited

namespace CheckConfig

/-- Whether types in messages are colored. -/
def useColor (c : CheckConfig) : Bool := c.color.enabled c.isTerminal

/-- Whether the error limit is set and reached. -/
def limitReached (c : CheckConfig) (errors : Nat) : Bool :=
  c.errorLimit > 0 && errors ≥ c.errorLimit

end CheckConfig

end ConstraintTyping
