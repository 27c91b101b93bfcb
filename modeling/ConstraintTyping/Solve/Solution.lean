import ConstraintTyping.Solve.Constraint
import ConstraintTyping.Solve.Unify

/-!
# Solving constraints

Constraints are solved in order, each with a step budget of its own.  An equality that fails adds no
bindings and does not stop the ones after it.  Trait obligations are passed on untouched.
-/

namespace ConstraintTyping

/-- An equality that failed, its two sides read through everything known at that point. -/
structure ConstraintFailure where
  error : UnifyError
  lhs : TypeId
  rhs : TypeId
  span : Span
  reason : Reason
deriving DecidableEq, Repr

/-- The outcome of solving a list of constraints. -/
structure Solution where
  bindings : Bindings := .empty
  /-- Trait obligations in order. -/
  obligations : List (TypeId × Span) := []
  /-- Failed equalities in the order in which they are handed over. -/
  failures : List ConstraintFailure := []
  /-- Number of failed equalities, kept apart from what is handed over. -/
  failureCount : Nat := 0
deriving Repr, Inhabited

namespace StoreM

/-- Take one constraint into a solution. -/
def solveOne (limit : Nat) (sol : Solution) : Constraint → StoreM Solution
  | .implemented obligation span =>
    return { sol with obligations := sol.obligations ++ [(obligation, span)] }
  | .equal lhs rhs span reason => do
    let l ← sol.bindings.apply lhs
    let r ← sol.bindings.apply rhs
    match ← unify limit l r with
    | .ok found => return { sol with bindings := sol.bindings.andThen found }
    | .error failure =>
      let known := sol.bindings.andThen failure.found
      let lhs ← known.apply lhs
      let rhs ← known.apply rhs
      return { sol with
        failureCount := sol.failureCount + 1
        failures := sol.failures ++ [{ error := failure.error, lhs, rhs, span, reason }] }

/-- Solve a list of constraints in order. -/
def solve (limit : Nat) (constraints : List Constraint) : StoreM Solution :=
  constraints.foldlM (solveOne limit) {}

end StoreM

end ConstraintTyping
