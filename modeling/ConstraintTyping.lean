import ConstraintTyping.Symbol
import ConstraintTyping.Source.Span
import ConstraintTyping.Source.Lines
import ConstraintTyping.Diagnostic.Basic
import ConstraintTyping.Diagnostic.Color
import ConstraintTyping.Diagnostic.Render
import ConstraintTyping.Diagnostic.Log
import ConstraintTyping.Tree.Operator
import ConstraintTyping.Tree.FlatList
import ConstraintTyping.Types.Kind
import ConstraintTyping.Types.Shape
import ConstraintTyping.Types.Table
import ConstraintTyping.Types.Store
import ConstraintTyping.Types.Build
import ConstraintTyping.Types.Qualify
import ConstraintTyping.Types.Vars
import ConstraintTyping.Types.Substitute
import ConstraintTyping.Types.Declare
import ConstraintTyping.Types.Variant
import ConstraintTyping.Types.Printer
import ConstraintTyping.Solve.Bindings
import ConstraintTyping.Solve.Unify
import ConstraintTyping.Solve.Constraint
import ConstraintTyping.Solve.Solution
import ConstraintTyping.Traits.Table
import ConstraintTyping.Traits.Operators
import ConstraintTyping.Fault.Basic
import ConstraintTyping.Fault.Difference
import ConstraintTyping.Fault.Mismatch
import ConstraintTyping.Tree.TypeExpr
import ConstraintTyping.Tree.Expr
import ConstraintTyping.Tree.Module
import ConstraintTyping.Tree.Walk
import ConstraintTyping.Infer.Scopes
import ConstraintTyping.Infer.Resolve
import ConstraintTyping.Infer.Coverage
import ConstraintTyping.Infer.Finding
import ConstraintTyping.Infer.Rules
import ConstraintTyping.Infer.Find
import ConstraintTyping.Infer.Apply
import ConstraintTyping.Check.CallGraph
import ConstraintTyping.Check.Config
import ConstraintTyping.Check.State
import ConstraintTyping.Check.Register
import ConstraintTyping.Check.Signatures
import ConstraintTyping.Check.Generalize
import ConstraintTyping.Check.Bodies
import ConstraintTyping.Check.TypedModule
import ConstraintTyping.Proofs.Types.Growth
import ConstraintTyping.Proofs.Types.Reading
import ConstraintTyping.Proofs.Types.Rewriting
import ConstraintTyping.Proofs.Solve.Blame
import ConstraintTyping.Proofs.Solve.Budget
import ConstraintTyping.Proofs.Solve.Compatible
import ConstraintTyping.Proofs.Solve.Symmetry
import ConstraintTyping.Proofs.Solve.TreeUnify
import ConstraintTyping.Proofs.Solve.SolveRun
import ConstraintTyping.Proofs.Solve.UnifyComplete
import ConstraintTyping.Proofs.Types.FreshInstance
import ConstraintTyping.Proofs.Infer.Typing
import ConstraintTyping.Proofs.Infer.Rules
import ConstraintTyping.Proofs.Infer.Completeness
import ConstraintTyping.Proofs.Infer.Principal
import ConstraintTyping.Proofs.Solve.Shortcut
import ConstraintTyping.Proofs.Types.Uniquing
import ConstraintTyping.Proofs.Check.Register
import ConstraintTyping.Proofs.Infer.Group
import ConstraintTyping.Proofs.Types.Materialize
import ConstraintTyping.Proofs.Check.Bodies
import ConstraintTyping.Proofs.Check.Components
import ConstraintTyping.Proofs.Check.ErrorFree
import ConstraintTyping.Proofs.Check.Obligations
import ConstraintTyping.Proofs.Check.WellTyped
import ConstraintTyping.Proofs.Infer.Coverage
import ConstraintTyping.Proofs.Types.Monomorphic
import ConstraintTyping.Proofs.Renaming.Coupled
import ConstraintTyping.Proofs.Renaming.Rewriting
import ConstraintTyping.Proofs.Renaming.Solving
import ConstraintTyping.Proofs.Check.Course
import ConstraintTyping.Proofs.Check.Insertion
import ConstraintTyping.Proofs.Check.OpenFields
import ConstraintTyping.Proofs.Renaming.Applying
import ConstraintTyping.Proofs.Renaming.Bodies
import ConstraintTyping.Proofs.Renaming.Generalizing
import ConstraintTyping.Proofs.Renaming.Groups
import ConstraintTyping.Proofs.Renaming.Independence
import ConstraintTyping.Proofs.Renaming.Locality
import ConstraintTyping.Proofs.Check.Canonical
import ConstraintTyping.Proofs.Infer.Settling
import ConstraintTyping.Proofs.Types.Facts
import ConstraintTyping.Proofs.Types.Ungated
import ConstraintTyping.Proofs.Types.Requalified
import ConstraintTyping.Proofs.Types.Apart
import ConstraintTyping.Proofs.Check.Materialized
import ConstraintTyping.Proofs.Types.Forgetting
import ConstraintTyping.Proofs.Renaming.Making
import ConstraintTyping.Proofs.Renaming.Requests
import ConstraintTyping.Proofs.Renaming.NextUnit
import ConstraintTyping.Proofs.Source.Lines
import ConstraintTyping.Proofs.Renaming.Reprinting
import ConstraintTyping.Proofs.Types.Coloring
import ConstraintTyping.Proofs.Types.Leaves
import ConstraintTyping.Proofs.Symbols
import ConstraintTyping.Proofs.Diagnostic.Underline
import ConstraintTyping.Proofs.Solve.Variadic
import ConstraintTyping.Proofs.Types.Answered
import ConstraintTyping.Proofs.Types.BareArguments
import ConstraintTyping.Proofs.Renaming.LocalNames
import ConstraintTyping.Proofs.Renaming.LocalWalks
import ConstraintTyping.Proofs.Renaming.LocalGroups
import ConstraintTyping.Proofs.Renaming.LocalRuns
import ConstraintTyping.Proofs.Types.Stored
