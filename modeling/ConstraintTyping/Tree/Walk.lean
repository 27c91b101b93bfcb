import ConstraintTyping.Tree.Module

/-!
# Walking a tree

The nodes of a tree in the order of a walk from left to right, each before the nodes below it.  A
literal pattern has its literal below it.
-/

namespace ConstraintTyping

/-- A node that a walk comes by. -/
inductive TreeNode where
  | function (decl : FunctionDecl)
  | param (param : Param)
  | expr (expr : Expr)
  | arm (arm : Arm)
  | pattern (pattern : Pattern)

mutual

/-- The nodes of an expression, itself first. -/
def Expr.walk : Expr → List TreeNode
  | .mk id span form => .expr (.mk id span form) :: form.walkParts

/-- The nodes below an expression. -/
def ExprForm.walkParts : ExprForm → List TreeNode
  | .int _ _ | .float _ _ | .bool _ | .char _ | .string _ | .unit | .ident _ => []
  | .unary _ operand => operand.walk
  | .field receiver _ => receiver.walk
  | .define _ _ init => init.walk
  | .ascribe expr _ => expr.walk
  | .binary _ left right => left.walk ++ right.walk
  | .assign target value => target.walk ++ value.walk
  | .loop condition body => condition.walk ++ body.walk
  | .call callee args => callee.walk ++ walkExprs args
  | .construct _ items | .tuple items | .array items | .block items => walkExprs items
  | .ifThen condition thenBranch => condition.walk ++ thenBranch.walk
  | .ifElse condition thenBranch elseBranch =>
    condition.walk ++ thenBranch.walk ++ elseBranch.walk
  | .select scrutinee arms => scrutinee.walk ++ walkArms arms
  | .lambda params body => params.map .param ++ body.walk

/-- The nodes of a list of expressions. -/
def walkExprs : List Expr → List TreeNode
  | [] => []
  | e :: rest => e.walk ++ walkExprs rest

/-- The nodes of the arms of a match: each arm, its pattern, its body. -/
def walkArms : List Arm → List TreeNode
  | [] => []
  | .mk pattern body span :: rest =>
    .arm (.mk pattern body span) :: (pattern.walk ++ body.walk ++ walkArms rest)

/-- The nodes of a pattern, itself first. -/
def Pattern.walk : Pattern → List TreeNode
  | .wildcard id => [.pattern (.wildcard id)]
  | .binding id name => [.pattern (.binding id name)]
  | .literal id expr => .pattern (.literal id expr) :: expr.walk
  | .tuple id items => .pattern (.tuple id items) :: walkPatterns items
  | .tag id name items => .pattern (.tag id name items) :: walkPatterns items

/-- The nodes of a list of patterns. -/
def walkPatterns : List Pattern → List TreeNode
  | [] => []
  | p :: rest => p.walk ++ walkPatterns rest

end

/-- The nodes of a function: itself, its parameters, its body. -/
def FunctionDecl.walk (f : FunctionDecl) : List TreeNode :=
  .function f :: f.params.map .param ++ (f.body.map Expr.walk).getD []

/-- The nodes of a module's functions. -/
def Module.walk (m : Module) : List TreeNode := m.functions.flatMap FunctionDecl.walk

/-- The expression at a node. -/
def TreeNode.expr? : TreeNode → Option Expr
  | .expr e => some e
  | _ => none

/-- All expressions of a tree in the order of the walk. -/
def Expr.subexprs (e : Expr) : List Expr := e.walk.filterMap TreeNode.expr?

/-- All expressions of a function's body. -/
def FunctionDecl.subexprs (f : FunctionDecl) : List Expr := f.walk.filterMap TreeNode.expr?

/-- The names that a function refers to, in order of first appearance. -/
def FunctionDecl.references (f : FunctionDecl) : List Name :=
  (f.subexprs.filterMap fun e => match e.form with
    | .ident name => some name
    | _ => none).eraseDups

end ConstraintTyping
