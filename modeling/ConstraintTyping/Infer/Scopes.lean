import ConstraintTyping.Types.Table

/-!
# Scopes

Local names live in nested scopes.  A binding hides those of the same name made before it and those
of enclosing scopes, and ends with its scope.
-/

namespace ConstraintTyping

/-- Nested scopes, innermost first. -/
structure Scopes where
  frames : List (List (Name × TypeId)) := [[]]
deriving Repr, Inhabited

namespace Scopes

/-- Number of nested scopes. -/
def depth (s : Scopes) : Nat := s.frames.length

/-- Open a scope. -/
def enter (s : Scopes) : Scopes := ⟨[] :: s.frames⟩

/-- Close the innermost scope. -/
def exit (s : Scopes) : Scopes := ⟨s.frames.tail⟩

/-- Bind a name in the innermost scope. -/
def bind (s : Scopes) (name : Name) (ty : TypeId) : Scopes :=
  match s.frames with
  | [] => s
  | frame :: outer => ⟨((name, ty) :: frame) :: outer⟩

/-- The type of a name, from the innermost scope that binds it. -/
def lookup? (s : Scopes) (name : Name) : Option TypeId :=
  s.frames.findSome? fun frame => frame.lookup name

end Scopes

end ConstraintTyping
