import ConstraintTyping.Types.Substitute

/-!
# Bindings

A solution is an ordered list of bindings of variables to types, newest first.  Applying it changes
a type by one binding after the other, oldest first, so a later binding also reaches into what an
earlier one put in.
-/

namespace ConstraintTyping

/-- Variables with their replacements, newest first. -/
structure Bindings where
  pairs : List (TypeId × TypeId) := []
deriving DecidableEq, Repr, Inhabited

namespace Bindings

/-- No bindings. -/
def empty : Bindings := {}

/-- One binding. -/
def single (var ty : TypeId) : Bindings := ⟨[(var, ty)]⟩

/-- Whether there are no bindings. -/
def isEmpty (b : Bindings) : Bool := b.pairs.isEmpty

/-- Number of bindings. -/
def size (b : Bindings) : Nat := b.pairs.length

/-- Add one binding newer than all others. -/
def prepend (b : Bindings) (var ty : TypeId) : Bindings := ⟨(var, ty) :: b.pairs⟩

/-- Follow these bindings by newer ones. -/
def andThen (b newer : Bindings) : Bindings := ⟨newer.pairs ++ b.pairs⟩

/-- Replace the variables of a type by every binding, oldest first. -/
def apply (b : Bindings) (ty : TypeId) : StoreM TypeId := do
  if (← get).isGeneric ty then
    b.pairs.reverse.foldlM (fun ty (var, replacement) => StoreM.replaceVar ty var replacement) ty
  else
    return ty

end Bindings

end ConstraintTyping
