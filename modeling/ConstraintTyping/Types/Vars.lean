import ConstraintTyping.Types.Store

/-!
# Variables of a type

Every walk skips the parts of a type in which no variable occurs.
-/

namespace ConstraintTyping

namespace Store

/-- Whether `var` occurs in a type. -/
def occurs (st : Store) (var ty : TypeId) : Bool :=
  if ty = var then true
  else if st.isGeneric ty && !st.isVar ty then
    (st.children ty).attach.any fun ⟨c, h⟩ =>
      have : c < ty := lt_of_mem_children h
      st.occurs var c
  else false
termination_by ty

/-- Add the variables of a type to those already seen, in order of first appearance. -/
def collectVarsFrom (st : Store) (seen : List TypeId) (ty : TypeId) : List TypeId :=
  if st.isGeneric ty then
    if st.isVar ty then
      if seen.contains ty then seen else seen ++ [ty]
    else
      (st.children ty).attach.foldl (fun seen ⟨c, h⟩ =>
        have : c < ty := lt_of_mem_children h
        st.collectVarsFrom seen c) seen
  else seen
termination_by ty

/-- The variables of a type, in order of first appearance. -/
def collectVars (st : Store) (ty : TypeId) : List TypeId := st.collectVarsFrom [] ty

end Store

end ConstraintTyping
