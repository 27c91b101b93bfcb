import ConstraintTyping.Types.Qualify
import ConstraintTyping.Types.Vars

/-!
# Replacing type variables

Replacing the variables of a type builds new types from the inside out, left to right; a part in
which nothing changes is kept as it is.
-/

namespace ConstraintTyping

namespace StoreM

/-- The type with the same head over new constituents. -/
def rebuild (ty : TypeId) (parts : List TypeId) : StoreM TypeId := do
  match ((← get).shape ty).withChildren? parts with
  | none => return ty
  | some (.qualified q base) => qualify q base
  | some (.tuple items) => tuple items
  | some shape => intern shape

/-- Replace every variable `v` of a type by `f v`. -/
def mapVars (f : TypeId → TypeId) (ty : TypeId) : StoreM TypeId := do
  let st ← get
  if st.isGeneric ty then
    if st.isVar ty then
      return f ty
    else
      let mapped ← (st.children ty).attach.mapM fun ⟨c, h⟩ =>
        have : c < ty := Store.lt_of_mem_children h
        mapVars f c
      if mapped = st.children ty then return ty else rebuild ty mapped
  else
    return ty
termination_by ty

/-- Replace one variable. -/
def replaceVar (ty var replacement : TypeId) : StoreM TypeId :=
  mapVars (fun v => if v = var then replacement else v) ty

/-- Replace several variables at once; of two replacements for one variable the first counts. -/
def substituteAll (mapping : List (TypeId × TypeId)) (ty : TypeId) : StoreM TypeId :=
  if mapping.isEmpty then pure ty
  else mapVars (fun v => (mapping.lookup v).getD v) ty

/-- A copy of a type with new variables in the place of its own. -/
def instantiateFresh (ty : TypeId) : StoreM TypeId := do
  let vars := (← get).collectVars ty
  let mapping ← vars.mapM fun v => return (v, ← freshVar)
  substituteAll mapping ty

end StoreM

end ConstraintTyping
