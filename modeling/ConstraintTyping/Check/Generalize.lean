import ConstraintTyping.Types.Printer
import ConstraintTyping.Types.Substitute

/-!
# Generalizing a function type

A solved function type takes over the obligations that its body leaves open, and its variables are
renamed `'a`, `'b`, ... in order of appearance.
-/

namespace ConstraintTyping

/-- The retained obligations that a member of a group asks of its callers: those that mention one of
its variables, and those that mention no variable of any member. -/
def Store.givensFor (st : Store) (ty : TypeId) (members retained : List TypeId) : List TypeId :=
  let own := st.collectVars ty
  let shared := members.flatMap st.collectVars
  retained.filter fun obligation =>
    let vars := st.collectVars obligation
    vars.any own.contains || !vars.any shared.contains

namespace StoreM

/-- The names that a list of variables is renamed to. -/
def letterMapping (vars : List TypeId) : StoreM (List (TypeId × TypeId)) :=
  vars.zipIdx.mapM fun (v, i) => return (v, ← namedVar (letterName i))

/-- A function type with further obligations, over variables named by letters. -/
def generalize (ty : TypeId) (obligations : List TypeId) : StoreM TypeId := do
  match (← get).signature? ty with
  | none => return ty
  | some sig =>
    let givens := obligations.foldl
      (fun givens o => if givens.contains o then givens else givens ++ [o]) sig.givens
    let withGivens ← function { sig with givens }
    let mapping ← letterMapping ((← get).collectVars withGivens)
    substituteAll mapping withGivens

end StoreM

end ConstraintTyping
