import ConstraintTyping.Types.Build

/-!
# Qualified types

A qualified type is a chain of qualifiers over a type that has none.  A chain never repeats a
qualifier and never holds both `mut` and `const`: of the two, `mut` wins.
-/

namespace ConstraintTyping

/-- The qualifiers on a type, outermost first. -/
def Store.qualifiers (st : Store) (ty : TypeId) : List Qualifier :=
  match h : st.shape ty with
  | .qualified q base =>
    have mem : base ∈ st.children ty := by
      have h : st.table.shape ty = .qualified q base := h
      simp [Store.children, TypeTable.children, h, Shape.children]
    have : base < ty := Store.lt_of_mem_children mem
    q :: st.qualifiers base
  | _ => []
termination_by ty

/-- Whether a qualifier is on a type. -/
def Store.hasQualifier (st : Store) (ty : TypeId) (q : Qualifier) : Bool :=
  (st.qualifiers ty).contains q

namespace StoreM

/-- Put one more qualifier on top. -/
def wrap (q : Qualifier) (base : TypeId) : StoreM TypeId := intern (.qualified q base)

/-- Qualify a type.  A qualifier that is already there adds nothing, nor does `const` under `mut`;
`mut` takes the place of `const`, and the others keep their order. -/
def qualify (q : Qualifier) (base : TypeId) : StoreM TypeId := do
  let st ← get
  let chain := st.qualifiers base
  if chain.contains q then
    return base
  else if q = .constant && chain.contains .mutable then
    return base
  else if q = .mutable && chain.contains .constant then
    let kept := chain.reverse.filter (· ≠ .constant)
    let inner ← kept.foldlM (fun inner k => wrap k inner) (st.bare base)
    wrap .mutable inner
  else
    wrap q base

end StoreM

end ConstraintTyping
