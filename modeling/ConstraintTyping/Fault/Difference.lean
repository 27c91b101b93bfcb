import ConstraintTyping.Types.Store

/-!
# What is wrong between two types

Comparing an expected type with a found one yields notes that say more than "these differ": numbers
of different families or widths, a pointer one level off, a wrong count, a call of something that is
no function.
-/

namespace ConstraintTyping

/-- A specific difference between two types. -/
inductive TypeProblem where
  /-- An integer against a floating-point number. -/
  | intFloat (expected found : Prim)
  /-- Two different integer types. -/
  | intWidth (expected found : Prim)
  /-- Two different floating-point types. -/
  | floatWidth (expected found : Prim)
  /-- A pointer against its target. -/
  | pointerLevel (foundIsPointer : Bool)
  | tupleArity (expected found : Nat)
  | functionArity (expected found : Nat)
  /-- A function where a value was expected. -/
  | notCallable
deriving DecidableEq, Repr

/-- The note for a difference. -/
def TypeProblem.note : TypeProblem → String
  | .intFloat expected found =>
    s!"`{found.name}` and `{expected.name}` do not mix: integer and float types are never converted implicitly"
  | .intWidth expected found =>
    s!"integer types `{found.name}` and `{expected.name}` differ; there is no implicit widening"
  | .floatWidth expected found =>
    s!"float types `{found.name}` and `{expected.name}` differ; there is no implicit widening"
  | .pointerLevel true =>
    "found a pointer where its target type was expected; dereference it with `@`"
  | .pointerLevel false => "expected a pointer to this value; take its address with `&`"
  | .tupleArity expected found =>
    s!"expected a tuple of {expected} elements, found one of {found}"
  | .functionArity expected found =>
    s!"expected a function of {expected} parameters, found one of {found}"
  | .notCallable => "only functions can be called"

namespace Shape

/-- The difference between two primitives that numbers make. -/
def primProblems (e f : Prim) : List TypeProblem :=
  if (e.isInt && f.isFloat) || (e.isFloat && f.isInt) then [.intFloat e f]
  else if e.isInt && f.isInt then [.intWidth e f]
  else if e.isFloat && f.isFloat then [.floatWidth e f]
  else []

/-- The differences between the heads of two shapes. -/
def headProblems {α : Type} : Shape α → Shape α → List TypeProblem
  | .tuple es, .tuple fs =>
    if es.length = fs.length then [] else [.tupleArity es.length fs.length]
  | .function e, .function f =>
    if e.params.length ≠ f.params.length && !(e.isVariadic || f.isVariadic) then
      [.functionArity e.params.length f.params.length]
    else []
  | .prim .error, .function _ => []
  | .prim _, .function _ | .pointer _, .function _ | .tuple _, .function _ => [.notCallable]
  | _, _ => []

/-- The constituents of two shapes that are worth comparing in their turn. -/
def facingParts {α : Type} : Shape α → Shape α → List (α × α)
  | .pointer e, .pointer f => [(e, f)]
  | .array e _, .array f _ => [(e, f)]
  | .tuple es, .tuple fs => if es.length = fs.length then es.zip fs else []
  | .function e, .function f =>
    if e.params.length ≠ f.params.length && !(e.isVariadic || f.isVariadic) then []
    else e.params.zip f.params ++ [(e.ret, f.ret)]
  | .product n es, .product m fs | .sum n es, .sum m fs =>
    if n = m && es.length = fs.length then es.zip fs else []
  | _, _ => []

theorem fst_mem_of_mem_facingParts {α : Type} {s t : Shape α} {p : α × α}
    (h : p ∈ s.facingParts t) : p.1 ∈ s.children := by
  unfold facingParts at h
  split at h
  · simp_all [children]
  · simp_all [children]
  · split at h
    · exact (List.of_mem_zip (a := p.1) (b := p.2) h).1
    · simp at h
  · split at h
    · simp at h
    · simp only [children, Signature.children, List.cons_append, List.mem_cons, List.mem_append]
      rcases List.mem_append.mp h with h | h
      · exact Or.inr (Or.inl (List.of_mem_zip (a := p.1) (b := p.2) h).1)
      · exact Or.inl (by simp_all)
  · split at h
    · exact (List.of_mem_zip (a := p.1) (b := p.2) h).1
    · simp at h
  · split at h
    · exact (List.of_mem_zip (a := p.1) (b := p.2) h).1
    · simp at h
  · simp at h

end Shape

/-- The specific differences between an expected and a found type, outermost first. -/
def Store.differences (st : Store) (expected found : TypeId) : List TypeProblem :=
  let e := st.bare expected
  let f := st.bare found
  if e = f then []
  else match st.shape e, st.shape f with
    | .prim p, .prim q => Shape.primProblems p q
    | se, sf =>
      if se = .pointer f then [.pointerLevel false]
      else if sf = .pointer e then [.pointerLevel true]
      else
        se.headProblems sf ++ ((st.shape e).facingParts (st.shape f)).attach.flatMap fun ⟨(x, y), h⟩ =>
          have : x < expected := Nat.lt_of_lt_of_le
            (Store.lt_of_mem_children (Shape.fst_mem_of_mem_facingParts h))
            (st.table.bare_le expected)
          st.differences x y
termination_by expected

end ConstraintTyping
