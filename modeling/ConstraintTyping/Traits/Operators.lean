import ConstraintTyping.Traits.Table

/-!
# The operator traits

Operators on primitive types are typed by traits that every program has:

- `Add`, `Sub`, `Mul`, `Div` and `Mod` for all numbers;
- `Neg` for signed integers and floating-point numbers;
- `Cmp` for numbers and characters;
- `Eq` for numbers, characters, `bool`, `unit` and all pointers.
-/

namespace ConstraintTyping

namespace TraitTable

/-- Integers and floating-point numbers. -/
def numericPrims : List Prim := Prim.all.filter Prim.isNumeric

/-- The operator traits, each with the primitives that implement it. -/
def operatorTraits : List (Name × List Prim) :=
  [("Add", numericPrims), ("Sub", numericPrims), ("Mul", numericPrims), ("Div", numericPrims),
    ("Mod", numericPrims),
    ("Neg", numericPrims.filter fun p => p.isSignedInt || p.isFloat),
    ("Cmp", numericPrims ++ [.c8, .c32]),
    ("Eq", numericPrims ++ [.c8, .c32, .bool, .unit])]

/-- The name of the parameter of every operator trait. -/
def subjectParam : Name := "t"

/-- Every name that the operator traits bring with them. -/
def operatorNames : List Name := subjectParam :: operatorTraits.map (·.1)

/-- Add one operator trait with its implementations. -/
def addOperator (t : TraitTable) (name : Name) (prims : List Prim) : StoreM TraitTable := do
  let t ← match ← t.register name [subjectParam] [] with
    | .ok (_, t) => pure t
    | .error _ => pure t
  prims.foldlM (fun t p => do
    let ty ← StoreM.traitType name (TypeId.ofPrim p) []
    return t.addImpl ty name Span.none) t

/-- A table of the operator traits. -/
def operators : StoreM TraitTable := do
  let t ← operatorTraits.foldlM (fun t (name, prims) => addOperator t name prims) {}
  let pointee ← StoreM.namedVar subjectParam
  let anyPointer ← StoreM.pointer pointee
  let ty ← StoreM.traitType "Eq" anyPointer []
  return t.addImpl ty "Eq" Span.none

end TraitTable

end ConstraintTyping
