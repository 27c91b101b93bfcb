import ConstraintTyping.Tree.Walk

/-!
# Groups of mutually recursive functions

A function refers to another when its body names it.  Two functions belong to one group when each
reaches the other; a group comes after every group that it refers to.

The groups are read off one depth-first search.  Vertices are numbered as they are entered and wait
on a stack.  A vertex links back to the least number, of a vertex that still waits, to which an edge
leads from what was searched below it.  One that links back no further than to itself closes a
group: its members are what waits since it was entered.
-/

namespace ConstraintTyping

/-- A graph on the numbers below `size`. -/
structure CallGraph where
  size : Nat
  callees : Nat → List Nat

namespace CallGraph

/-- How far a search has come. -/
structure Search where
  /-- The vertices in the order in which they were entered. -/
  entered : List Nat := []
  /-- Vertices that have no group yet, the last one first. -/
  stack : List Nat := []
  /-- Complete groups in the order of their completion, each ascending. -/
  groups : List (List Nat) := []
deriving Repr, Inhabited

namespace Search

/-- The number of a vertex: how many were entered before it. -/
def number? (s : Search) (v : Nat) : Option Nat := s.entered.idxOf? v

/-- Enter a vertex. -/
def enter (s : Search) (v : Nat) : Search :=
  { s with entered := s.entered ++ [v], stack := v :: s.stack }

/-- Close the group of the vertices that wait since `v` was entered. -/
def close (s : Search) (v : Nat) : Search :=
  let group := v :: s.stack.takeWhile (· ≠ v)
  { s with
    stack := (s.stack.dropWhile (· ≠ v)).tail
    groups := s.groups ++ [group.mergeSort (· ≤ ·)] }

/-- Follow an edge to `w`, given the least number linked back to so far.  A vertex that was not
entered is searched by `connect`; one that has its group does not count. -/
def follow (connect : Search → Nat → Nat × Search) : Nat × Search → Nat → Nat × Search
  | (low, s), w =>
    match s.number? w with
    | none =>
      let (reached, s) := connect s w
      (min low reached, s)
    | some number => (if s.stack.contains w then min low number else low, s)

end Search

/-- Search from a vertex that was not entered, no more than `depth` vertices deep; also the least
number that it links back to. -/
def connect (g : CallGraph) : (depth : Nat) → Search → Nat → Nat × Search
  | 0, s, _ => (s.entered.length, s)
  | depth + 1, s, v =>
    let number := s.entered.length
    let (low, s) := (g.callees v).foldl (Search.follow (g.connect depth)) (number, s.enter v)
    (low, if low = number then s.close v else s)

/-- Search from a vertex unless it was entered. -/
def visit (g : CallGraph) (s : Search) (v : Nat) : Search :=
  if (s.number? v).isSome then s else (g.connect g.size s v).2

/-- The groups of mutually reachable vertices, each in ascending order and after the groups that it
reaches. -/
def groups (g : CallGraph) (vertices : List Nat) : List (List Nat) :=
  (vertices.foldl g.visit {}).groups

end CallGraph

namespace Module

/-- The position of the first function of each name. -/
def firstIndex? (m : Module) (name : Name) : Option Nat :=
  m.functions.findIdx? (·.name = name)

/-- The position of the function of a name, if the first of that name has a body. -/
def bodyIndex? (m : Module) (name : Name) : Option Nat :=
  (m.firstIndex? name).filter fun i => m.functions[i]?.any (·.body.isSome)

/-- Positions of the functions whose bodies are checked: the first of each name, with a body. -/
def bodyIndices (m : Module) : List Nat :=
  (m.functions.zipIdx.filter fun (f, i) => m.bodyIndex? f.name = some i).map (·.2)

/-- The graph of references between checked bodies. -/
def callGraph (m : Module) : CallGraph :=
  let callees := (m.functions.map fun f => f.references.filterMap m.bodyIndex?).toArray
  { size := m.functions.length, callees := fun i => callees.getD i [] }

/-- Functions with bodies, grouped by mutual recursion, callees before callers. -/
def bodyGroups (m : Module) : List (List Nat) := m.callGraph.groups m.bodyIndices

end Module

end ConstraintTyping
