import ConstraintTyping.Solve.Bindings

/-!
# Unification

Unifying two types looks for bindings that make them equal up to qualifiers.  One step settles a
pair, binds a variable, or gives way to the pairs of its constituents.  Those are made equal from
left to right, each read through the bindings found for the ones before it; the pair then hands on
what was found for all of them, also when one of them fails.  The number of steps is limited by a
budget, which the constituents share.

The error type agrees with everything.  Function types are compared by their parameters and result,
and not by their constraints; a variadic function does not insist on the number of parameters.
-/

namespace ConstraintTyping

/-- What was counted when two counts differ. -/
inductive ArityKind where
  | tuple | function | typeArgs
deriving DecidableEq, Repr, Inhabited

/-- The counted thing as it appears in messages. -/
def ArityKind.text : ArityKind → String
  | .tuple => "tuple"
  | .function => "function"
  | .typeArgs => "type argument"

/-- Why two types cannot be made equal; the types are the innermost ones that clash. -/
inductive UnifyError where
  | mismatch (expected found : TypeId)
  | infinite (var containing : TypeId)
  | arity (expected found : Nat) (kind : ArityKind)
  | stepLimit (limit : Nat)
deriving DecidableEq, Repr

/-- The wording of a failure. -/
def UnifyError.message : UnifyError → String
  | .mismatch expected found => s!"type mismatch: expected {expected.text}, found {found.text}"
  | .infinite var containing => s!"infinite type: {var.text} occurs inside {containing.text}"
  | .arity expected found kind =>
    s!"{kind.text} arity mismatch: expected {expected}, found {found}"
  | .stepLimit limit => s!"unification exceeded {limit} steps"

/-- A failure with the bindings found before it. -/
structure UnifyFailure where
  error : UnifyError
  found : Bindings
deriving DecidableEq, Repr

/-- What one step of unification asks for. -/
inductive UnifyStep where
  /-- Bind a variable. -/
  | bind (var ty : TypeId)
  /-- Make these pairs equal instead. -/
  | split (pairs : List (TypeId × TypeId))
deriving DecidableEq, Repr

namespace Store

/-- The pairs of constituents that two types of the same head consist of. -/
def decompose (st : Store) (a b : TypeId) : Except UnifyError (List (TypeId × TypeId)) :=
  let zipArgs (kind : ArityKind) (xs ys : List TypeId) :
      Except UnifyError (List (TypeId × TypeId)) :=
    if xs.length = ys.length then .ok (xs.zip ys) else .error (.arity xs.length ys.length kind)
  match st.shape a, st.shape b with
  | .pointer x, .pointer y => .ok [(x, y)]
  | .array x m, .array y n => if m = n then .ok [(x, y)] else .error (.mismatch a b)
  | .tuple xs, .tuple ys => zipArgs .tuple xs ys
  | .function f, .function g =>
    if f.isMeta ≠ g.isMeta then .error (.mismatch a b)
    else if !(f.isVariadic || g.isVariadic) && f.params.length ≠ g.params.length then
      .error (.arity f.params.length g.params.length .function)
    else .ok (f.params.zip g.params ++ [(f.ret, g.ret)])
  | .product n xs, .product m ys | .sum n xs, .sum m ys =>
    if n = m then zipArgs .typeArgs xs ys else .error (.mismatch a b)
  | .trait n s xs, .trait m t ys =>
    if n = m then (zipArgs .typeArgs xs ys).map ((s, t) :: ·) else .error (.mismatch a b)
  | _, _ => .error (.mismatch a b)

/-- Bind a variable to a type in which it does not occur. -/
def bindStep (st : Store) (var ty : TypeId) : Except UnifyError UnifyStep :=
  if st.occurs var ty then .error (.infinite var ty) else .ok (.bind var ty)

/-- The step that a pair asks for.  Two different types without variables clash at once. -/
def unifyStep (st : Store) (a b : TypeId) : Except UnifyError UnifyStep :=
  let a := st.bare a
  let b := st.bare b
  if a = b || a.isError || b.isError then .ok (.split [])
  else if st.isVar a then st.bindStep a b
  else if st.isVar b then st.bindStep b a
  else if !st.isGeneric a && !st.isGeneric b then .error (.mismatch a b)
  else (st.decompose a b).map .split

end Store

/-- How a unification ends, and the steps that are left of its budget. -/
structure UnifyRun (budget : Nat) where
  result : Except UnifyFailure Bindings
  left : Nat
  left_le : left ≤ budget

/-- The same end under a larger budget. -/
def UnifyRun.widen {budget budget' : Nat} (run : UnifyRun budget) (h : budget ≤ budget') :
    UnifyRun budget' :=
  { run with left_le := Nat.le_trans run.left_le h }

namespace StoreM

mutual

/-- Make two types equal in at most `budget` steps; `limit` is the budget at the start. -/
def unifyOne (limit budget : Nat) (a b : TypeId) : StoreM (UnifyRun budget) :=
  match budget with
  | 0 => return ⟨.error ⟨.stepLimit limit, .empty⟩, 0, Nat.le_refl 0⟩
  | budget + 1 => do
    match (← get).unifyStep a b with
    | .error error => return ⟨.error ⟨error, .empty⟩, budget, Nat.le_succ budget⟩
    | .ok (.bind var ty) => return ⟨.ok (.single var ty), budget, Nat.le_succ budget⟩
    | .ok (.split pairs) =>
      let run ← unifyAll limit budget pairs .empty
      return run.widen (Nat.le_succ budget)
termination_by (budget, 0)

/-- Make pairs of types equal from left to right, in at most `budget` steps together.  Each pair is
read through the bindings found for those before it. -/
def unifyAll (limit budget : Nat) (pairs : List (TypeId × TypeId)) (found : Bindings) :
    StoreM (UnifyRun budget) :=
  match pairs with
  | [] => return ⟨.ok found, budget, Nat.le_refl budget⟩
  | (x, y) :: rest => do
    let x ← found.apply x
    let y ← found.apply y
    let run ← unifyOne limit budget x y
    match run.result with
    | .ok more =>
      let others ← unifyAll limit run.left rest (found.andThen more)
      return others.widen run.left_le
    | .error failure =>
      return ⟨.error ⟨failure.error, found.andThen failure.found⟩, run.left, run.left_le⟩
termination_by (budget, pairs.length + 1)
decreasing_by
  · exact Prod.Lex.right _ (Nat.succ_pos _)
  · exact Prod.Lex.right' _ run.left_le (Nat.lt_succ_self _)

end

/-- Bindings that make all pairs equal, found in at most `budget` steps. -/
def unifyPairs (limit budget : Nat) (pairs : List (TypeId × TypeId)) (found : Bindings) :
    StoreM (Except UnifyFailure Bindings) :=
  return (← unifyAll limit budget pairs found).result

/-- Bindings that make two types equal, found in at most `limit` steps. -/
def unify (limit : Nat) (a b : TypeId) : StoreM (Except UnifyFailure Bindings) :=
  return (← unifyOne limit limit a b).result

end StoreM

end ConstraintTyping
