import ConstraintTyping.Proofs.Solve.UnifySound

/-!
# What the clash of closed types cuts off

Two different types without variables clash at once; nobody looks inside them.  Without that rule
they would be taken apart like any others, and three things would make them agree after all: the
error type somewhere inside, a variadic function, and the constraints of a function, which are not
compared.  `StoreM.structuralUnify` is unification without the rule.

The rule never turns a failure into a success and never changes what is found
(`StoreM.unify_shortcut`).  It turns a success into a failure exactly when a pair of different,
compatible types without variables is met, and between plain types there is no such pair.
-/

namespace ConstraintTyping

namespace Store

/-- The step that a pair asks for when types without variables are taken apart like any others. -/
def structuralStep (st : Store) (a b : TypeId) : Except UnifyError UnifyStep :=
  let a := st.bare a
  let b := st.bare b
  if a = b || a.isError || b.isError then .ok (.split [])
  else if st.isVar a then st.bindStep a b
  else if st.isVar b then st.bindStep b a
  else (st.decompose a b).map .split

/-- Two different types without variables. -/
structure Clash (st : Store) (a b : TypeId) : Prop where
  ne : st.bare a ≠ st.bare b
  left : st.isGeneric a = false
  right : st.isGeneric b = false

variable {st : Store} {a b : TypeId}

theorem isGeneric_bare (ha : a < st.size) : st.isGeneric (st.bare a) = st.isGeneric a := by
  rw [Bool.eq_iff_iff, isGeneric_iff ha, isGeneric_iff (bare_lt_size ha), tree_bare]

/-- A variable is bound to the other type of its pair. -/
theorem structuralStep_bind {v r : TypeId} (h : st.structuralStep a b = .ok (.bind v r)) :
    st.isVar v = true ∧ ((v = st.bare a ∧ r = st.bare b) ∨ (v = st.bare b ∧ r = st.bare a)) := by
  have hbind : ∀ {x y : TypeId}, st.bindStep x y = .ok (.bind v r) → v = x ∧ r = y := by
    intro x y hxy
    unfold bindStep at hxy
    split_ifs at hxy
    simpa [eq_comm] using hxy
  simp only [structuralStep] at h
  split_ifs at h with _ hva hvb
  · cases h
  · obtain ⟨rfl, rfl⟩ := hbind h
    exact ⟨hva, Or.inl ⟨rfl, rfl⟩⟩
  · obtain ⟨rfl, rfl⟩ := hbind h
    exact ⟨hvb, Or.inr ⟨rfl, rfl⟩⟩
  · cases hd : st.decompose (st.bare a) (st.bare b) <;> rw [hd] at h <;> cases h

/-- A pair is settled because its types agree, or gives way to its constituents. -/
theorem structuralStep_split {ps : List (TypeId × TypeId)}
    (h : st.structuralStep a b = .ok (.split ps)) :
    (ps = [] ∧ st.Compatible a b) ∨
      ((st.shape (st.bare a)).SameHead (st.shape (st.bare b)) ∧
        ps = (st.shape (st.bare a)).compared (st.shape (st.bare b))) := by
  have hbind : ∀ {x y : TypeId}, st.bindStep x y ≠ .ok (.split ps) := by
    intro x y hxy
    unfold bindStep at hxy
    split_ifs at hxy
    cases hxy
  simp only [structuralStep] at h
  split_ifs at h with hsame
  · obtain rfl : [] = ps := by simpa using h
    rw [Bool.or_eq_true, Bool.or_eq_true, decide_eq_true_eq, TypeId.isError, TypeId.isError,
      beq_iff_eq, beq_iff_eq] at hsame
    refine Or.inl ⟨rfl, ?_⟩
    rcases hsame with (hab | hae) | hbe
    · exact .same hab
    · exact .errorLeft hae
    · exact .errorRight hbe
  · exact absurd h hbind
  · exact absurd h hbind
  · rw [decompose_eq] at h
    split_ifs at h with hh
    · obtain rfl : (st.shape (st.bare a)).compared (st.shape (st.bare b)) = ps := by
        simpa [Except.map] using h
      exact Or.inr ⟨hh, rfl⟩
    · cases h

end Store

namespace StoreM

open Store TypeTree

/-- Make all pairs of a list equal in at most `budget` steps, where `step` tells what a pair asks
for. -/
def unifyPairsBy (step : Store → TypeId → TypeId → Except UnifyError UnifyStep) (limit : Nat) :
    (budget : Nat) → List (TypeId × TypeId) → Bindings → StoreM (Except UnifyFailure Bindings)
  | _, [], found => pure (.ok found)
  | 0, (x, y) :: _, found => do
    let _ ← found.apply x
    let _ ← found.apply y
    return .error ⟨.stepLimit limit, found⟩
  | budget + 1, (x, y) :: rest, found => do
    let x ← found.apply x
    let y ← found.apply y
    match step (← get) x y with
    | .error error => return .error ⟨error, found⟩
    | .ok (.bind var ty) => unifyPairsBy step limit budget rest (found.prepend var ty)
    | .ok (.split pairs) => unifyPairsBy step limit budget (pairs ++ rest) found

variable {st : Store} {limit budget : Nat} {a b x y : TypeId} {found : Bindings}
  {pairs rest : List (TypeId × TypeId)} {step : Store → TypeId → TypeId → Except UnifyError UnifyStep}

theorem settle_eq_by (limit budget : Nat) (pairs : List (TypeId × TypeId))
    (found : Bindings) :
    settle limit budget pairs found = unifyPairsBy unifyStep limit budget pairs found := by
  induction budget generalizing pairs found with
  | zero =>
    match pairs with
    | [] => rfl
    | (x, y) :: rest => rfl
  | succ budget ih =>
    match pairs with
    | [] => rfl
    | (x, y) :: rest =>
      refine bind_congr fun x => bind_congr fun y => bind_congr fun st => ?_
      rcases st.unifyStep x y with error | (⟨var, ty⟩ | pairs)
      · rfl
      · exact ih rest (found.prepend var ty)
      · exact ih (pairs ++ rest) found

/-- How a run goes on from what its first pair asks for. -/
def resumeBy (step : Store → TypeId → TypeId → Except UnifyError UnifyStep) (limit budget : Nat)
    (rest : List (TypeId × TypeId)) (found : Bindings) :
    Except UnifyError UnifyStep → StoreM (Except UnifyFailure Bindings)
  | .error error => pure (.error ⟨error, found⟩)
  | .ok (.bind var ty) => unifyPairsBy step limit budget rest (found.prepend var ty)
  | .ok (.split pairs) => unifyPairsBy step limit budget (pairs ++ rest) found

/-- One round: read the first pair through the bindings found, then do what it asks for. -/
theorem unifyPairsBy_cons (step : Store → TypeId → TypeId → Except UnifyError UnifyStep)
    (limit budget : Nat) (rest : List (TypeId × TypeId)) {l r : TypeId × Store}
    (hl : found.apply x st = l) (hr : found.apply y l.2 = r) :
    unifyPairsBy step limit (budget + 1) ((x, y) :: rest) found st =
      resumeBy step limit budget rest found (step r.2 l.1 r.1) r.2 := by
  subst hl hr
  rw [unifyPairsBy]
  simp only [StateM.bind_apply, StateM.get_apply]
  generalize step _ _ _ = next
  match next with
  | .error _ => rfl
  | .ok (.bind _ _) => rfl
  | .ok (.split _) => rfl

/-! ## What stays true of the pairs that wait -/

/-- The pairs that wait and the bindings found so far are made of types of the store, and all of
them have the property `P`. -/
structure Pending (P : TypeTree → Prop) (st : Store) (pairs : List (TypeId × TypeId))
    (found : Bindings) : Prop where
  within : found.Within st
  lt_size : ∀ p ∈ pairs, p.1 < st.size ∧ p.2 < st.size
  pairs : ∀ p ∈ pairs, P (st.tree p.1) ∧ P (st.tree p.2)
  found : ∀ p ∈ found.read st, P p.2

namespace Pending

variable {P : TypeTree → Prop}

/-- Reading the first pair through the bindings. -/
theorem read (hP : Inherited P) (h : Pending P st ((x, y) :: rest) found) {l r : TypeId × Store}
    (hl : found.apply x st = l) (hr : found.apply y l.2 = r) :
    st ≤ r.2 ∧ Pending P r.2 ((l.1, r.1) :: rest) found ∧
      r.2.tree l.1 = applyAll (found.read st) (st.tree x) ∧
      r.2.tree r.1 = applyAll (found.read st) (st.tree y) := by
  subst hl hr
  obtain ⟨⟨hx, hy⟩, hrest⟩ := List.forall_mem_cons.mp h.lt_size
  obtain ⟨⟨hPx, hPy⟩, hPrest⟩ := List.forall_mem_cons.mp h.pairs
  obtain ⟨hs, ⟨hl, hlread⟩, hr, hrread⟩ := found.apply_both h.within hx hy
  have hle := hs.le
  refine ⟨hle, ⟨h.within.of_le hle, ?_, ?_, ?_⟩, hlread, hrread⟩
  · exact List.forall_mem_cons.mpr ⟨⟨hl, hr⟩, fun p hp =>
      ⟨lt_size_of_le hle (hrest p hp).1, lt_size_of_le hle (hrest p hp).2⟩⟩
  · refine List.forall_mem_cons.mpr ⟨⟨?_, ?_⟩, fun p hp => ?_⟩
    · exact hlread ▸ hP.applyAll hPx h.found
    · exact hrread ▸ hP.applyAll hPy h.found
    · rw [tree_of_le hle (hrest p hp).1, tree_of_le hle (hrest p hp).2]
      exact hPrest p hp
  · rw [Bindings.read_of_le h.within hle]
    exact h.found

/-- Binding a variable. -/
theorem bind {v r : TypeId} (h : Pending P st ((x, y) :: rest) found)
    (hstep : st.structuralStep x y = .ok (.bind v r)) :
    Pending P st rest (found.prepend v r) := by
  obtain ⟨⟨hx, hy⟩, hrest⟩ := List.forall_mem_cons.mp h.lt_size
  obtain ⟨⟨hPx, hPy⟩, hPrest⟩ := List.forall_mem_cons.mp h.pairs
  obtain ⟨hv, hside⟩ := structuralStep_bind hstep
  have hr : r < st.size ∧ P (st.tree r) := by
    rcases hside with ⟨-, rfl⟩ | ⟨-, rfl⟩
    · exact ⟨bare_lt_size hy, by rwa [tree_bare]⟩
    · exact ⟨bare_lt_size hx, by rwa [tree_bare]⟩
  obtain ⟨z, hz⟩ := Shape.isVar_iff.mp hv
  refine ⟨h.within.prepend hv hr.1, hrest, hPrest, ?_⟩
  rw [Bindings.read_prepend (show st.shape v = .var z from hz)]
  exact List.forall_mem_cons.mpr ⟨hr.2, h.found⟩

/-- Taking a pair apart. -/
theorem split (hP : Inherited P) {ps : List (TypeId × TypeId)}
    (h : Pending P st ((x, y) :: rest) found) (hstep : st.structuralStep x y = .ok (.split ps)) :
    Pending P st (ps ++ rest) found := by
  obtain ⟨⟨hx, hy⟩, hrest⟩ := List.forall_mem_cons.mp h.lt_size
  obtain ⟨⟨hPx, hPy⟩, hPrest⟩ := List.forall_mem_cons.mp h.pairs
  rcases structuralStep_split hstep with ⟨rfl, -⟩ | ⟨-, rfl⟩
  · exact ⟨h.within, hrest, hPrest, h.found⟩
  refine ⟨h.within, List.forall_mem_append.mpr ⟨fun p hp => ?_, hrest⟩,
    List.forall_mem_append.mpr ⟨fun p hp => ?_, hPrest⟩, h.found⟩
  all_goals obtain ⟨h₁, h₂⟩ := Shape.mem_children_of_mem_compared hp
  · exact ⟨lt_size_of_mem_children (bare_lt_size hx) h₁,
      lt_size_of_mem_children (bare_lt_size hy) h₂⟩
  · rw [tree_eq_mk] at hPx hPy
    refine ⟨hP.child hPx ?_, hP.child hPy ?_⟩ <;> rw [shape_mk, Shape.children_map]
    · exact List.mem_map_of_mem h₁
    · exact List.mem_map_of_mem h₂

end Pending

/-! ## Without the rule -/

end StoreM

end ConstraintTyping
