import ConstraintTyping.Proofs.Solve.Nested

/-!
# Unification is sound

Bindings found by unification make the two types compatible, whatever the types and the budget.
-/

namespace ConstraintTyping

namespace StoreM

open Store TypeTree

variable {st : Store} {a b : TypeId} {limit : Nat} {s : Bindings}

/-- What success in a store says about the trees. -/
theorem unify_ok (ha : a < st.size) (hb : b < st.size) (h : (unify limit a b st).1 = .ok s) :
    s.Within (unify limit a b st).2 ∧
      TypeTree.unifyPairs limit limit [(st.tree a, st.tree b)] [] =
        .ok (s.read (unify limit a b st).2) := by
  have hreads := (yields_unify limit ha hb).result
  rw [h] at hreads
  exact ⟨hreads.1, hreads.2.2⟩

/-- The bindings found, applied to both types in turn, read as the bindings found on the trees. -/
theorem unify_apply (ha : a < st.size) (hb : b < st.size) (h : (unify limit a b st).1 = .ok s) :
    let l := s.apply a (unify limit a b st).2
    let r := s.apply b l.2
    ∃ bs, TypeTree.unifyPairs limit limit [(st.tree a, st.tree b)] [] = .ok bs ∧
      (l.1 < r.2.size ∧ r.2.tree l.1 = applyAll bs (st.tree a)) ∧
      (r.1 < r.2.size ∧ r.2.tree r.1 = applyAll bs (st.tree b)) := by
  intro l r
  obtain ⟨hs, hrun⟩ := unify_ok ha hb h
  have hle : st ≤ (unify limit a b st).2 := (yields_unify limit ha hb).steps.le
  obtain ⟨-, hl, hr⟩ := s.apply_both hs (lt_size_of_le hle ha) (lt_size_of_le hle hb)
  rw [tree_of_le hle ha] at hl
  rw [tree_of_le hle hb] at hr
  exact ⟨_, hrun, hl, hr⟩

/-- Whatever the types and the budget, bindings found by unification make the types compatible, and
plain types the same under their qualifiers. -/
theorem unify_compatible (st : Store) (limit : Nat) (a b : TypeId) (ha : a < st.size)
    (hb : b < st.size) (s : Bindings) (h : (unify limit a b st).1 = .ok s) :
    let l := s.apply a (unify limit a b st).2
    let r := s.apply b l.2
    r.2.Compatible l.1 r.1 ∧ (st.Plain a → st.Plain b → r.2.bare l.1 = r.2.bare r.1) := by
  intro l r
  obtain ⟨bs, hrun, ⟨hl, hlread⟩, hr, hrread⟩ := unify_apply ha hb h
  refine ⟨?_, fun hpa hpb => ?_⟩
  · rw [compatible_iff hl hr, hlread, hrread]
    exact (unify_sound hrun).2
  · rw [← tree_eq_iff hl hr, hlread, hrread]
    exact unify_eq_of_plain (plain_iff.mp hpa) (plain_iff.mp hpb) hrun

/-! ## Two pairs that cross -/

/-- The pairs `(v, *v)` and `(bool, w)` over two variables. -/
def crossedPairs : StoreM (TypeId × TypeId) := do
  let v ← namedVar "v"
  let w ← namedVar "w"
  let p ← pointer v
  return (← tuple [v, p], ← tuple [TypeId.bool, w])

theorem yields_crossedPairs (st : Store) :
    crossedPairs.Yields st fun p st' => p.1 < st'.size ∧ p.2 < st'.size ∧
      st'.tree p.1 = TypeTree.tuple [var (.named "v"), .mk (.pointer (var (.named "v")))] ∧
      st'.tree p.2 = TypeTree.tuple [.prim .bool, var (.named "w")] := by
  refine (yields_namedVar "v" st).bind fun v st₁ _ ⟨hv, hvt⟩ => ?_
  refine (yields_namedVar "w" st₁).bind fun w st₂ h₂ ⟨hw, hwt⟩ => ?_
  refine (yields_pointer (lt_size_of_le h₂.le hv)).bind fun p st₃ h₃ ⟨hp, hpt⟩ => ?_
  have h₂₃ : Steps st₁ st₃ := h₂.trans h₃
  refine (yields_tuple (by simp [hp, lt_size_of_le h₂₃.le hv])).bind fun a st₄ h₄ ⟨ha, hat⟩ => ?_
  have h₂₄ : Steps st₂ st₄ := h₃.trans h₄
  refine (yields_tuple (by simp [lt_size_of_prim, lt_size_of_le h₂₄.le hw])).bind
    fun b st₅ h₅ ⟨hb, hbt⟩ => ?_
  refine yields_pure ⟨lt_size_of_le h₅.le ha, hb, ?_, ?_⟩
  · rw [tree_of_le h₅.le ha, hat]
    simp only [List.map_cons, List.map_nil, tree_of_le h₂₃.le hv, hvt, hpt, tree_of_le h₂.le hv]
  · rw [hbt]
    simp only [List.map_cons, List.map_nil, tree_prim, tree_of_le h₂₄.le hw, hwt]

/-- The binding of `v` has been made when the second pair is read. -/
theorem unifyPairs_reaches (limit budget : Nat) (t : TypeTree) :
    TypeTree.unifyPairs limit (budget + 2)
      [(TypeTree.tuple [var (.named "v"), .mk (.pointer (var (.named "v")))],
        TypeTree.tuple [.prim .bool, t])] [] =
      TypeTree.unifyPairs limit budget [(.mk (.pointer (var (.named "v"))), t)]
        [(.named "v", .prim .bool)] := by
  have hgen : Generic (TypeTree.tuple [var (.named "v"), .mk (.pointer (var (.named "v")))]) :=
    ⟨.named "v", by simp [TypeTree.tuple, occurs_mk, Shape.children, Shape.varIdent?]⟩
  have h₁ : move (TypeTree.tuple [var (.named "v"), .mk (.pointer (var (.named "v")))])
      (TypeTree.tuple [.prim .bool, t]) =
      .ok (.split [(var (.named "v"), .prim .bool), (.mk (.pointer (var (.named "v"))), t)]) := by
    simp [move, splitMove, hgen]
    simp [TypeTree.tuple, Shape.varIdent?, Shape.SameHead, Shape.compared, Shape.children]
  have h₂ : move (var (.named "v")) (.prim .bool) = .ok (.bind (.named "v") (.prim .bool)) := by
    simp [move, Shape.varIdent?, bindMove, occurs_mk, Shape.children]
  simp only [TypeTree.unifyPairs, applyAll_nil, h₁, h₂, List.cons_append, List.nil_append]

theorem applyAll_pointer_bound :
    applyAll [(.named "v", .prim .bool)] (.mk (.pointer (var (.named "v")))) =
      .mk (.pointer (.prim .bool)) := by
  rw [applyAll_mk _ rfl, Shape.map, applyAll_cons, applyAll_nil, replace_var_self]

theorem unifyPairs_crossed :
    TypeTree.unifyPairs 4 4 [(TypeTree.tuple [var (.named "v"), .mk (.pointer (var (.named "v")))],
      TypeTree.tuple [.prim .bool, var (.named "w")])] [] =
      .ok [(.named "w", .mk (.pointer (.prim .bool))), (.named "v", .prim .bool)] := by
  have hmove : move (.mk (.pointer (.prim .bool))) (var (.named "w")) =
      .ok (.bind (.named "w") (.mk (.pointer (.prim .bool)))) := by
    simp [move, Shape.varIdent?, bindMove, occurs_mk, Shape.children]
  have hw : applyAll [(.named "v", .prim .bool)] (var (.named "w")) = var (.named "w") :=
    applyAll_eq_self (by simp)
  rw [unifyPairs_reaches, TypeTree.unifyPairs, applyAll_pointer_bound, hw, hmove]
  rfl

theorem unify_crossedPairs (st : Store) :
    ∃ s, (unify 4 (crossedPairs st).1.1 (crossedPairs st).1.2 (crossedPairs st).2).1 = .ok s := by
  obtain ⟨-, ha, hb, hat, hbt⟩ := yields_crossedPairs st
  exact exists_unify_ok ha hb (by rw [hat, hbt]; exact unifyPairs_crossed)

/-! ## A pair that clashes under a binding -/

/-- The pairs `(v, *v)` and `(bool, bool)` over one variable. -/
def clashingPairs : StoreM (TypeId × TypeId) := do
  let v ← namedVar "v"
  let p ← pointer v
  return (← tuple [v, p], ← tuple [TypeId.bool, TypeId.bool])

theorem yields_clashingPairs (st : Store) :
    clashingPairs.Yields st fun p st' => p.1 < st'.size ∧ p.2 < st'.size ∧
      st'.tree p.1 = TypeTree.tuple [var (.named "v"), .mk (.pointer (var (.named "v")))] ∧
      st'.tree p.2 = TypeTree.tuple [.prim .bool, .prim .bool] := by
  refine (yields_namedVar "v" st).bind fun v st₁ _ ⟨hv, hvt⟩ => ?_
  refine (yields_pointer hv).bind fun p st₂ h₂ ⟨hp, hpt⟩ => ?_
  refine (yields_tuple (by simp [hp, lt_size_of_le h₂.le hv])).bind fun a st₃ h₃ ⟨ha, hat⟩ => ?_
  refine (yields_tuple (by simp [lt_size_of_prim])).bind fun b st₄ h₄ ⟨hb, hbt⟩ => ?_
  refine yields_pure ⟨lt_size_of_le h₄.le ha, hb, ?_, ?_⟩
  · rw [tree_of_le h₄.le ha, hat]
    simp only [List.map_cons, List.map_nil, tree_of_le h₂.le hv, hvt, hpt]
  · rw [hbt]
    simp only [List.map_cons, List.map_nil, tree_prim]

/-- The second pair clashes as the binding of `v` makes it. -/
theorem unifyPairs_clashing :
    TypeTree.unifyPairs 4 4 [(TypeTree.tuple [var (.named "v"), .mk (.pointer (var (.named "v")))],
      TypeTree.tuple [.prim .bool, .prim .bool])] [] =
      .error (.mismatch (.mk (.pointer (.prim .bool))) (.prim .bool),
        [(.named "v", .prim .bool)]) := by
  have hmove : move (.mk (.pointer (.prim .bool))) (.prim .bool) =
      .error (.mismatch (.mk (.pointer (.prim .bool))) (.prim .bool)) := by
    simp [move, splitMove, headClash, Shape.varIdent?, Shape.SameHead, Shape.counts?]
  rw [unifyPairs_reaches, TypeTree.unifyPairs, applyAll_pointer_bound, applyAll_prim, hmove]

theorem plain_crossedPairs (st : Store) :
    (crossedPairs st).2.Plain (crossedPairs st).1.1 ∧
      (crossedPairs st).2.Plain (crossedPairs st).1.2 := by
  obtain ⟨-, -, -, hat, hbt⟩ := yields_crossedPairs st
  rw [plain_iff, plain_iff, hat, hbt]
  constructor <;>
    simp [TypeTree.tuple, plain_mk, Shape.IsPlain, Shape.children]

theorem unify_compatible_crossedPairs :
    let (p, st) := crossedPairs .new
    ∃ s, (unify 4 p.1 p.2 st).1 = .ok s ∧
      let l := s.apply p.1 (unify 4 p.1 p.2 st).2
      let r := s.apply p.2 l.2
      r.2.Compatible l.1 r.1 ∧ r.2.bare l.1 = r.2.bare r.1 := by
  obtain ⟨-, ha, hb, -⟩ := yields_crossedPairs .new
  obtain ⟨s, hs⟩ := unify_crossedPairs .new
  obtain ⟨hpa, hpb⟩ := plain_crossedPairs .new
  obtain ⟨hc, heq⟩ := unify_compatible _ 4 _ _ ha hb s hs
  exact ⟨s, hs, hc, heq hpa hpb⟩

end StoreM

end ConstraintTyping
