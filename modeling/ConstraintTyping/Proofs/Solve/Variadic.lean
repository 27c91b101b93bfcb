import ConstraintTyping.Proofs.Solve.Shortcut

/-!
# Variadic functions against functions of a fixed number of parameters

A variadic function and one that is not variadic are compared by their parameters as far as both go
and by their results, whichever of the two has more parameters.  So the parameters that a variadic
function declares beyond those of the other one are never looked at: `StoreM.unify_variadic` says
exactly when the two agree, and `StoreM.unify_undersupplied` is a pair where the variadic
function declares more than the other one supplies.  Only without variables on either side is there
no agreement, because two different types without variables clash at once.
-/

namespace ConstraintTyping

namespace Shape

variable {α : Type} {f g : Signature α}

theorem sameHead_variadic (hf : f.isVariadic = true ∨ g.isVariadic = true) :
    (Shape.function f).SameHead (.function g) ↔ f.isMeta = g.isMeta := by
  simp [SameHead, hf]

theorem counts?_function (h : f.isMeta ≠ g.isMeta) :
    (Shape.function f).counts? (.function g) = none := by
  simp [counts?, h]

end Shape

namespace Store

variable {st : Store} {a b : TypeId} {f g : Signature TypeId}

theorem bare_isError_of_function (hf : st.shape (st.bare a) = .function f) :
    (st.bare a).isError = false := by
  refine Bool.eq_false_iff.mpr fun he => ?_
  rw [eq_of_beq he, shape_prim] at hf
  cases hf

theorem isVar_of_function (hf : st.shape (st.bare a) = .function f) :
    st.isVar (st.bare a) = false := by
  rw [isVar, hf]
  rfl

open Classical in
/-- Of two function types that are not both variadic and not both of a fixed number of parameters,
the parameters and the results are made equal, if one of the types has a variable at all. -/
theorem unifyStep_variadic (ha : a < st.size) (hb : b < st.size)
    (hf : st.shape (st.bare a) = .function f) (hg : st.shape (st.bare b) = .function g)
    (hv : f.isVariadic ≠ g.isVariadic) :
    st.unifyStep a b =
      if f.isMeta = g.isMeta ∧ ((st.tree a).Generic ∨ (st.tree b).Generic) then
        .ok (.split ((Shape.function f).compared (.function g)))
      else .error (.mismatch (st.bare a) (st.bare b)) := by
  have hne : st.bare a ≠ st.bare b := by
    intro h
    rw [h, hg] at hf
    cases hf
    exact hv rfl
  have hdiff : (st.bare a = st.bare b || (st.bare a).isError || (st.bare b).isError) = false := by
    simp [hne, bare_isError_of_function hf, bare_isError_of_function hg]
  have hhead := Shape.sameHead_variadic (f := f) (g := g) (by
    cases hfv : f.isVariadic <;> simp_all)
  simp only [unifyStep, hdiff, isVar_of_function hf, isVar_of_function hg, isGeneric_bare ha,
    isGeneric_bare hb, Bool.false_eq_true, if_false]
  by_cases hgen : (st.tree a).Generic ∨ (st.tree b).Generic
  · rw [if_neg (by simpa [← isGeneric_iff ha, ← isGeneric_iff hb, or_iff_not_imp_left] using hgen),
      decompose_eq, hf, hg]
    by_cases hm : f.isMeta = g.isMeta
    · rw [if_pos (hhead.mpr hm), if_pos ⟨hm, hgen⟩]
      rfl
    · rw [if_neg (mt hhead.mp hm), if_neg fun h => hm h.1, Shape.counts?_function hm]
      rfl
  · rw [if_pos (by simpa [← isGeneric_iff ha, ← isGeneric_iff hb] using hgen),
      if_neg fun h => hgen h.2]

end Store

namespace StoreM

open Store

variable {st : Store} {a b : TypeId} {f g : Signature TypeId}

/-- A variadic function and one that is not variadic agree, in this order, exactly if one of them
has a variable and their parameters, as far as both go, and their results can be made equal. -/
theorem unify_ok_iff_compared (limit : Nat) (ha : a < st.size) (hb : b < st.size)
    (hf : st.shape (st.bare a) = .function f) (hg : st.shape (st.bare b) = .function g)
    (hv : f.isVariadic ≠ g.isVariadic) :
    (∃ s, (unify limit a b st).1 = .ok s) ↔
      f.isMeta = g.isMeta ∧ ((st.tree a).Generic ∨ (st.tree b).Generic) ∧ 0 < limit ∧
        ∃ s, (unifyPairs limit (limit - 1) (f.params.zip g.params ++ [(f.ret, g.ret)])
          .empty st).1 = .ok s := by
  have hempty : ∀ ty, Bindings.empty.apply ty st = (ty, st) := fun ty =>
    Bindings.apply_eq_self (by simp [Bindings.empty])
  have hcompared : ∀ p ∈ f.params.zip g.params ++ [(f.ret, g.ret)],
      p.1 < st.size ∧ p.2 < st.size := by
    intro p hp
    obtain ⟨hl, hr⟩ := Shape.mem_children_of_mem_compared
      (show p ∈ (Shape.function f).compared (.function g) from hp)
    rw [← hf] at hl
    rw [← hg] at hr
    exact ⟨lt_size_of_mem_children (bare_lt_size ha) hl,
      lt_size_of_mem_children (bare_lt_size hb) hr⟩
  rw [unify_eq_settle limit ha hb, unifyPairs_eq_settle limit (limit - 1) hcompared]
  cases limit with
  | zero => simp [settle_eq_by, unifyPairsBy]
  | succ limit =>
    rw [settle_eq_by, unifyPairsBy_cons _ _ _ _ (hempty a) (hempty b),
      unifyStep_variadic ha hb hf hg hv, Nat.add_sub_cancel]
    by_cases h : f.isMeta = g.isMeta ∧ ((st.tree a).Generic ∨ (st.tree b).Generic)
    · rw [if_pos h, resumeBy, List.append_nil, ← settle_eq_by]
      simp [h, Shape.compared]
    · rw [if_neg h]
      simpa [resumeBy] using fun hm hgen => absurd ⟨hm, hgen⟩ h

/-- When a variadic function and one of a fixed number of parameters agree.  One of them must have a
variable, since two different types without variables clash; and the parameters as far as both go
and the results must be made equal in one step less.  Neither order of the two and neither number of
parameters makes a difference. -/
theorem unify_variadic (st : Store) (limit : Nat) (a b : TypeId) (f g : Signature TypeId)
    (ha : a < st.size) (hb : b < st.size) (hf : st.shape (st.bare a) = .function f)
    (hg : st.shape (st.bare b) = .function g) (hvariadic : f.isVariadic = true)
    (hfixed : g.isVariadic = false) :
    let comparable := f.isMeta = g.isMeta ∧ ((st.tree a).Generic ∨ (st.tree b).Generic) ∧ 0 < limit
    ((∃ s, (unify limit a b st).1 = .ok s) ↔ comparable ∧
      ∃ s, (unifyPairs limit (limit - 1) (f.params.zip g.params ++ [(f.ret, g.ret)])
        .empty st).1 = .ok s) ∧
    ((∃ s, (unify limit b a st).1 = .ok s) ↔ comparable ∧
      ∃ s, (unifyPairs limit (limit - 1) (g.params.zip f.params ++ [(g.ret, f.ret)])
        .empty st).1 = .ok s) := by
  intro comparable
  have hne : f.isVariadic ≠ g.isVariadic := by simp [hvariadic, hfixed]
  refine ⟨?_, ?_⟩
  · rw [unify_ok_iff_compared limit ha hb hf hg hne]
    simp only [comparable, and_assoc]
  · rw [unify_ok_iff_compared limit hb ha hg hf hne.symm]
    simp only [comparable, and_assoc, or_comm, eq_comm]

/-! ## A function that is given too little -/

/-- A variadic function that declares a variable and an integer, and a function of one integer. -/
def undersuppliedPair : StoreM (TypeId × TypeId) := do
  let t ← namedVar "t"
  return (← function { ret := TypeId.unit, params := [t, TypeId.i32], isVariadic := true },
    ← function { ret := TypeId.unit, params := [TypeId.i32] })

/-- What the pair consists of. -/
structure Undersupplied (st : Store) (a b t : TypeId) : Prop where
  left_lt : a < st.size
  right_lt : b < st.size
  variable_lt : t < st.size
  left : st.shape a =
    .function { ret := TypeId.unit, params := [t, TypeId.i32], isVariadic := true }
  right : st.shape b = .function { ret := TypeId.unit, params := [TypeId.i32] }
  var : st.shape t = .var (.named "t")

theorem yields_undersuppliedPair (st : Store) :
    undersuppliedPair.Yields st fun p st' => ∃ t, Undersupplied st' p.1 p.2 t := by
  have hprim : ∀ (st : Store) (p : Prim), st.bare (TypeId.ofPrim p) = TypeId.ofPrim p :=
    fun st p => bare_of_not_qualified (by rw [shape_prim]; rfl)
  refine (yields_intern (s := .var (.named "t")) rfl (by simp [Shape.children])).bind
    fun t st₁ _ ⟨ht, htv⟩ => ?_
  have hbare : st₁.bare t = t := bare_of_not_qualified (by rw [htv]; rfl)
  refine (yields_intern rfl (by simp [Shape.children, Signature.children, ht,
    lt_size_of_prim])).bind fun a st₂ h₂ ⟨ha, hat⟩ => ?_
  refine (yields_intern rfl (by simp [Shape.children, Signature.children,
    lt_size_of_prim])).bind fun b st₃ h₃ ⟨hb, hbt⟩ => ?_
  have hle : st₁ ≤ st₃ := h₂.le.trans h₃.le
  refine yields_pure ⟨t, lt_size_of_le h₃.le ha, hb, lt_size_of_le hle ht, ?_, ?_, ?_⟩
  · rw [shape_of_le h₃.le ha, hat]
    simp [Shape.map, Signature.map, hprim, hbare]
  · rw [hbt]
    simp [Shape.map, Signature.map, hprim]
  · rw [shape_of_le hle ht, htv]
    rfl

namespace Undersupplied

variable {t : TypeId}

theorem shape_bare_left (h : Undersupplied st a b t) : st.shape (st.bare a) =
    .function { ret := TypeId.unit, params := [t, TypeId.i32], isVariadic := true } := by
  rw [bare_of_not_qualified (by rw [h.left]; rfl), h.left]

theorem shape_bare_right (h : Undersupplied st a b t) : st.shape (st.bare b) =
    .function { ret := TypeId.unit, params := [TypeId.i32] } := by
  rw [bare_of_not_qualified (by rw [h.right]; rfl), h.right]

theorem generic_left (h : Undersupplied st a b t) : (st.tree a).Generic := by
  rw [tree_of_not_qualified (by rw [h.left]; rfl), h.left]
  refine ⟨.named "t", TypeTree.occurs_mk.mpr (Or.inr ⟨st.tree t, ?_, ?_⟩)⟩
  · simp [Shape.map, Signature.map, Shape.children, Signature.children]
  · rw [tree_of_var h.var]
    simp

/-- The declared variable is bound to the one argument and the results agree. -/
theorem compared_ok (h : Undersupplied st a b t) (limit : Nat) :
    ∃ s, (unifyPairs (limit + 3) (limit + 2) [(t, TypeId.i32), (TypeId.unit, TypeId.unit)]
      .empty st).1 = .ok s := by
  have hpairs : ∀ p ∈ [(t, TypeId.i32), (TypeId.unit, TypeId.unit)],
      p.1 < st.size ∧ p.2 < st.size := by
    simp [h.variable_lt, lt_size_of_prim]
  rw [unifyPairs_eq_settle _ _ hpairs]
  refine (yields_settle _ hpairs (Bindings.within_empty st)
    (by simp [Bindings.empty])).result.exists_ok_iff.mpr ⟨[(.named "t", .prim .i32)], ?_⟩
  have hbind : TypeTree.move (.var (.named "t")) (.prim .i32) =
      .ok (.bind (.named "t") (.prim .i32)) := by
    simp [TypeTree.move, Shape.varIdent?, TypeTree.bindMove, TypeTree.occurs_mk, Shape.children]
  have hsame : TypeTree.move (.prim .unit) (.prim .unit) = .ok (.split []) := by
    simp [TypeTree.move]
  simp only [List.map_cons, List.map_nil, Prod.map, tree_of_var h.var, tree_prim,
    Bindings.read_empty, TypeTree.unifyPairs, TypeTree.applyAll_nil, hbind,
    TypeTree.applyAll_prim, hsame, List.append_nil]

end Undersupplied

/-- The pair meets every condition of agreement, so it agrees. -/
theorem unify_variadic_undersuppliedPair :
    let (p, st) := undersuppliedPair .new
    ∃ f g : Signature TypeId, p.1 < st.size ∧ p.2 < st.size ∧
      st.shape (st.bare p.1) = .function f ∧ st.shape (st.bare p.2) = .function g ∧
      f.isVariadic = true ∧ g.isVariadic = false ∧ ∃ s, (unify 10000 p.1 p.2 st).1 = .ok s := by
  obtain ⟨-, t, h⟩ := yields_undersuppliedPair .new
  have hf := h.shape_bare_left
  have hg := h.shape_bare_right
  exact ⟨_, _, h.left_lt, h.right_lt, hf, hg, rfl, rfl,
    (unify_variadic _ 10000 _ _ _ _ h.left_lt h.right_lt hf hg rfl rfl).1.mpr
      ⟨⟨rfl, Or.inl h.generic_left, by decide⟩, h.compared_ok 9997⟩⟩

/-- A variadic function can agree with a function that has fewer parameters than it declares. -/
theorem unify_undersupplied :
    let (p, st) := undersuppliedPair .new
    st.Reachable ∧ p.1 < st.size ∧ p.2 < st.size ∧
      ∃ f g : Signature TypeId, st.shape p.1 = .function f ∧ st.shape p.2 = .function g ∧
        f.isVariadic = true ∧ g.isVariadic = false ∧ g.params.length < f.params.length ∧
        ∃ s, (unify 10000 p.1 p.2 st).1 = .ok s := by
  obtain ⟨hsteps, t, h⟩ := yields_undersuppliedPair .new
  have hok := (unify_ok_iff_compared 10000 h.left_lt h.right_lt h.shape_bare_left
    h.shape_bare_right (by simp)).mpr ⟨rfl, Or.inl h.generic_left, by decide, h.compared_ok 9997⟩
  exact ⟨hsteps, h.left_lt, h.right_lt, _, _, h.left, h.right, rfl, rfl, by simp, hok⟩

end StoreM

end ConstraintTyping
