import ConstraintTyping.Proofs.Types.Reading
import ConstraintTyping.Proofs.Types.Uniquing

/-!
# The facts kept with a type

A store keeps a word of facts with every type, gathered once from the facts of its kind and the
words of its constituents when the type is added.  The facts decide where later walks stop, so they
have to be those of the whole type: of the tree to which it unfolds, qualifiers included, which can
be far larger than the store.

`TypeTree.kinds` lists the kinds of all nodes of a tree.  A fact that a type has when its own layer
has it or a constituent does is a fact about that list (`Store.eq_any_kinds`), and the weight of a
type counts in it (`Store.weight_eq_countP`).  The fact that a qualifier occurs in a type is handed
on too, but never comes from a constituent, since constituents are stored without theirs.
-/

namespace ConstraintTyping

namespace Shape

@[simp] theorem kind_map {α β : Type} (f : α → β) (s : Shape α) : (s.map f).kind = s.kind := by
  cases s <;> rfl

theorem isQualified_eq_kind {α : Type} (s : Shape α) :
    s.isQualified = decide (s.kind = .qualified) := by
  cases s <;> rfl

end Shape

namespace TypeTree

/-- The kinds of all nodes of a tree, each node before its constituents. -/
def kinds : TypeTree → List Kind := fold fun s => s.kind :: s.children.flatten

theorem kinds_mk (s : Shape TypeTree) : (mk s).kinds = s.kind :: s.children.flatMap kinds := by
  rw [kinds, fold_mk, Shape.kind_map, Shape.children_map, ← List.flatMap_def]

end TypeTree

namespace Store

variable {st : Store} {ty : TypeId}

/-! ## Unfolding a type -/

/-- The tree of a type with all of its qualifiers. -/
def unfolding (st : Store) (ty : TypeId) : TypeTree :=
  .mk ((st.shape ty).attach.map fun (c : { c // c ∈ (st.shape ty).children }) =>
    have : c.1 < ty := lt_of_mem_children c.2
    st.unfolding c.1)
termination_by ty

theorem unfolding_eq (st : Store) (ty : TypeId) :
    st.unfolding ty = .mk ((st.shape ty).map st.unfolding) := by
  rw [unfolding, Shape.map_attach]

theorem kind_unfolding (st : Store) (ty : TypeId) : (st.unfolding ty).shape.kind = st.kind ty := by
  rw [unfolding_eq, TypeTree.shape_mk, Shape.kind_map]
  rfl

theorem kinds_unfolding (st : Store) (ty : TypeId) : (st.unfolding ty).kinds =
    st.kind ty :: (st.children ty).flatMap fun c => (st.unfolding c).kinds := by
  rw [unfolding_eq, TypeTree.kinds_mk, Shape.kind_map, Shape.children_map, List.flatMap_map]
  rfl

/-! ## What occurs in a type -/

/-- A fact that a type has by its own kind or from a constituent is there exactly when some node of
its unfolding has that kind. -/
theorem eq_any_kinds {fact : TypeId → Bool} {own : Kind → Bool}
    (hfact : ∀ ty < st.size, fact ty = (own (st.kind ty) || (st.children ty).any fact))
    (hty : ty < st.size) : fact ty = (st.unfolding ty).kinds.any own := by
  induction ty using Nat.strongRecOn with
  | ind ty ih =>
    have hchildren : ∀ c ∈ st.children ty, fact c = (st.unfolding c).kinds.any own :=
      fun c hc => ih c (lt_of_mem_children hc) (lt_size_of_mem_children hty hc)
    rw [hfact ty hty, kinds_unfolding, List.any_cons, List.any_flatMap]
    refine congrArg (own (st.kind ty) || ·) (Bool.eq_iff_iff.mpr ?_)
    simp only [List.any_eq_true]
    exact exists_congr fun c => and_congr_right fun hc => by rw [hchildren c hc, List.any_eq_true]

/-- A qualifier that occurs in a type stands on top of it, since constituents are stored without
theirs. -/
theorem qualified_iff_mem_kinds (hty : ty < st.size) :
    st.kind ty = .qualified ↔ .qualified ∈ (st.unfolding ty).kinds := by
  have hown : ∀ ty < st.size, (st.shape ty).isQualified =
      (decide (st.kind ty = .qualified) ||
        (st.children ty).any fun c => (st.shape c).isQualified) := by
    intro ty hty
    rw [kind, ← Shape.isQualified_eq_kind]
    by_cases hq : (st.shape ty).isQualified = true
    · rw [hq, Bool.true_or]
    · have hq : (st.shape ty).isQualified = false := by simpa using hq
      have hchildren : (st.children ty).any (fun c => (st.shape c).isQualified) = false := by
        refine List.any_eq_false.mpr fun c hc => ?_
        rw [← bare_of_mem_children hty hq hc, isQualified_shape_bare]
        exact Bool.false_ne_true
      rw [hchildren, Bool.or_false]
  have hany : decide (st.kind ty = .qualified) =
      (st.unfolding ty).kinds.any fun k => decide (k = .qualified) :=
    (Shape.isQualified_eq_kind _).symm.trans
      (@eq_any_kinds _ _ (fun ty => (st.shape ty).isQualified) _ hown hty)
  refine decide_eq_true_iff.symm.trans ?_
  rw [hany]
  simp

/-! ## Weights -/

/-- Cutting off the summands changes nothing in a sum that is cut off at the same bound. -/
theorem min_add_sum_min (bound n : Nat) (ns : List Nat) :
    min bound (n + (ns.map (min bound)).sum) = min bound (n + ns.sum) := by
  -- the first summand takes in the numbers that were added before
  induction ns generalizing n with
  | nil => rfl
  | cons m ns ih =>
    have hleft := ih (n + min bound m)
    have hright := ih (n + m)
    simp only [List.map_cons, List.sum_cons] at hleft hright ⊢
    omega

/-- Adding weights one by one cuts off the sum at the largest weight. -/
theorem foldl_addWeight {start : Nat} (hstart : start ≤ maxWeight) (ns : List Nat) :
    ns.foldl addWeight start = min maxWeight (start + ns.sum) := by
  induction ns generalizing start with
  | nil => exact (Nat.min_eq_right hstart).symm
  | cons n ns ih =>
    have hle : addWeight start n ≤ maxWeight := Nat.min_le_left _ _
    rw [List.foldl_cons, ih hle, addWeight, List.sum_cons]
    omega

/-- A type without a qualifier on top weighs one more than its constituents. -/
theorem weight_of_not_qualified (hty : ty < st.size) (hq : (st.shape ty).isQualified = false) :
    st.weight ty = min maxWeight (1 + ((st.children ty).map st.weight).sum) := by
  obtain ⟨n, hn⟩ := exists_node hty
  have hchildren : st.children ty = n.shape.children := congrArg Shape.children (shape_of_node hn)
  have hweight : n.weight = (n.shape.layout.children.map st.weight).foldl addWeight 1 := by
    rw [shape_of_node hn] at hq
    refine (congrArg Node.weight (st.table.lawful.node_eq hn)).trans ?_
    cases hs : n.shape with
    | qualified q base => rw [hs] at hq; cases hq
    | _ => rfl
  rw [weight_of_node hn, hweight, Shape.children_layout, hchildren, foldl_addWeight (by decide)]

/-- A qualified type weighs what its base does. -/
theorem weight_of_qualified {q : Qualifier} {base : TypeId} (hty : ty < st.size)
    (hs : st.shape ty = .qualified q base) : st.weight ty = st.weight base := by
  obtain ⟨n, hn⟩ := exists_node hty
  rw [shape_of_node hn] at hs
  have hweight : n.weight = (Node.ofShape st.table.toTypeData n.shape).weight :=
    congrArg Node.weight (st.table.lawful.node_eq hn)
  rw [weight_of_node hn, hweight, hs]
  rfl

/-- The weight of a type is the number of its nodes without a qualifier, up to the largest weight. -/
theorem weight_eq_countP (hty : ty < st.size) : st.weight ty =
    min maxWeight ((st.unfolding ty).kinds.countP (· ≠ .qualified)) := by
  induction ty using Nat.strongRecOn with
  | ind ty ih =>
    rw [kinds_unfolding, List.countP_cons, List.countP_flatMap]
    by_cases hq : (st.shape ty).isQualified = true
    · obtain ⟨q, base, hs⟩ := isQualified_iff.mp hq
      have hkind : st.kind ty = .qualified := congrArg Shape.kind hs
      have hlt := lt_of_qualified hs
      rw [weight_of_qualified hty hs, ih base hlt (Nat.lt_trans hlt hty), hkind,
        show st.children ty = [base] from congrArg Shape.children hs]
      simp
    · have hq : (st.shape ty).isQualified = false := by simpa using hq
      have hkind : st.kind ty ≠ .qualified := fun h => by
        rw [Shape.isQualified_eq_kind, show (st.shape ty).kind = .qualified from h] at hq
        cases hq
      have hchildren : (st.children ty).map st.weight = ((st.children ty).map fun c =>
          (st.unfolding c).kinds.countP (· ≠ .qualified)).map (min maxWeight) := by
        rw [List.map_map]
        exact List.map_congr_left fun c hc =>
          ih c (lt_of_mem_children hc) (lt_size_of_mem_children hty hc)
      -- constituents are cut off at the largest weight too, which the sum over them does not show
      rw [weight_of_not_qualified hty hq, hchildren, min_add_sum_min, Nat.add_comm]
      simp [hkind, Function.comp_def]

end Store

/-! ## The word of facts -/

namespace TypeFact

/-- What a fact says about the tree of a type. -/
def Holds (t : TypeTree) : TypeFact → Prop
  | .hasVar => .var ∈ t.kinds
  | .hasError => .prim .error ∈ t.kinds
  | .hasQualifier | .isQualified => t.shape.kind = .qualified
  | .isPrimitive => t.shape.kind.isPrimitive = true
  | .isFunction => t.shape.kind = .function
  | .isNominal => t.shape.kind.isNominal = true
  | .isVar => t.shape.kind = .var

end TypeFact

namespace Store

variable {st : Store} {ty : TypeId}

/-- What a type is, it is by its own kind: those facts are not handed on. -/
theorem has_flags_of_le_place {f : TypeFact} (hty : ty < st.size) (hf : 3 ≤ f.place) :
    (st.flags ty).has f = (st.kind ty).tells f := by
  rw [Flags.has, getLsbD_flags hty, decide_eq_false (Nat.not_lt.mpr hf), Bool.false_and,
    Bool.or_false]
  exact Shape.has_own _ f

/-- What occurs in a type is what some node of its unfolding tells. -/
theorem has_flags_of_place_lt {f : TypeFact} (hty : ty < st.size) (hf : f.place < 3) :
    (st.flags ty).has f = (st.unfolding ty).kinds.any (·.tells f) := by
  refine @eq_any_kinds _ _ (fun ty => (st.flags ty).has f) _ (fun ty hty => ?_) hty
  rw [Flags.has, getLsbD_flags hty, decide_eq_true hf, Bool.true_and]
  exact congrArg (· || _) (Shape.has_own _ f)

/-- A store keeps a fact with a type exactly when it holds of the type's unfolding. -/
theorem has_flags_iff (hty : ty < st.size) (f : TypeFact) :
    (st.flags ty).has f = true ↔ f.Holds (st.unfolding ty) := by
  cases f with
  | hasVar =>
    rw [has_flags_of_place_lt hty (by decide), TypeFact.Holds]
    simp [Kind.tells]
  | hasError =>
    rw [has_flags_of_place_lt hty (by decide), TypeFact.Holds]
    simp [Kind.tells]
  | hasQualifier =>
    rw [has_flags_of_place_lt hty (by decide), TypeFact.Holds, kind_unfolding,
      qualified_iff_mem_kinds hty]
    simp [Kind.tells]
  | _ =>
    rw [has_flags_of_le_place hty (by decide), TypeFact.Holds, kind_unfolding]
    simp [Kind.tells]

/-- No bit is set but those of the facts. -/
theorem getLsbD_flags_eq_false {bit : Nat} (hty : ty < st.size)
    (h : ∀ f : TypeFact, f.place ≠ bit) : (st.flags ty).getLsbD bit = false := by
  have hbit : ¬ bit < 3 := by
    have h₀ := h .hasVar
    have h₁ := h .hasError
    have h₂ := h .hasQualifier
    simp only [TypeFact.place] at h₀ h₁ h₂
    omega
  rw [getLsbD_flags hty, Shape.getLsbD_own _ h, decide_eq_false hbit]
  rfl

end Store

namespace Operation

open Store

/-- In every store that operations lead to, the facts and the weight kept with a type are those of
the tree to which the type unfolds: each bit of the word of facts is set exactly when its fact holds
of the tree, no other bit is set, a qualifier occurs nowhere but on top, and the weight is the number
of nodes that are no qualifiers, each counted as often as it occurs, up to the largest weight. -/
theorem facts_exact (ops : List Operation) :
    let st := runAll ops .new
    ∀ i < st.size,
      (∀ f : TypeFact, (st.flagBits i).testBit f.place = true ↔ f.Holds (st.unfolding i)) ∧
      (∀ n, (∀ f : TypeFact, f.place ≠ n) → (st.flagBits i).testBit n = false) ∧
      (.qualified ∈ (st.unfolding i).kinds ↔ (st.unfolding i).shape.kind = .qualified) ∧
      st.weight i = min (2 ^ 32 - 1) ((st.unfolding i).kinds.countP (· ≠ .qualified)) := by
  intro st i hi
  refine ⟨fun f => has_flags_iff hi f, fun n hn => getLsbD_flags_eq_false hi hn, ?_,
    weight_eq_countP hi⟩
  rw [kind_unfolding]
  exact (qualified_iff_mem_kinds hi).symm

/-- A pair of two `i32` has weight three, though the store holds `i32` once, and no variable. -/
theorem facts_exact_pair :
    let st := runAll [.construct (.tuple [TypeId.i32, TypeId.i32])] .new
    let pair := (StoreM.tuple [TypeId.i32, TypeId.i32] .new).1
    pair < st.size ∧ st.weight pair = 3 ∧
      (st.flagBits pair).testBit TypeFact.hasVar.place = false := by
  intro st pair
  have hitems : ∀ c ∈ (Shape.tuple [TypeId.i32, TypeId.i32]).children, c < Store.new.size := by
    simp [Shape.children, lt_size_of_prim]
  obtain ⟨hlt, hshape⟩ := StoreM.intern_spec hitems
  have hbare : Store.new.bare TypeId.i32 = TypeId.i32 :=
    bare_of_not_qualified (by rw [show Store.new.shape TypeId.i32 = _ from shape_prim .i32]; rfl)
  have hpair : st.shape pair = .tuple [TypeId.i32, TypeId.i32] := by
    refine hshape.trans ?_
    show Shape.tuple [Store.new.bare TypeId.i32, Store.new.bare TypeId.i32] = _
    rw [hbare]
  have hitem : (st.unfolding TypeId.i32).kinds = [.prim .i32] := by
    rw [unfolding_eq, show st.shape TypeId.i32 = _ from shape_prim .i32]
    exact TypeTree.kinds_mk _
  have hkinds : (st.unfolding pair).kinds = [.tuple, .prim .i32, .prim .i32] := by
    rw [unfolding_eq, hpair, TypeTree.kinds_mk]
    simp [Shape.map, Shape.kind, Shape.children, hitem]
  obtain ⟨hflags, -, -, hweight⟩ :=
    facts_exact [.construct (.tuple [TypeId.i32, TypeId.i32])] pair hlt
  refine ⟨hlt, hweight.trans ?_, ?_⟩
  · rw [hkinds]
    decide
  · rw [Bool.eq_false_iff, Ne, hflags, TypeFact.Holds, hkinds]
    decide

end Operation

end ConstraintTyping
