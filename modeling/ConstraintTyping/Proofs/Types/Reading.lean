import ConstraintTyping.Proofs.Types.Growth
import ConstraintTyping.Proofs.Types.Tree

/-!
# Reading a store as trees

`Store.tree` unfolds a type of a store into the tree of its layers, without its qualifiers.  Sharing
is lossless: two types of a store have the same tree exactly when they are the same type under their
qualifiers.  Growth of the store does not change how a type reads, and the facts that a store keeps
with its types (is there a variable, does a certain one occur) are facts about the trees.
-/

namespace ConstraintTyping

/-! ## The facts of a type's own layer -/

/-- The facts that types of a kind have of themselves. -/
def Kind.tells (k : Kind) : TypeFact → Bool
  | .hasVar | .isVar => k = .var
  | .hasError => k = .prim .error
  | .hasQualifier | .isQualified => k = .qualified
  | .isPrimitive => k.isPrimitive
  | .isFunction => k = .function
  | .isNominal => k.isNominal

namespace Shape

theorem isVar_eq_tells {α : Type} (s : Shape α) : s.isVar = s.kind.tells .hasVar := by
  cases s <;> rfl

theorem isError_eq_tells {α : Type} (s : Shape α) : s.isError = s.kind.tells .hasError := by
  cases s with
  | prim p => cases p <;> rfl
  | _ => rfl

/-- Every constructor starts with the facts of its kind. -/
theorem has_own (s : Shape TypeId) (f : TypeFact) : s.layout.own.has f = s.kind.tells f := by
  cases s with
  | prim p => cases p <;> cases f <;> rfl
  | _ =>
    simp only [layout, kind, Flags.has_zero, Flags.has_or, Flags.has_flag]
    cases f <;> rfl

/-- No other bit is set at the start. -/
theorem getLsbD_own {bit : Nat} (s : Shape TypeId) (h : ∀ f : TypeFact, f.place ≠ bit) :
    s.layout.own.getLsbD bit = false := by
  have hflag (f : TypeFact) : f.flag.getLsbD bit = false := by simp [Flags.getLsbD_flag, h f]
  cases s with
  | prim p =>
    rw [layout]
    split <;> simp [hflag]
  | _ => simp [layout, hflag]

end Shape

namespace Store

/-- The tree of a type under its qualifiers. -/
def tree (st : Store) (ty : TypeId) : TypeTree :=
  match h : st.shape ty with
  | .qualified _ base =>
    have : base < ty := lt_of_qualified h
    st.tree base
  | s => .mk (s.attach.map fun (c : { c // c ∈ s.children }) =>
      have hmem : c.1 ∈ st.children ty := by
        show c.1 ∈ (st.shape ty).children
        rw [h]; exact c.2
      have : c.1 < ty := lt_of_mem_children hmem
      st.tree c.1)
termination_by ty

variable {st st' : Store} {ty a b : TypeId}

theorem tree_of_qualified {q : Qualifier} {base : TypeId} (h : st.shape ty = .qualified q base) :
    st.tree ty = st.tree base := by
  rw [tree]
  split
  · next q' base' h' =>
    rw [h] at h'
    obtain ⟨-, rfl⟩ := Shape.qualified.inj h'
    rfl
  · next hne => exact absurd h (hne q base)

theorem tree_of_not_qualified (h : (st.shape ty).isQualified = false) :
    st.tree ty = .mk ((st.shape ty).map st.tree) := by
  rw [tree]
  split
  · next q base h' => simp [h', Shape.isQualified] at h
  · rw [Shape.map_attach]

@[simp] theorem tree_bare (st : Store) (ty : TypeId) : st.tree (st.bare ty) = st.tree ty := by
  induction ty using Nat.strongRecOn with
  | ind ty ih =>
    by_cases hq : (st.shape ty).isQualified = true
    · obtain ⟨q, base, hs⟩ := isQualified_iff.mp hq
      rw [bare_of_qualified hs, tree_of_qualified hs]
      exact ih base (lt_of_qualified hs)
    · rw [bare_of_not_qualified (by simpa using hq)]

theorem tree_eq_mk (st : Store) (ty : TypeId) :
    st.tree ty = .mk ((st.shape (st.bare ty)).map st.tree) := by
  rw [← tree_bare, tree_of_not_qualified (isQualified_shape_bare st ty)]

theorem shape_tree (st : Store) (ty : TypeId) :
    (st.tree ty).shape = (st.shape (st.bare ty)).map st.tree := by
  rw [tree_eq_mk, TypeTree.shape_mk]

@[simp] theorem tree_prim (st : Store) (p : Prim) : st.tree (TypeId.ofPrim p) = .prim p := by
  have hs : st.shape (TypeId.ofPrim p) = .prim p := shape_prim p
  rw [tree_of_not_qualified (by rw [hs]; rfl), hs]
  rfl

theorem shape_of_signature? {sig : Signature TypeId} (h : st.signature? ty = some sig) :
    st.shape ty = .function sig := by
  unfold signature? Shape.signature? at h
  split at h
  · next sig' heq => rw [heq, Option.some.inj h]
  · cases h

/-- A function type is a type of its store and carries no qualifiers. -/
theorem unqualified_of_signature? {sig : Signature TypeId} (h : st.signature? ty = some sig) :
    ty < st.size ∧ st.isVar ty = false ∧ (st.shape ty).isQualified = false := by
  have hshape := shape_of_signature? h
  exact ⟨lt_size_of_shape_ne (by rw [hshape]; exact nofun), by rw [isVar, hshape]; rfl,
    by rw [hshape]; rfl⟩

/-- A trait type is a type of its store and carries no qualifiers. -/
theorem unqualified_of_trait (h : st.kind ty = .trait) :
    ty < st.size ∧ (st.shape ty).isQualified = false := by
  unfold kind at h
  refine ⟨lt_size_of_shape_ne fun hs => ?_, ?_⟩
  · rw [hs] at h
    cases h
  · cases hs : st.shape ty <;> rw [hs] at h <;> first | rfl | cases h

theorem tree_of_var {x : VarIdent} (h : st.shape ty = .var x) : st.tree ty = .var x := by
  rw [tree_of_not_qualified (by rw [h]; rfl), h]
  rfl

/-- The tree of a type has no qualifiers. -/
theorem unqualified_tree (st : Store) (ty : TypeId) : (st.tree ty).Unqualified := by
  induction ty using Nat.strongRecOn with
  | ind ty ih =>
    by_cases hq : (st.shape ty).isQualified = true
    · obtain ⟨q, base, hs⟩ := isQualified_iff.mp hq
      rw [tree_of_qualified hs]
      exact ih base (lt_of_qualified hs)
    · rw [tree_of_not_qualified (by simpa using hq)]
      refine TypeTree.everywhere_mk.mpr ⟨by simpa using hq, ?_⟩
      rw [Shape.children_map]
      exact List.forall_mem_map.mpr fun c hc => ih c (lt_of_mem_children hc)

/-- Growth does not change how a type reads. -/
theorem tree_of_le (h : st ≤ st') (hty : ty < st.size) : st'.tree ty = st.tree ty := by
  induction ty using Nat.strongRecOn with
  | ind ty ih =>
    have hshape := shape_of_le h hty
    by_cases hq : (st.shape ty).isQualified = true
    · obtain ⟨q, base, hs⟩ := isQualified_iff.mp hq
      have hlt := lt_of_qualified hs
      rw [tree_of_qualified hs, tree_of_qualified (hshape.trans hs)]
      exact ih base hlt (Nat.lt_trans hlt hty)
    · have hq : (st.shape ty).isQualified = false := by simpa using hq
      rw [tree_of_not_qualified hq, tree_of_not_qualified (by rw [hshape, hq]), hshape]
      refine congrArg TypeTree.mk (Shape.map_congr fun c hc => ?_)
      exact ih c (lt_of_mem_children hc) (lt_size_of_mem_children hty hc)

theorem map_tree_of_le {tys : List TypeId} (h : st ≤ st') (htys : ∀ ty ∈ tys, ty < st.size) :
    tys.map st'.tree = tys.map st.tree :=
  List.map_congr_left fun ty hty => tree_of_le h (htys ty hty)

/-! ## Sharing is lossless -/

/-- Types without qualifiers that read alike are one type. -/
theorem eq_of_tree_eq (ha : a < st.size) (hb : b < st.size) (hqa : st.bare a = a)
    (hqb : st.bare b = b) (h : st.tree a = st.tree b) : a = b := by
  induction a using Nat.strongRecOn generalizing b with
  | ind a ih =>
    have hsa : (st.shape a).isQualified = false := by
      have := isQualified_shape_bare st a
      rwa [hqa] at this
    have hsb : (st.shape b).isQualified = false := by
      have := isQualified_shape_bare st b
      rwa [hqb] at this
    rw [tree_of_not_qualified hsa, tree_of_not_qualified hsb] at h
    have hmap := TypeTree.mk.inj h
    have hchildren : st.children a = st.children b := by
      have htrees := congrArg Shape.children hmap
      rw [Shape.children_map, Shape.children_map] at htrees
      -- constituents of both are smaller, stored without qualifiers, and read alike
      have key : ∀ (xs ys : List TypeId), (∀ c ∈ xs, c ∈ st.children a) →
          (∀ c ∈ ys, c ∈ st.children b) → xs.map st.tree = ys.map st.tree → xs = ys := by
        intro xs
        induction xs with
        | nil => intro ys _ _ hys; simpa using hys.symm
        | cons x xs ihxs =>
          intro ys hxs hys heq
          cases ys with
          | nil => simp at heq
          | cons y ys =>
            simp only [List.map_cons, List.cons.injEq] at heq
            have hx := hxs x List.mem_cons_self
            have hy := hys y List.mem_cons_self
            have hxy : x = y :=
              ih x (lt_of_mem_children hx) (lt_size_of_mem_children ha hx)
                (lt_size_of_mem_children hb hy) (bare_of_mem_children ha hsa hx)
                (bare_of_mem_children hb hsb hy) heq.1
            rw [hxy, ihxs ys (fun c hc => hxs c (List.mem_cons_of_mem _ hc))
              (fun c hc => hys c (List.mem_cons_of_mem _ hc)) heq.2]
      exact key _ _ (fun _ h => h) (fun _ h => h) htrees
    exact eq_of_shape_eq ha hb (Shape.eq_of_map_eq hmap hchildren)

/-- Two types of a store read alike exactly when they are the same type under their qualifiers. -/
theorem tree_eq_iff (ha : a < st.size) (hb : b < st.size) :
    st.tree a = st.tree b ↔ st.bare a = st.bare b := by
  constructor
  · intro h
    exact eq_of_tree_eq (bare_lt_size ha) (bare_lt_size hb) (bare_bare st a) (bare_bare st b)
      (by rw [tree_bare, tree_bare, h])
  · intro h
    rw [← tree_bare, h, tree_bare]

theorem bare_isError_iff (ha : a < st.size) :
    (st.bare a).isError = true ↔ st.tree a = .error := by
  have hbare : st.bare TypeId.error = TypeId.error :=
    bare_of_not_qualified (by
      have hs : st.shape TypeId.error = .prim .error := shape_prim .error
      rw [hs]; rfl)
  rw [TypeId.isError, beq_iff_eq, show TypeTree.error = st.tree TypeId.error from
    (tree_prim st .error).symm, tree_eq_iff ha (lt_size_of_prim .error), hbare]

theorem isVar_bare (st : Store) (ty : TypeId) :
    st.isVar (st.bare ty) = (st.tree ty).shape.isVar := by
  rw [shape_tree, Shape.isVar_map]
  rfl

/-! ## Variables of a type -/

/-- A bit kept with a type is one of its own layer, or is handed on by a constituent. -/
theorem getLsbD_flags (hty : ty < st.size) (bit : Nat) : (st.flags ty).getLsbD bit =
    ((st.shape ty).layout.own.getLsbD bit ||
      decide (bit < 3) && (st.children ty).any fun c => (st.flags c).getLsbD bit) := by
  obtain ⟨n, hn⟩ := exists_node hty
  have hflags : n.flags = Flags.gather n.shape.layout.own (n.shape.children.map st.flags) := by
    rw [← Shape.children_layout]
    exact congrArg Node.flags (st.table.lawful.node_eq hn)
  have hchildren : st.children ty = n.shape.children := congrArg Shape.children (shape_of_node hn)
  rw [hchildren, shape_of_node hn, flags_of_node hn, hflags, Flags.getLsbD_gather, List.any_map]
  rfl

/-- The fact kept with a type whether a variable occurs in it, in terms of its constituents. -/
theorem isGeneric_eq (hty : ty < st.size) :
    st.isGeneric ty = ((st.shape ty).isVar || (st.children ty).any st.isGeneric) := by
  rw [Shape.isVar_eq_tells, ← Shape.has_own]
  exact getLsbD_flags hty TypeFact.hasVar.place

/-- The fact kept with a type whether the error type occurs in it, in terms of its constituents. -/
theorem hasError_eq (hty : ty < st.size) :
    st.hasError ty = ((st.shape ty).isError || (st.children ty).any st.hasError) := by
  rw [Shape.isError_eq_tells, ← Shape.has_own]
  exact getLsbD_flags hty TypeFact.hasError.place

/-- The error type occurs in a type exactly when it occurs in its tree. -/
theorem hasError_eq_false_iff (hty : ty < st.size) :
    st.hasError ty = false ↔ (st.tree ty).Faultless := by
  induction ty using Nat.strongRecOn with
  | ind ty ih =>
    have hchild : ∀ c ∈ st.children ty, (st.hasError c = false ↔ (st.tree c).Faultless) :=
      fun c hc => ih c (lt_of_mem_children hc) (lt_size_of_mem_children hty hc)
    rw [hasError_eq hty, Bool.or_eq_false_iff, List.any_eq_false]
    simp only [Bool.not_eq_true]
    by_cases hq : (st.shape ty).isQualified = true
    · obtain ⟨q, base, hs⟩ := isQualified_iff.mp hq
      have hcs : st.children ty = [base] := by
        show (st.shape ty).children = [base]
        rw [hs]; rfl
      rw [hcs] at hchild ⊢
      rw [tree_of_qualified hs, hs, ← hchild base (by simp)]
      simp [Shape.isError]
    · rw [tree_of_not_qualified (by simpa using hq), TypeTree.faultless_mk, Shape.isError_map,
        Shape.children_map, List.forall_mem_map]
      exact and_congr_right' (forall₂_congr hchild)

/-- A variable occurs in a type when the type is the variable or one of its constituents has it. -/
theorem occurs_tree {x : VarIdent} : (st.tree ty).Occurs x ↔
    st.shape ty = .var x ∨ ∃ c ∈ st.children ty, (st.tree c).Occurs x := by
  by_cases hq : (st.shape ty).isQualified = true
  · obtain ⟨q, base, hs⟩ := isQualified_iff.mp hq
    have hcs : st.children ty = [base] := by
      show (st.shape ty).children = [base]
      rw [hs]; rfl
    rw [tree_of_qualified hs, hcs, hs]
    simp
  · rw [tree_of_not_qualified (by simpa using hq), TypeTree.occurs_mk, Shape.varIdent?_map,
      Shape.children_map]
    refine or_congr ?_ (by simp [children, shape, TypeTable.children])
    cases st.shape ty <;> simp [Shape.varIdent?]

theorem isGeneric_iff (hty : ty < st.size) : st.isGeneric ty = true ↔ (st.tree ty).Generic := by
  induction ty using Nat.strongRecOn with
  | ind ty ih =>
    have hchild : ∀ c ∈ st.children ty, (st.isGeneric c = true ↔ (st.tree c).Generic) :=
      fun c hc => ih c (lt_of_mem_children hc) (lt_size_of_mem_children hty hc)
    rw [isGeneric_eq hty, Bool.or_eq_true, List.any_eq_true]
    constructor
    · rintro (hv | ⟨c, hc, hg⟩)
      · obtain ⟨x, hx⟩ := Shape.isVar_iff.mp hv
        exact ⟨x, occurs_tree.mpr (Or.inl hx)⟩
      · obtain ⟨x, hx⟩ := (hchild c hc).mp hg
        exact ⟨x, occurs_tree.mpr (Or.inr ⟨c, hc, hx⟩)⟩
    · rintro ⟨x, hx⟩
      rcases occurs_tree.mp hx with hs | ⟨c, hc, hxc⟩
      · exact Or.inl (by rw [hs]; rfl)
      · exact Or.inr ⟨c, hc, (hchild c hc).mpr ⟨x, hxc⟩⟩

theorem eq_of_shape_var {v w : TypeId} {x : VarIdent} (hv : st.shape v = .var x)
    (hw : st.shape w = .var x) : v = w :=
  eq_of_shape_eq (lt_size_of_isVar (by rw [isVar, hv]; rfl))
    (lt_size_of_isVar (by rw [isVar, hw]; rfl)) (hv.trans hw.symm)

/-- The search for a variable in a type finds it exactly when it occurs in the tree. -/
theorem occurs_iff {v : TypeId} {x : VarIdent} (hv : st.shape v = .var x) (hty : ty < st.size) :
    st.occurs v ty = true ↔ (st.tree ty).Occurs x := by
  induction ty using Nat.strongRecOn with
  | ind ty ih =>
    have hchild : ∀ c ∈ st.children ty, (st.occurs v c = true ↔ (st.tree c).Occurs x) :=
      fun c hc => ih c (lt_of_mem_children hc) (lt_size_of_mem_children hty hc)
    rw [occurs]
    by_cases hvt : ty = v
    · subst hvt
      rw [if_pos rfl, tree_of_var hv]
      simp
    rw [if_neg hvt]
    have hshape : st.shape ty ≠ .var x := fun h => hvt (eq_of_shape_var h hv)
    by_cases hcond : (st.isGeneric ty && !st.isVar ty) = true
    · rw [if_pos hcond, List.any_eq_true, occurs_tree]
      constructor
      · rintro ⟨⟨c, hc⟩, -, ho⟩
        exact Or.inr ⟨c, hc, (hchild c hc).mp ho⟩
      · rintro (hs | ⟨c, hc, hx⟩)
        · exact absurd hs hshape
        · exact ⟨⟨c, hc⟩, List.mem_attach _ _, (hchild c hc).mpr hx⟩
    · -- the search stops at types without variables and at other variables
      rw [if_neg hcond]
      refine iff_of_false Bool.false_ne_true fun hx => ?_
      have hvar : st.isVar ty = true := by
        simpa [(isGeneric_iff hty).mpr ⟨x, hx⟩] using hcond
      obtain ⟨y, hy⟩ := Shape.isVar_iff.mp hvar
      rw [tree_of_var hy, TypeTree.occurs_var] at hx
      exact hshape (hx ▸ hy)

end Store

end ConstraintTyping
