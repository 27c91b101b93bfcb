import ConstraintTyping.Proofs.Solve.Triangular
import Mathlib.Data.List.Zip

/-!
# Compatible types

Two types are compatible when they are the same under their qualifiers, when one of them is the
error type, or when they have the same head and constituents that are compatible one by one.  A
function's constraints are not compared, and a variadic function does not insist on the number of
parameters, so compatibility is no equality and is not transitive.  It is kept by every replacement
of variables.  On plain types, which have none of these exceptions in them, it is equality.
-/

namespace ConstraintTyping

namespace Shape

variable {α β γ : Type}

/-- Two shapes are built the same way: of one kind, with the same length, name, number of arguments
and form of function.  The number of parameters is free when one of two functions is variadic. -/
def SameHead : Shape α → Shape β → Prop
  | .pointer _, .pointer _ => True
  | .array _ m, .array _ n => m = n
  | .tuple xs, .tuple ys => xs.length = ys.length
  | .function f, .function g =>
    f.isMeta = g.isMeta ∧
      (f.params.length = g.params.length ∨ f.isVariadic = true ∨ g.isVariadic = true)
  | .product n xs, .product m ys => n = m ∧ xs.length = ys.length
  | .sum n xs, .sum m ys => n = m ∧ xs.length = ys.length
  | .trait n _ xs, .trait m _ ys => n = m ∧ xs.length = ys.length
  | _, _ => False

/-- The constituents that are compared with each other: the parameters of functions as far as both
go and their results, and all constituents of other shapes. -/
def compared : Shape α → Shape α → List (α × α)
  | .function f, .function g => f.params.zip g.params ++ [(f.ret, g.ret)]
  | s, t => s.children.zip t.children

theorem sameHead_map (f : α → γ) (s t : Shape α) :
    (s.map f).SameHead (t.map f) ↔ s.SameHead t := by
  cases s <;> cases t <;> simp [SameHead, map, Signature.map]

theorem compared_map (f : α → γ) (s t : Shape α) :
    (s.map f).compared (t.map f) = (s.compared t).map (Prod.map f f) := by
  have key : (s.map f).children.zip (t.map f).children =
      (s.children.zip t.children).map (Prod.map f f) := by
    rw [children_map, children_map, List.zip_map]
  cases s <;> cases t <;> try exact key
  case function.function => simp [compared, map, Signature.map, List.zip_map]

theorem SameHead.symm {s t : Shape α} (h : s.SameHead t) : t.SameHead s := by
  cases s <;> cases t <;> simp_all [SameHead]
  tauto

/-- Comparing the other way round compares the same constituents. -/
theorem compared_swap (s t : Shape α) : t.compared s = (s.compared t).map Prod.swap := by
  have key : ∀ xs ys : List α, ys.zip xs = (xs.zip ys).map Prod.swap := fun xs ys =>
    (List.zip_swap xs ys).symm
  cases s <;> cases t <;> try exact key _ _
  case function.function f g => rw [compared, compared, List.map_append, ← key]; rfl

theorem mem_compared_symm {s t : Shape α} {p : α × α} (h : p ∈ t.compared s) :
    p.swap ∈ s.compared t := by
  rw [compared_swap t s]
  exact List.mem_map_of_mem h

theorem mem_children_of_mem_compared {s t : Shape α} {p : α × α} (h : p ∈ s.compared t) :
    p.1 ∈ s.children ∧ p.2 ∈ t.children := by
  obtain ⟨x, y⟩ := p
  cases s <;> cases t <;> try exact List.of_mem_zip h
  case function.function f g =>
    simp only [compared, List.mem_append, List.mem_singleton, Prod.mk.injEq] at h
    simp only [children, Signature.children, List.cons_append, List.mem_cons, List.mem_append]
    rcases h with h | ⟨rfl, rfl⟩
    · have := List.of_mem_zip h
      tauto
    · tauto

theorem SameHead.isVar_eq {s t : Shape α} (h : s.SameHead t) :
    s.isVar = false ∧ t.isVar = false := by
  cases s <;> cases t <;> simp_all [SameHead, isVar]

/-- No error type, no variadic function and no function with constraints. -/
def IsPlain : Shape α → Prop
  | .prim p => p ≠ .error
  | .function sig => sig.isVariadic = false ∧ sig.givens = []
  | _ => True

theorem isPlain_map (f : α → β) (s : Shape α) : (s.map f).IsPlain ↔ s.IsPlain := by
  cases s <;> simp [IsPlain, map, Signature.map]

theorem eq_of_zip {xs ys : List α} (hlen : xs.length = ys.length)
    (h : ∀ p ∈ xs.zip ys, p.1 = p.2) : xs = ys := by
  induction xs generalizing ys with
  | nil => exact (List.length_eq_zero_iff.mp hlen.symm).symm
  | cons x xs ih =>
    cases ys with
    | nil => simp at hlen
    | cons y ys =>
      have hxy : x = y := h (x, y) (by simp)
      rw [hxy, ih (by simpa using hlen) fun p hp => h p (by simp [hp])]

/-- Plain shapes of one head over the same constituents are the same. -/
theorem SameHead.eq_of_plain {s t : Shape α} (h : s.SameHead t) (hs : s.IsPlain) (ht : t.IsPlain)
    (hc : ∀ p ∈ s.compared t, p.1 = p.2) : s = t := by
  cases s <;> cases t <;> simp only [SameHead] at h <;> simp only [compared, children] at hc
  case pointer.pointer => simpa using hc
  case array.array => simpa [h] using hc
  case tuple.tuple => rw [eq_of_zip h hc]
  case product.product => rw [h.1, eq_of_zip h.2 hc]
  case sum.sum => rw [h.1, eq_of_zip h.2 hc]
  case trait.trait =>
    have := eq_of_zip (by simpa using h.2) hc
    simp only [List.cons.injEq] at this
    rw [h.1, this.1, this.2]
  case function.function f g =>
    obtain ⟨ret, params, givens, isMeta, isVariadic⟩ := f
    obtain ⟨ret', params', givens', isMeta', isVariadic'⟩ := g
    simp only [IsPlain] at hs ht
    obtain ⟨rfl, rfl⟩ := hs
    obtain ⟨rfl, rfl⟩ := ht
    have hlen : params.length = params'.length := by simpa using h.2
    have hparams : params = params' :=
      eq_of_zip hlen fun p hp => hc p (List.mem_append_left _ hp)
    have hret : ret = ret' := hc (ret, ret') (by simp)
    have hmeta : isMeta = isMeta' := h.1
    rw [hparams, hret, hmeta]

end Shape

/-! ## Compatible trees -/

namespace TypeTree

/-- Compatibility of types, on their trees. -/
inductive Compatible : TypeTree → TypeTree → Prop
  | refl (t : TypeTree) : Compatible t t
  | errorLeft (t : TypeTree) : Compatible error t
  | errorRight (t : TypeTree) : Compatible t error
  | parts {s t : Shape TypeTree} (head : s.SameHead t)
      (h : ∀ p ∈ s.compared t, Compatible p.1 p.2) : Compatible (mk s) (mk t)

variable {t u : TypeTree}

theorem Compatible.symm (h : Compatible t u) : Compatible u t := by
  induction h with
  | refl t => exact .refl t
  | errorLeft t => exact .errorRight t
  | errorRight t => exact .errorLeft t
  | parts head _ ih => exact .parts head.symm fun p hp => ih p.swap (Shape.mem_compared_symm hp)

/-- Compatible trees stay compatible when their variables are replaced. -/
theorem Compatible.subst (h : Compatible t u) (σ : VarIdent → TypeTree) :
    Compatible (t.subst σ) (u.subst σ) := by
  induction h with
  | refl t => exact .refl _
  | errorLeft t => rw [subst_prim]; exact .errorLeft _
  | errorRight t => rw [subst_prim]; exact .errorRight _
  | @parts s t head _ ih =>
    rw [subst_mk head.isVar_eq.1, subst_mk head.isVar_eq.2]
    refine .parts ((Shape.sameHead_map _ s t).mpr head) ?_
    rw [Shape.compared_map]
    intro p hp
    obtain ⟨q, hq, rfl⟩ := List.mem_map.mp hp
    exact ih q hq

theorem Compatible.applyAll (h : Compatible t u) (bs : Bound) :
    Compatible (applyAll bs t) (applyAll bs u) := by
  rw [applyAll_eq_subst, applyAll_eq_subst bs u]
  exact h.subst _

/-! ## Plain trees -/

/-- A tree without the error type, variadic functions and function constraints. -/
def Plain : TypeTree → Prop := Everywhere Shape.IsPlain

theorem plain_mk {s : Shape TypeTree} :
    Plain (mk s) ↔ s.IsPlain ∧ ∀ c ∈ s.children, Plain c := by
  rw [Plain, everywhere_mk, Shape.isPlain_map]

theorem inherited_plain : Inherited Plain := inherited_everywhere fun _ => trivial

/-- A tree that is compatible with a primitive type is that type, or one of them is the error type. -/
theorem Compatible.eq_prim {p : Prim} (h : Compatible t (prim p)) (ht : t ≠ error)
    (hp : p ≠ .error) : t = prim p := by
  generalize hu : prim p = u at h
  cases h with
  | refl => rfl
  | errorLeft => exact absurd rfl ht
  | errorRight => exact absurd (Shape.prim.inj (mk.inj hu)) hp
  | @parts s u head _ =>
    obtain rfl := mk.inj hu
    cases s <;> simp_all [Shape.SameHead]

/-- Compatible plain trees are the same. -/
theorem Compatible.eq_of_plain (h : Compatible t u) (ht : Plain t) (hu : Plain u) : t = u := by
  induction h with
  | refl t => rfl
  | errorLeft t => exact absurd rfl (plain_mk.mp ht).1
  | errorRight t => exact absurd rfl (plain_mk.mp hu).1
  | @parts s t head _ ih =>
    obtain ⟨hs, hsc⟩ := plain_mk.mp ht
    obtain ⟨ht, htc⟩ := plain_mk.mp hu
    refine congrArg mk (head.eq_of_plain hs ht fun p hp => ?_)
    obtain ⟨h₁, h₂⟩ := Shape.mem_children_of_mem_compared hp
    exact ih p hp (hsc _ h₁) (htc _ h₂)

end TypeTree

/-! ## Compatible types of a store -/

namespace Store

/-- Two types are the same under their qualifiers, or one is the error type there, or they have the
same head and the constituents that are compared are compatible. -/
inductive Compatible (st : Store) : TypeId → TypeId → Prop
  | same {a b : TypeId} (h : st.bare a = st.bare b) : Compatible st a b
  | errorLeft {a b : TypeId} (h : st.bare a = TypeId.error) : Compatible st a b
  | errorRight {a b : TypeId} (h : st.bare b = TypeId.error) : Compatible st a b
  | parts {a b : TypeId} (head : (st.shape (st.bare a)).SameHead (st.shape (st.bare b)))
      (h : ∀ p ∈ (st.shape (st.bare a)).compared (st.shape (st.bare b)),
        Compatible st p.1 p.2) : Compatible st a b

/-- A type with no error type, variadic function or constrained function anywhere in it. -/
def Plain (st : Store) (ty : TypeId) : Prop :=
  ∀ c, Relation.ReflTransGen (fun x y => y ∈ st.children x) ty c → (st.shape c).IsPlain

variable {st : Store} {a b ty : TypeId}

/-- Compatibility is a property of the trees. -/
theorem compatible_iff (ha : a < st.size) (hb : b < st.size) :
    st.Compatible a b ↔ (st.tree a).Compatible (st.tree b) := by
  constructor
  · intro h
    induction h with
    | same h => rw [(tree_eq_iff ha hb).mpr h]; exact .refl _
    | errorLeft h => rw [(bare_isError_iff ha).mp (by simp [TypeId.isError, h])]; exact .errorLeft _
    | errorRight h =>
      rw [(bare_isError_iff hb).mp (by simp [TypeId.isError, h])]; exact .errorRight _
    | @parts a b head _ ih =>
      rw [tree_eq_mk, tree_eq_mk st b]
      refine .parts ((Shape.sameHead_map _ _ _).mpr head) ?_
      rw [Shape.compared_map]
      intro p hp
      obtain ⟨q, hq, rfl⟩ := List.mem_map.mp hp
      obtain ⟨h₁, h₂⟩ := Shape.mem_children_of_mem_compared hq
      exact ih q hq (lt_size_of_mem_children (bare_lt_size ha) h₁)
        (lt_size_of_mem_children (bare_lt_size hb) h₂)
  · intro h
    generalize ht : st.tree a = t at h
    generalize hu : st.tree b = u at h
    induction h generalizing a b with
    | refl t => exact .same ((tree_eq_iff ha hb).mp (ht.trans hu.symm))
    | errorLeft t => exact .errorLeft (by simpa [TypeId.isError] using (bare_isError_iff ha).mpr ht)
    | errorRight t =>
      exact .errorRight (by simpa [TypeId.isError] using (bare_isError_iff hb).mpr hu)
    | @parts s t head _ ih =>
      rw [tree_eq_mk] at ht hu
      obtain rfl := TypeTree.mk.inj ht
      obtain rfl := TypeTree.mk.inj hu
      refine .parts ((Shape.sameHead_map _ _ _).mp head) fun p hp => ?_
      obtain ⟨h₁, h₂⟩ := Shape.mem_children_of_mem_compared hp
      refine ih (Prod.map st.tree st.tree p) ?_
        (lt_size_of_mem_children (bare_lt_size ha) h₁)
        (lt_size_of_mem_children (bare_lt_size hb) h₂) rfl rfl
      rw [Shape.compared_map]
      exact List.mem_map_of_mem hp

/-- The constituents of a type have plain trees when the type has. -/
theorem plain_tree_children (h : (st.tree ty).Plain) :
    (st.shape ty).IsPlain ∧ ∀ c ∈ st.children ty, (st.tree c).Plain := by
  by_cases hq : (st.shape ty).isQualified = true
  · obtain ⟨q, base, hs⟩ := isQualified_iff.mp hq
    rw [tree_of_qualified hs] at h
    refine ⟨by rw [hs]; trivial, fun c hc => ?_⟩
    obtain rfl : c = base := by
      change c ∈ (st.shape ty).children at hc
      simpa [hs, Shape.children] using hc
    exact h
  · rw [tree_of_not_qualified (by simpa using hq), TypeTree.plain_mk, Shape.isPlain_map,
      Shape.children_map, List.forall_mem_map] at h
    exact h

/-- Plainness is a property of the tree. -/
theorem plain_iff : st.Plain ty ↔ (st.tree ty).Plain := by
  constructor
  · intro h
    induction ty using Nat.strongRecOn with
    | ind ty ih =>
      have hchild : ∀ c ∈ st.children ty, (st.tree c).Plain := fun c hc =>
        ih c (lt_of_mem_children hc) fun d hd => h d (.head hc hd)
      by_cases hq : (st.shape ty).isQualified = true
      · obtain ⟨q, base, hs⟩ := isQualified_iff.mp hq
        rw [tree_of_qualified hs]
        refine hchild base ?_
        show base ∈ (st.shape ty).children
        rw [hs]; simp [Shape.children]
      · rw [tree_of_not_qualified (by simpa using hq), TypeTree.plain_mk, Shape.isPlain_map,
          Shape.children_map]
        exact ⟨h ty .refl, List.forall_mem_map.mpr hchild⟩
  · intro h c hc
    induction hc using Relation.ReflTransGen.head_induction_on with
    | refl => exact (plain_tree_children h).1
    | head hc _ ih => exact ih ((plain_tree_children h).2 _ hc)

end Store

end ConstraintTyping
