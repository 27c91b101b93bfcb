import ConstraintTyping.Proofs.Types.Building
import ConstraintTyping.Proofs.Types.Chains
import ConstraintTyping.Types.Variant

/-!
# Declarations that fit together

The tables of a store speak of the same declarations: a declared name stands for a product or sum of
that name over variables, an instance has the shape of its declaration at its arguments, the parent
of a tag is a declared sum over the same parameters, and that sum has it among its tags.  Stores in
which this holds are coherent.

`Store.Advances` is what making instances may do to a store.  Nothing is declared, and the body of a
declaration stays what it is.
-/

namespace ConstraintTyping

/-- The types that a body speaks of. -/
def Body.parts : Body → List TypeId
  | .product body => body.fields ++ body.parent.toList
  | .sum tags => tags

namespace DeclKind

variable {α β : Type}

theorem shape_inj {k k' : DeclKind} {name name' : Name} {args args' : List α}
    (h : k.shape name args = k'.shape name' args') : k = k' ∧ name = name' ∧ args = args' := by
  cases k <;> cases k' <;> simp_all [shape]

@[simp] theorem children_shape (k : DeclKind) (name : Name) (args : List α) :
    (k.shape name args).children = args := by
  cases k <;> rfl

@[simp] theorem map_shape (f : α → β) (k : DeclKind) (name : Name) (args : List α) :
    (k.shape name args).map f = k.shape name (args.map f) := by
  cases k <;> rfl

@[simp] theorem isQualified_shape (k : DeclKind) (name : Name) (args : List α) :
    (k.shape name args).isQualified = false := by
  cases k <;> rfl

@[simp] theorem isVar_shape (k : DeclKind) (name : Name) (args : List α) :
    (k.shape name args).isVar = false := by
  cases k <;> rfl

@[simp] theorem nominalArgs_shape (k : DeclKind) (name : Name) (args : List α) :
    (k.shape name args).nominalArgs = args := by
  cases k <;> rfl

/-- What types of a declared kind are built as. -/
def kind : DeclKind → Kind
  | .product => .product
  | .sum => .sum

@[simp] theorem kind_shape (k : DeclKind) (name : Name) (args : List α) :
    (k.shape name args).kind = k.kind := by
  cases k <;> rfl

/-- The body of a type of a declared kind that consists of nothing. -/
def emptyBody : DeclKind → Body
  | .product => .product { fields := [], fieldNames := [], parent := none }
  | .sum => .sum []

@[simp] theorem variantShape_shape (k : DeclKind) (name : Name) (params args : List TypeId) :
    DeclM.variantShape (k.shape name params) args = k.shape name args := by
  cases k <;> rfl

end DeclKind

namespace Store

variable {st st' st'' : Store} {name : Name} {d v ty : TypeId} {k : DeclKind}
  {params args : List TypeId} {b : Body}

/-- `d` is the declaration of a name, of a kind and over parameters. -/
structure Declares (st : Store) (name : Name) (d : TypeId) (k : DeclKind)
    (params : List TypeId) : Prop where
  declared : st.declared? name = some d
  shape : st.shape d = k.shape name params

theorem Declares.lt_size (h : st.Declares name d k params) : d < st.size := by
  by_contra hge
  have hs := h.shape
  rw [shape_of_ge (Nat.le_of_not_lt hge)] at hs
  cases k <;> cases hs

theorem Declares.nominalArgs (h : st.Declares name d k params) : st.nominalArgs d = params := by
  rw [Store.nominalArgs, h.shape, DeclKind.nominalArgs_shape]

theorem Declares.kind (h : st.Declares name d k params) : st.kind d = k.kind := by
  rw [Store.kind, h.shape, DeclKind.kind_shape]

theorem Declares.params_lt (h : st.Declares name d k params) : ∀ p ∈ params, p < st.size := by
  intro p hp
  refine lt_size_of_mem_children h.lt_size ?_
  show p ∈ (st.shape d).children
  rw [h.shape, DeclKind.children_shape]
  exact hp

theorem Declares.unique {k' : DeclKind} {params' : List TypeId} {d' : TypeId}
    (h : st.Declares name d k params) (h' : st.Declares name d' k' params') :
    d = d' ∧ k = k' ∧ params = params' := by
  obtain rfl : d = d' := Option.some.inj (h.declared.symm.trans h'.declared)
  obtain ⟨hk, -, hp⟩ := DeclKind.shape_inj (h.shape.symm.trans h'.shape)
  exact ⟨rfl, hk, hp⟩

/-- Two declarations of one number are the same. -/
theorem Declares.unique_of_id {name' : Name} {k' : DeclKind} {params' : List TypeId}
    (h : st.Declares name d k params) (h' : st.Declares name' d k' params') :
    name = name' ∧ k = k' ∧ params = params' := by
  obtain ⟨hk, hn, hp⟩ := DeclKind.shape_inj (h.shape.symm.trans h'.shape)
  exact ⟨hn, hk, hp⟩

/-- The tables of declarations fit together. -/
structure Coherent (st : Store) : Prop where
  /-- A declared name stands for a product or sum over variables, which is its own declaration. -/
  declares : ∀ {name : Name} {d : TypeId}, st.declared? name = some d → st.nominals.declOf[d]? = some d ∧
    ∃ k params, st.Declares name d k params ∧ ∀ p ∈ params, st.isVar p = true
  /-- An instance is its declaration at its arguments. -/
  variants : ∀ {d : TypeId} {args : List TypeId} {v : TypeId},
    st.nominals.variants[(d, args)]? = some v → v < st.size ∧ (∀ a ∈ args, a < st.size) ∧
      ∀ name k params, st.Declares name d k params → st.shape v = k.shape name (args.map st.bare)
  /-- Bodies belong to types of the store and consist of types of the store. -/
  bodies : ∀ {ty : TypeId} {b : Body}, st.nominals.bodies[ty]? = some b →
    ty < st.size ∧ ∀ c ∈ b.parts, c < st.size
  /-- The sum of a tag is declared over the same parameters. -/
  parent : ∀ {name d params body sum}, st.Declares name d .product params →
    st.productBody? d = some body → body.parent = some sum →
      ∃ sumName, st.Declares sumName sum .sum params
  /-- The tags of a sum are declared over the same parameters, and they are tags of that sum. -/
  tags : ∀ {name sum params tags tag}, st.Declares name sum .sum params →
    st.sumTags? sum = some tags → tag ∈ tags →
      ∃ tagName body, st.Declares tagName tag .product params ∧ st.productBody? tag = some body ∧
        body.parent = some sum

/-- Every declaration has a body of its kind, and every field of a product has a place for its
name. -/
structure Complete (st : Store) : Prop where
  product : ∀ {name d params}, st.Declares name d .product params →
    ∃ body, st.productBody? d = some body
  sum : ∀ {name d params}, st.Declares name d .sum params → ∃ tags, st.sumTags? d = some tags
  names : ∀ {name d params body}, st.Declares name d .product params →
    st.productBody? d = some body → body.fieldNames.length = body.fields.length

theorem productBody?_eq_some {body : ProductBody} :
    st.productBody? ty = some body ↔ st.nominals.bodies[ty]? = some (.product body) := by
  unfold productBody?
  split <;> simp_all

theorem sumTags?_eq_some {tags : List TypeId} :
    st.sumTags? ty = some tags ↔ st.nominals.bodies[ty]? = some (.sum tags) := by
  unfold sumTags?
  split <;> simp_all

/-- A type of the store in which the error type does not occur. -/
def Whole (st : Store) (ty : TypeId) : Prop := ty < st.size ∧ (st.tree ty).Faultless

theorem Whole.of_le (h : st.Whole ty) (hle : st ≤ st') : st'.Whole ty :=
  ⟨lt_size_of_le hle h.1, by rw [tree_of_le hle h.1]; exact h.2⟩

/-- The constituents of such a type are such types. -/
theorem Whole.child {c : TypeId} (h : st.Whole ty) (hc : c ∈ st.children ty) : st.Whole c := by
  have hlt := lt_size_of_mem_children h.1 hc
  have herror := (hasError_eq_false_iff h.1).mpr h.2
  rw [hasError_eq h.1, Bool.or_eq_false_iff, List.any_eq_false] at herror
  exact ⟨hlt, (hasError_eq_false_iff hlt).mp (by simpa using herror.2 c hc)⟩

theorem whole_prim (st : Store) {p : Prim} (hp : p ≠ .error) : st.Whole (TypeId.ofPrim p) :=
  ⟨lt_size_of_prim p, by rw [tree_prim]; exact TypeTree.faultless_prim.mpr hp⟩

/-- What is built over such types is such a type. -/
theorem whole_intern {s : Shape TypeId} (hq : s.isQualified = false) (herror : s.isError = false)
    (h : ∀ c ∈ s.children, st.Whole c) :
    (StoreM.intern s st).2.Whole (StoreM.intern s st).1 := by
  obtain ⟨-, hlt, htree⟩ := StoreM.yields_build hq fun c hc => (h c hc).1
  refine ⟨hlt, ?_⟩
  rw [htree, TypeTree.faultless_mk, Shape.isError_map, Shape.children_map, List.forall_mem_map]
  exact ⟨herror, fun c hc => (h c hc).2⟩

/-- Bodies consist of types in which the error type does not occur. -/
def Faultless (st : Store) : Prop :=
  ∀ (ty : TypeId) (b : Body), st.nominals.bodies[ty]? = some b → ∀ c ∈ b.parts, st.Whole c

theorem Faultless.of_le (h : st.Faultless) (hle : st ≤ st')
    (hbodies : st'.nominals.bodies = st.nominals.bodies) : st'.Faultless := by
  intro ty b hb c hc
  rw [hbodies] at hb
  exact (h ty b hb c hc).of_le hle

/-- Adding types does not take the error type out of a body. -/
theorem Faultless.of_ge (h : st'.Faultless) (hco : st.Coherent) (hle : st ≤ st')
    (hbodies : st'.nominals.bodies = st.nominals.bodies) : st.Faultless := by
  intro ty b hb c hc
  have hlt := (hco.bodies hb).2 c hc
  refine ⟨hlt, ?_⟩
  rw [← tree_of_le hle hlt]
  exact (h ty b (by rw [hbodies]; exact hb) c hc).2

/-! ## What making instances may do -/

/-- A store goes on to another without new declarations: types are added, bodies of declarations and
instances are kept.  A declaration that had no body can get an empty one.  The error type does not
come into a body unless it is in one already. -/
structure Advances (st st' : Store) : Prop where
  le : st ≤ st'
  declared : st'.nominals.declared = st.nominals.declared
  bodies : ∀ {name : Name} {d : TypeId} {b : Body}, st.declared? name = some d →
    st.nominals.bodies[d]? = some b → st'.nominals.bodies[d]? = some b
  late : ∀ {name : Name} {d : TypeId} {k : DeclKind} {params : List TypeId} {b : Body},
    st.Declares name d k params → st.nominals.bodies[d]? = none →
      st'.nominals.bodies[d]? = some b → b = k.emptyBody
  variants : ∀ {key : TypeId × List TypeId} {v : TypeId},
    st.nominals.variants[key]? = some v → st'.nominals.variants[key]? = some v
  /-- A type that becomes an instance is an instance of something declared, unless it is a trait. -/
  declOf : ∀ {ty d : TypeId}, st'.nominals.declOf[ty]? = some d →
    st.nominals.declOf[ty]? = some d ∨
      ty < st'.size ∧ (st'.kind ty = .trait ∨ ∃ name, st.declared? name = some d)
  faultless : st.Faultless → st'.Faultless

/-- Instances of products and sums are instances of what is declared. -/
def Traced (st : Store) : Prop :=
  ∀ {ty d : TypeId}, st.nominals.declOf[ty]? = some d →
    ty < st.size ∧ (st.kind ty = .trait ∨ ∃ name, st.declared? name = some d)

theorem kind_of_le (h : st ≤ st') (hty : ty < st.size) : st'.kind ty = st.kind ty := by
  rw [Store.kind, Store.kind, shape_of_le h hty]

namespace Advances

theorem refl (st : Store) : st.Advances st where
  le := le_rfl
  declared := rfl
  bodies _ h := h
  late _ h h' := by rw [h] at h'; cases h'
  variants h := h
  declOf := .inl
  faultless h := h

theorem declared? (h : st.Advances st') (name : Name) : st'.declared? name = st.declared? name := by
  rw [Store.declared?, Store.declared?, h.declared]

theorem trans (h : st.Advances st') (h' : st'.Advances st'') : st.Advances st'' where
  le := le_trans h.le h'.le
  declared := h'.declared.trans h.declared
  bodies hd hb := h'.bodies ((h.declared? _).trans hd) (h.bodies hd hb)
  late {name d k params b} hd hnone hsome := by
    have hd' : st'.Declares name d k params :=
      ⟨(h.declared? name).trans hd.declared, (shape_of_le h.le hd.lt_size).trans hd.shape⟩
    cases hmid : st'.nominals.bodies[d]? with
    | none => exact h'.late hd' hmid hsome
    | some b' =>
      rw [h'.bodies hd'.declared hmid] at hsome
      obtain rfl := Option.some.inj hsome
      exact h.late hd hnone hmid
  variants hv := h'.variants (h.variants hv)
  declOf hd := by
    rcases h'.declOf hd with hd | ⟨hlt, hkind | ⟨name, hname⟩⟩
    · refine (h.declOf hd).imp_right fun ⟨hlt, hkind⟩ => ⟨lt_size_of_le h'.le hlt, ?_⟩
      rw [kind_of_le h'.le hlt]
      exact hkind
    · exact .inr ⟨hlt, .inl hkind⟩
    · exact .inr ⟨hlt, .inr ⟨name, (h.declared? name).symm.trans hname⟩⟩
  faultless hst := h'.faultless (h.faultless hst)

theorem traced (h : st.Advances st') (ht : st.Traced) : st'.Traced := by
  intro ty d hd
  rcases h.declOf hd with hd | ⟨hlt, hkind | ⟨name, hname⟩⟩
  · obtain ⟨hlt, hkind⟩ := ht hd
    refine ⟨lt_size_of_le h.le hlt, ?_⟩
    rw [kind_of_le h.le hlt]
    exact hkind.imp_right fun ⟨name, hname⟩ => ⟨name, (h.declared? name).trans hname⟩
  · exact ⟨hlt, .inl hkind⟩
  · exact ⟨hlt, .inr ⟨name, (h.declared? name).trans hname⟩⟩

/-- Adding types is an advance. -/
theorem of_nominals (hle : st ≤ st') (h : st'.nominals = st.nominals) : st.Advances st' where
  le := hle
  declared := by rw [h]
  bodies _ hb := by rw [h]; exact hb
  late _ hnone hsome := by rw [h, hnone] at hsome; cases hsome
  variants hv := by rw [h]; exact hv
  declOf hd := by rw [h] at hd; exact .inl hd
  faultless hst := hst.of_le hle (by rw [h])

theorem declares (h : st.Advances st') (hd : st.Declares name d k params) :
    st'.Declares name d k params :=
  ⟨(h.declared? name).trans hd.declared, (shape_of_le h.le hd.lt_size).trans hd.shape⟩

/-- Nothing is declared on the way. -/
theorem declares_of (h : st.Advances st') (hco : st.Coherent) (hd : st'.Declares name d k params) :
    st.Declares name d k params := by
  have hdecl : st.declared? name = some d := (h.declared? name).symm.trans hd.declared
  obtain ⟨-, k₀, params₀, h₀, -⟩ := hco.declares hdecl
  exact ⟨hdecl, by rw [← shape_of_le h.le h₀.lt_size]; exact hd.shape⟩

theorem productBody? {body : ProductBody} (h : st.Advances st') (hd : st.declared? name = some d)
    (hb : st.productBody? d = some body) : st'.productBody? d = some body :=
  productBody?_eq_some.mpr (h.bodies hd (productBody?_eq_some.mp hb))

theorem sumTags? {tags : List TypeId} (h : st.Advances st') (hd : st.declared? name = some d)
    (hb : st.sumTags? d = some tags) : st'.sumTags? d = some tags :=
  sumTags?_eq_some.mpr (h.bodies hd (sumTags?_eq_some.mp hb))

theorem complete (h : st.Advances st') (hco : st.Coherent) (hcomp : st.Complete) :
    st'.Complete where
  product hd := by
    have hd := h.declares_of hco hd
    obtain ⟨body, hb⟩ := hcomp.product hd
    exact ⟨body, h.productBody? hd.declared hb⟩
  sum hd := by
    have hd := h.declares_of hco hd
    obtain ⟨tags, hb⟩ := hcomp.sum hd
    exact ⟨tags, h.sumTags? hd.declared hb⟩
  names hd hb' := by
    have hd := h.declares_of hco hd
    obtain ⟨body, hb⟩ := hcomp.product hd
    rw [← Option.some.inj ((h.productBody? hd.declared hb).symm.trans hb')]
    exact hcomp.names hd hb

end Advances

/-- Coherence is about declarations, instances and bodies, so types that are added do not matter. -/
theorem Coherent.of_nominals (hco : st.Coherent) (hle : st ≤ st')
    (h : st'.nominals = st.nominals) : st'.Coherent := by
  have hadv := Advances.of_nominals hle h
  have hbody : ∀ ty, st'.productBody? ty = st.productBody? ty := fun ty => by
    rw [Store.productBody?, Store.productBody?, h]
  have htags : ∀ ty, st'.sumTags? ty = st.sumTags? ty := fun ty => by
    rw [Store.sumTags?, Store.sumTags?, h]
  constructor
  · intro name d hd
    rw [hadv.declared?] at hd
    obtain ⟨hself, k, params, hdecl, hvars⟩ := hco.declares hd
    refine ⟨by rw [h]; exact hself, k, params, hadv.declares hdecl, fun p hp => ?_⟩
    rw [isVar_of_le hle (hdecl.params_lt p hp)]
    exact hvars p hp
  · intro d args v hv
    rw [h] at hv
    obtain ⟨hlt, hargs, hshape⟩ := hco.variants hv
    refine ⟨lt_size_of_le hle hlt, fun a ha => lt_size_of_le hle (hargs a ha), ?_⟩
    intro name k params hd
    rw [shape_of_le hle hlt, hshape name k params (hadv.declares_of hco hd)]
    congr 1
    exact List.map_congr_left fun a ha => (bare_of_le hle (hargs a ha)).symm
  · intro ty b hb
    rw [h] at hb
    obtain ⟨hlt, hparts⟩ := hco.bodies hb
    exact ⟨lt_size_of_le hle hlt, fun c hc => lt_size_of_le hle (hparts c hc)⟩
  · intro name d params body sum hd hb hp
    rw [hbody] at hb
    obtain ⟨sumName, hsum⟩ := hco.parent (hadv.declares_of hco hd) hb hp
    exact ⟨sumName, hadv.declares hsum⟩
  · intro name sum params tags tag hd ht hmem
    rw [htags] at ht
    obtain ⟨tagName, body, htag, hb, hp⟩ := hco.tags (hadv.declares_of hco hd) ht hmem
    exact ⟨tagName, body, hadv.declares htag, (hbody tag).trans hb, hp⟩

theorem declared?_new (name : Name) : Store.new.declared? name = none := by
  simp [Store.declared?, Store.new]

theorem coherent_new : Store.new.Coherent where
  declares h := by simp [declared?_new] at h
  variants h := by simp [Store.new] at h
  bodies h := by simp [Store.new] at h
  parent h := by simpa [declared?_new] using h.declared
  tags h := by simpa [declared?_new] using h.declared

theorem traced_new : Store.new.Traced := by
  intro ty d hd
  simp [Store.new] at hd

/-- A declaration is its own. -/
theorem Coherent.declOf?_self (hco : st.Coherent) (hd : st.declared? name = some d) :
    st.declOf? d = some d := by
  rw [declOf?, (hco.declares hd).1]

/-- What is behind a product or sum is declared. -/
theorem Traced.declares (ht : st.Traced) (hco : st.Coherent)
    (hkind : st.kind ty = .product ∨ st.kind ty = .sum) (hd : st.declOf? ty = some d) :
    ∃ name k params, st.Declares name d k params := by
  have hdeclared : ∀ {name}, st.declared? name = some d →
      ∃ name k params, st.Declares name d k params := fun {name} hname => by
    obtain ⟨-, k, params, hdecl, -⟩ := hco.declares hname
    exact ⟨name, k, params, hdecl⟩
  unfold declOf? at hd
  split at hd
  · next d' hd' =>
    obtain rfl := Option.some.inj hd
    rcases (ht hd').2 with htrait | ⟨name, hname⟩
    · rw [htrait] at hkind
      rcases hkind with hkind | hkind <;> cases hkind
    · exact hdeclared hname
  · split at hd
    · exact hdeclared (Option.filter_eq_some_iff.mp hd).1
    · exact hdeclared (Option.filter_eq_some_iff.mp hd).1
    · cases hd

theorem complete_new : Store.new.Complete where
  product h := by simpa [declared?_new] using h.declared
  sum h := by simpa [declared?_new] using h.declared
  names h := by simpa [declared?_new] using h.declared

end Store

end ConstraintTyping
