import ConstraintTyping.Proofs.Types.Draft
import ConstraintTyping.Proofs.Types.FreshInstance

/-!
# What instantiating makes of declarations

Where every declaration has its body before anything is instantiated, all that instances can come to
is settled.  `Store.Elaborated` says what a store holds that goes on from such a start: a product at
arguments has the fields of its declaration with the parameters replaced, a sum at arguments has its
tags at the same arguments, and a tag that has a parent has the sum at its own arguments.  Entering
one more instance keeps this, and so does tying a tag to its sum.

A tag is entered before its sum is, so in between it has no parent.  Such tags are loose.
-/

namespace ConstraintTyping

open StoreM

namespace Store

variable {base st st' st'' : Store} {name : Name} {d v ty : TypeId} {k : DeclKind}
  {params args : List TypeId} {decl body : ProductBody} {b : Body}

/-! ## Arguments -/

/-- Types of the store that carry no qualifiers. -/
def Unqualified (st : Store) (args : List TypeId) : Prop := ∀ a ∈ args, a < st.size ∧ st.bare a = a

theorem Unqualified.of_le (h : st.Unqualified args) (hle : st ≤ st') : st'.Unqualified args :=
  fun a ha => ⟨lt_size_of_le hle (h a ha).1, (bare_of_le hle (h a ha).1).trans (h a ha).2⟩

theorem Unqualified.map_bare (h : st.Unqualified args) : args.map st.bare = args :=
  (List.map_congr_left fun a ha => (h a ha).2).trans (List.map_id args)

/-- The arguments of a product or sum. -/
theorem unqualified_of_shape (hshape : st.shape v = k.shape name args) : st.Unqualified args := by
  have hv : v < st.size := lt_size_of_shape_ne (by rw [hshape]; cases k <;> simp [DeclKind.shape])
  intro a ha
  have hmem : a ∈ st.children v := by
    show a ∈ (st.shape v).children
    rw [hshape, DeclKind.children_shape]
    exact ha
  refine ⟨lt_size_of_mem_children hv hmem, bare_of_mem_children hv ?_ hmem⟩
  rw [hshape, DeclKind.isQualified_shape]

/-! ## Bodies at arguments -/

/-- Replacing variables in a type gives another, which the store has. -/
structure Replaces (st : Store) (mapping : List (TypeId × TypeId)) (field part : TypeId) : Prop where
  mapping_lt : ∀ p ∈ mapping, p.2 < st.size
  field_lt : field < st.size
  part_lt : part < st.size
  run_eq : substituteAll mapping field st = (part, st)

theorem Replaces.of_le {mapping : List (TypeId × TypeId)} {field part : TypeId}
    (h : st.Replaces mapping field part) (hle : st ≤ st') : st'.Replaces mapping field part where
  mapping_lt p hp := lt_size_of_le hle (h.mapping_lt p hp)
  field_lt := lt_size_of_le hle h.field_lt
  part_lt := lt_size_of_le hle h.part_lt
  run_eq := by
    have hagain := repeats_substituteAll h.mapping_lt h.field_lt st' (by rw [h.run_eq]; exact hle)
    rw [hagain, h.run_eq]

/-- A product body is that of a declaration at arguments.  A tag that has a parent has the instance of
its sum. -/
structure ProductAt (st : Store) (decl : ProductBody) (params args : List TypeId)
    (body : ProductBody) : Prop where
  fieldNames : body.fieldNames = decl.fieldNames
  fields : List.Forall₂ (st.Replaces (params.zip args)) decl.fields body.fields
  parent : ∀ s, body.parent = some s → ∃ sum, decl.parent = some sum ∧
    st.nominals.variants[(sum, args)]? = some s

theorem ProductAt.of_le (h : st.ProductAt decl params args body) (hle : st ≤ st')
    (hvariants : ∀ {key : TypeId × List TypeId} {v : TypeId},
      st.nominals.variants[key]? = some v → st'.nominals.variants[key]? = some v) :
    st'.ProductAt decl params args body where
  fieldNames := h.fieldNames
  fields := h.fields.imp fun _ _ hr => hr.of_le hle
  parent s hs := by
    obtain ⟨sum, hsum, hs⟩ := h.parent s hs
    exact ⟨sum, hsum, hvariants hs⟩

/-- A body is that of a declaration at arguments: a product has its fields there, and a sum has its
tags. -/
inductive BodyAt (base st : Store) (d : TypeId) (params args : List TypeId) : DeclKind → Body → Prop
  | product {decl body : ProductBody} (hdecl : base.productBody? d = some decl)
      (h : st.ProductAt decl params args body) : BodyAt base st d params args .product (.product body)
  | sum {tags ids : List TypeId} (htags : base.sumTags? d = some tags)
      (h : List.Forall₂ (fun tag id => st.nominals.variants[(tag, args)]? = some id) tags ids) :
      BodyAt base st d params args .sum (.sum ids)

theorem BodyAt.of_le (h : BodyAt base st d params args k b) (hle : st ≤ st')
    (hvariants : ∀ {key : TypeId × List TypeId} {v : TypeId},
      st.nominals.variants[key]? = some v → st'.nominals.variants[key]? = some v) :
    BodyAt base st' d params args k b := by
  cases h with
  | product hdecl h => exact .product hdecl (h.of_le hle hvariants)
  | sum htags h => exact .sum htags (h.imp fun _ _ hid => hvariants hid)

/-- A store that goes on from a start by making instances. -/
structure Elaborated (base st : Store) : Prop where
  le : base ≤ st
  declared : st.nominals.declared = base.nominals.declared
  /-- Declarations keep their bodies. -/
  bodies : ∀ {name : Name} {d : TypeId}, base.declared? name = some d →
    st.nominals.bodies[d]? = base.nominals.bodies[d]?
  self : ∀ {name : Name} {d : TypeId}, base.declared? name = some d →
    st.nominals.declOf[d]? = some d
  /-- The declaration behind a product or sum is that of its name. -/
  origin : ∀ {ty d : TypeId}, st.nominals.declOf[ty]? = some d → ty < st.size ∧
    ∀ (k : DeclKind) (name : Name) (args : List TypeId), st.shape ty = k.shape name args →
      base.declared? name = some d
  /-- An instance is a declaration at arguments other than its parameters. -/
  variants : ∀ {d : TypeId} {args : List TypeId} {v : TypeId},
    st.nominals.variants[(d, args)]? = some v → ∃ name k params, base.Declares name d k params ∧
      v < st.size ∧ st.shape v = k.shape name args ∧ params ≠ args ∧ params.length = args.length
  /-- It has the body of its declaration at these arguments. -/
  made : ∀ {name : Name} {d : TypeId} {k : DeclKind} {params args : List TypeId} {v : TypeId},
    base.Declares name d k params → st.nominals.variants[(d, args)]? = some v →
      ∃ b, st.nominals.bodies[v]? = some b ∧ BodyAt base st d params args k b
  /-- Nothing but declarations and instances has a body. -/
  owner : ∀ {ty : TypeId} {b : Body}, st.nominals.bodies[ty]? = some b →
    (∃ name, base.declared? name = some ty) ∨
      ∃ key : TypeId × List TypeId, st.nominals.variants[key]? = some ty

/-- A tag that is entered but not tied to its sum. -/
def Loose (base st : Store) (key : TypeId × List TypeId) : Prop :=
  ∃ decl sum v body, base.productBody? key.1 = some decl ∧ decl.parent = some sum ∧
    st.nominals.variants[key]? = some v ∧ st.productBody? v = some body ∧ body.parent = none

/-- Going on: types and instances stay, and no tag becomes loose. -/
structure Proceeds (base st st' : Store) : Prop where
  le : st ≤ st'
  variants : ∀ {key : TypeId × List TypeId} {v : TypeId},
    st.nominals.variants[key]? = some v → st'.nominals.variants[key]? = some v
  loose : ∀ {key : TypeId × List TypeId}, Loose base st' key → Loose base st key

theorem Proceeds.refl (base st : Store) : Proceeds base st st :=
  ⟨le_rfl, fun h => h, fun h => h⟩

theorem Proceeds.trans (h : Proceeds base st st') (h' : Proceeds base st' st'') :
    Proceeds base st st'' :=
  ⟨le_trans h.le h'.le, fun hv => h'.variants (h.variants hv), fun hl => h.loose (h'.loose hl)⟩

/-! ## Declarations stay what they are -/

section Declarations

variable (hb : base.Blueprint) (h : Elaborated base st)
include h

theorem Elaborated.declared? (name : Name) : st.declared? name = base.declared? name := by
  rw [Store.declared?, Store.declared?, h.declared]

theorem Elaborated.declares (hd : base.Declares name d k params) : st.Declares name d k params :=
  ⟨(h.declared? name).trans hd.declared, (shape_of_le h.le hd.lt_size).trans hd.shape⟩

theorem Elaborated.productBody? (hd : base.declared? name = some d) :
    st.productBody? d = base.productBody? d := by
  rw [Store.productBody?, Store.productBody?, h.bodies hd]

theorem Elaborated.sumTags? (hd : base.declared? name = some d) :
    st.sumTags? d = base.sumTags? d := by
  rw [Store.sumTags?, Store.sumTags?, h.bodies hd]

theorem Elaborated.lt_size {key : TypeId × List TypeId}
    (hv : st.nominals.variants[key]? = some v) : v < st.size := by
  obtain ⟨d, args⟩ := key
  obtain ⟨_, _, _, -, hlt, -⟩ := h.variants hv
  exact hlt

/-- Two instances that are one type are of one declaration at the same arguments. -/
theorem Elaborated.key_unique {key key' : TypeId × List TypeId}
    (hv : st.nominals.variants[key]? = some v) (hv' : st.nominals.variants[key']? = some v) :
    key = key' := by
  obtain ⟨d, args⟩ := key
  obtain ⟨d', args'⟩ := key'
  obtain ⟨name, k, params, hd, -, hshape, -⟩ := h.variants hv
  obtain ⟨name', k', params', hd', -, hshape', -⟩ := h.variants hv'
  obtain ⟨rfl, rfl, rfl⟩ := DeclKind.shape_inj (hshape.symm.trans hshape')
  rw [(hd.unique hd').1]

/-- The parts of an instance are types of the store. -/
theorem Elaborated.parts_lt (hbody : BodyAt base st d params args k b) :
    ∀ c ∈ b.parts, c < st.size := by
  intro c hc
  cases hbody with
  | product _ hat =>
    rcases List.mem_append.mp hc with hc | hc
    · obtain ⟨f, -, hr⟩ := exists_mem_of_forall₂ hat.fields hc
      exact hr.part_lt
    · obtain ⟨sum, -, hs⟩ := hat.parent c (Option.mem_toList.mp hc)
      exact h.lt_size hs
  | sum _ hids =>
    obtain ⟨tag, -, hc⟩ := exists_mem_of_forall₂ hids hc
    exact h.lt_size hc

include hb

theorem Elaborated.declares_of (hd : st.Declares name d k params) :
    base.Declares name d k params := by
  have hdecl : base.declared? name = some d := (h.declared? name).symm.trans hd.declared
  obtain ⟨-, k₀, params₀, h₀, -⟩ := hb.coherent.declares hdecl
  exact ⟨hdecl, by rw [← shape_of_le h.le h₀.lt_size]; exact hd.shape⟩

/-- No instance is a declaration. -/
theorem Elaborated.not_declared {key : TypeId × List TypeId}
    (hv : st.nominals.variants[key]? = some v) : base.declared? name ≠ some v := by
  intro hname
  obtain ⟨d, args⟩ := key
  obtain ⟨name', k', params', hd', -, hshape, hne, -⟩ := h.variants hv
  obtain ⟨-, k, params, hd, -⟩ := hb.coherent.declares hname
  obtain ⟨rfl, rfl, rfl⟩ := DeclKind.shape_inj (hshape.symm.trans (h.declares hd).shape)
  exact hne (hd'.unique hd).2.2

/-- What is not entered has no body. -/
theorem Elaborated.unmade (hd : base.Declares name d k params) (hne : params ≠ args)
    (hnew : st.nominals.variants[(d, args)]? = none) (hshape : st.shape v = k.shape name args) :
    st.nominals.bodies[v]? = none := by
  cases hbody : st.nominals.bodies[v]? with
  | none => rfl
  | some b =>
    rcases h.owner hbody with ⟨name', hname'⟩ | ⟨⟨d', args'⟩, hv'⟩
    · obtain ⟨-, k', params', hd', -⟩ := hb.coherent.declares hname'
      obtain ⟨rfl, rfl, rfl⟩ := DeclKind.shape_inj (hshape.symm.trans (h.declares hd').shape)
      exact absurd (hd.unique hd').2.2 hne
    · obtain ⟨name', k', params', hd', -, hshape', -⟩ := h.variants hv'
      obtain ⟨rfl, rfl, rfl⟩ := DeclKind.shape_inj (hshape.symm.trans hshape')
      rw [(hd.unique hd').1, hv'] at hnew
      cases hnew

theorem Elaborated.coherent : st.Coherent where
  declares {name d} hname := by
    rw [h.declared?] at hname
    obtain ⟨-, k, params, hd, hvars⟩ := hb.coherent.declares hname
    refine ⟨h.self hname, k, params, h.declares hd, fun p hp => ?_⟩
    rw [isVar_of_le h.le (hd.params_lt p hp)]
    exact hvars p hp
  variants {d args v} hv := by
    obtain ⟨name, k, params, hd, hlt, hshape, -⟩ := h.variants hv
    have hplain := unqualified_of_shape hshape
    refine ⟨hlt, fun a ha => (hplain a ha).1, fun name' k' params' hd' => ?_⟩
    obtain ⟨rfl, rfl, -⟩ := (h.declares hd).unique_of_id hd'
    rw [hplain.map_bare]
    exact hshape
  bodies {ty b} hbody := by
    rcases h.owner hbody with ⟨name, hname⟩ | ⟨⟨d, args⟩, hv⟩
    · rw [h.bodies hname] at hbody
      obtain ⟨hlt, hparts⟩ := hb.coherent.bodies hbody
      exact ⟨lt_size_of_le h.le hlt, fun c hc => lt_size_of_le h.le (hparts c hc)⟩
    · obtain ⟨name, k, params, hd, hlt, -⟩ := h.variants hv
      obtain ⟨b', hbody', hat⟩ := h.made hd hv
      obtain rfl := Option.some.inj (hbody.symm.trans hbody')
      exact ⟨hlt, h.parts_lt hat⟩
  parent {name d params body sum} hd hbody hparent := by
    have hd := h.declares_of hb hd
    rw [h.productBody? hd.declared] at hbody
    obtain ⟨sumName, hsum⟩ := hb.coherent.parent hd hbody hparent
    exact ⟨sumName, h.declares hsum⟩
  tags {name sum params tags tag} hd htags hmem := by
    have hd := h.declares_of hb hd
    rw [h.sumTags? hd.declared] at htags
    obtain ⟨tagName, body, htag, hbody, hparent⟩ := hb.coherent.tags hd htags hmem
    exact ⟨tagName, body, h.declares htag, (h.productBody? htag.declared).trans hbody, hparent⟩

end Declarations

theorem Blueprint.elaborated (hb : base.Blueprint) : Elaborated base base where
  le := le_rfl
  declared := rfl
  bodies _ := rfl
  self hname := (hb.coherent.declares hname).1
  origin {ty d} hd := by
    obtain ⟨hlt, rfl, hkind⟩ := hb.draft.declOf hd
    refine ⟨hlt, fun k name args hshape => ?_⟩
    rcases hkind with hkind | ⟨name', hname'⟩
    · rw [Store.kind, hshape, DeclKind.kind_shape] at hkind
      cases k <;> cases hkind
    · obtain ⟨-, k', params', hdecl, -⟩ := hb.coherent.declares hname'
      obtain ⟨rfl, rfl, rfl⟩ := DeclKind.shape_inj (hshape.symm.trans hdecl.shape)
      exact hname'
  variants hv := by rw [hb.draft.variants] at hv; cases hv
  made _ hv := by rw [hb.draft.variants] at hv; cases hv
  owner hbody := by
    obtain ⟨⟨name, params, hd⟩, -⟩ := hb.draft.bodies hbody
    exact .inl ⟨name, hd.declared⟩

theorem Blueprint.not_loose (hb : base.Blueprint) (key : TypeId × List TypeId) :
    ¬ Loose base base key := by
  rintro ⟨_, _, v, _, -, -, hv, -⟩
  rw [hb.draft.variants] at hv
  cases hv

/-! ## Steps -/

/-- Types that are added do not matter. -/
theorem Elaborated.of_nominals (h : Elaborated base st) (hle : st ≤ st')
    (hnom : st'.nominals = st.nominals) : Elaborated base st' where
  le := le_trans h.le hle
  declared := by rw [hnom, h.declared]
  bodies hd := by rw [hnom, h.bodies hd]
  self hd := by rw [hnom, h.self hd]
  origin {ty d} hd := by
    rw [hnom] at hd
    obtain ⟨hlt, hname⟩ := h.origin hd
    refine ⟨lt_size_of_le hle hlt, fun k name args hshape => hname k name args ?_⟩
    rw [← shape_of_le hle hlt, hshape]
  variants hv := by
    rw [hnom] at hv
    obtain ⟨name, k, params, hd, hlt, hshape, hplain⟩ := h.variants hv
    exact ⟨name, k, params, hd, lt_size_of_le hle hlt, (shape_of_le hle hlt).trans hshape, hplain⟩
  made hd hv := by
    rw [hnom] at hv ⊢
    obtain ⟨b, hbody, hat⟩ := h.made hd hv
    exact ⟨b, hbody, hat.of_le hle fun hv => by rw [hnom]; exact hv⟩
  owner hbody := by
    rw [hnom] at hbody ⊢
    exact h.owner hbody

theorem proceeds_of_nominals (hle : st ≤ st') (hnom : st'.nominals = st.nominals) :
    Proceeds base st st' where
  le := hle
  variants hv := by rw [hnom]; exact hv
  loose := by
    rintro key ⟨decl, sum, v, body, hdecl, hsum, hv, hbody, hparent⟩
    rw [hnom] at hv
    rw [Store.productBody?, hnom] at hbody
    exact ⟨decl, sum, v, body, hdecl, hsum, hv, hbody, hparent⟩

/-- What entering an instance with a body does to the tables. -/
structure Entering (d : TypeId) (args : List TypeId) (shape : Shape TypeId) (b : Body) (st : Store)
    (v : TypeId) (st' : Store) : Prop where
  le : st ≤ st'
  lt_size : v < st'.size
  shape : st'.shape v = shape
  declared : st'.nominals.declared = st.nominals.declared
  declOf : st'.nominals.declOf = st.nominals.declOf.insert v d
  variants : st'.nominals.variants = st.nominals.variants.insert (d, args) v
  bodies : ∀ x : TypeId, st'.nominals.bodies[x]? =
    (st.nominals.bodies[x]?).or (if v = x then some b else none)

theorem entering_enterWith (d : TypeId) (k : DeclKind) (name : Name) (b : Body)
    (hplain : st.Unqualified args) :
    Entering d args (k.shape name args) b st (DeclM.enterWith d args (k.shape name args) b st).1
      (DeclM.enterWith d args (k.shape name args) b st).2 := by
  have hlt : ∀ c ∈ (k.shape name args).children, c < st.size := by
    rw [DeclKind.children_shape]
    exact fun a ha => (hplain a ha).1
  obtain ⟨hlt, hshape⟩ := (yields_intern (k.isQualified_shape name args) hlt).result
  rw [DeclKind.map_shape, hplain.map_bare] at hshape
  have hsame := sameButBodies_ensureBody (intern (k.shape name args) st).1 b
    (DeclM.enterVariant d args (intern (k.shape name args) st).1 (intern (k.shape name args) st).2)
  exact
    { le := le_trans (intern_le (k.shape name args) st) hsame.le
      lt_size := hsame.size ▸ hlt
      shape := (hsame.shape _).trans hshape
      declared := hsame.declared
      declOf := hsame.declOf
      variants := hsame.variants
      bodies := bodies_ensureBody _ b _ }

section Enter

variable {shape : Shape TypeId} (hent : Entering d args shape b st v st')
include hent

theorem Entering.entered : st'.nominals.variants[(d, args)]? = some v := by
  rw [hent.variants, Std.HashMap.getElem?_insert_self]

/-- An instance is the new one or was there before. -/
theorem Entering.variants_cases {key : TypeId × List TypeId} {w : TypeId}
    (hw : st'.nominals.variants[key]? = some w) :
    key = (d, args) ∧ w = v ∨ st.nominals.variants[key]? = some w := by
  rw [hent.variants, Std.HashMap.getElem?_insert] at hw
  split at hw
  · next heq => exact .inl ⟨(eq_of_beq heq).symm, (Option.some.inj hw).symm⟩
  · exact .inr hw

theorem Entering.variants_of (hnew : st.nominals.variants[(d, args)]? = none)
    {key : TypeId × List TypeId} {w : TypeId} (hw : st.nominals.variants[key]? = some w) :
    st'.nominals.variants[key]? = some w := by
  rw [hent.variants, Std.HashMap.getElem?_insert]
  split
  · next heq =>
    rw [← eq_of_beq heq, hnew] at hw
    cases hw
  · exact hw

/-- A body stays. -/
theorem Entering.bodies_of {x : TypeId} {b' : Body} (hx : st.nominals.bodies[x]? = some b') :
    st'.nominals.bodies[x]? = some b' := by
  rw [hent.bodies, hx]
  rfl

end Enter

/-- Entering one more instance with the body of its declaration. -/
theorem Elaborated.entering {v : TypeId} (hb : base.Blueprint) (h : Elaborated base st)
    (hd : base.Declares name d k params) (hne : params ≠ args)
    (hlen : params.length = args.length) (hnew : st.nominals.variants[(d, args)]? = none)
    (hat : BodyAt base st d params args k b)
    (hent : Entering d args (k.shape name args) b st v st') :
    Elaborated base st' ∧ st'.nominals.bodies[v]? = some b ∧
      ∀ key, Loose base st' key → key = (d, args) ∨ Loose base st key := by
  have hunmade : st.nominals.bodies[v]? = none := by
    cases hbody : st.nominals.bodies[v]? with
    | none => rfl
    | some b' =>
      have hlt := ((h.coherent hb).bodies hbody).1
      rw [← hbody]
      exact h.unmade hb hd hne hnew ((shape_of_le hent.le hlt).symm.trans hent.shape)
  have hbody : st'.nominals.bodies[v]? = some b := by
    rw [hent.bodies, hunmade, if_pos rfl]
    rfl
  have hkept : ∀ {key : TypeId × List TypeId} {w : TypeId},
      st.nominals.variants[key]? = some w → st'.nominals.variants[key]? = some w :=
    hent.variants_of hnew
  refine ⟨⟨le_trans h.le hent.le, hent.declared.trans h.declared, ?_, ?_, ?_, ?_, ?_, ?_⟩, hbody, ?_⟩
  · intro name' d' hd'
    obtain ⟨b', hb'⟩ := hb.exists_body hd'
    exact (hent.bodies_of ((h.bodies hd').trans hb')).trans hb'.symm
  · intro name' d' hd'
    rw [hent.declOf, Std.HashMap.getElem?_insert]
    split
    · next heq =>
      obtain rfl := eq_of_beq heq
      obtain ⟨-, k', params', hdecl, -⟩ := hb.coherent.declares hd'
      have hshape := shape_of_le (le_trans h.le hent.le) hdecl.lt_size
      rw [hent.shape, hdecl.shape] at hshape
      obtain ⟨-, rfl, -⟩ := DeclKind.shape_inj hshape
      rw [(hd.unique hdecl).1]
    · exact h.self hd'
  · intro ty d' hd'
    rw [hent.declOf, Std.HashMap.getElem?_insert] at hd'
    split at hd'
    · next heq =>
      obtain rfl := eq_of_beq heq
      obtain rfl := Option.some.inj hd'
      refine ⟨hent.lt_size, fun k' name' args' hshape => ?_⟩
      obtain ⟨rfl, rfl, rfl⟩ := DeclKind.shape_inj (hshape.symm.trans hent.shape)
      exact hd.declared
    · obtain ⟨hlt, hname⟩ := h.origin hd'
      refine ⟨lt_size_of_le hent.le hlt, fun k' name' args' hshape => hname k' name' args' ?_⟩
      rw [← shape_of_le hent.le hlt, hshape]
  · intro d' args' w hw
    rcases hent.variants_cases hw with ⟨heq, rfl⟩ | hw
    · obtain ⟨rfl, rfl⟩ := Prod.mk.inj heq
      exact ⟨name, k, params, hd, hent.lt_size, hent.shape, hne, hlen⟩
    · obtain ⟨name', k', params', hd', hlt, hshape, hplain⟩ := h.variants hw
      exact ⟨name', k', params', hd', lt_size_of_le hent.le hlt,
        (shape_of_le hent.le hlt).trans hshape, hplain⟩
  · intro name' d' k' params' args' w hd' hw
    rcases hent.variants_cases hw with ⟨heq, rfl⟩ | hw
    · obtain ⟨rfl, rfl⟩ := Prod.mk.inj heq
      obtain ⟨rfl, rfl, rfl⟩ := hd.unique_of_id hd'
      exact ⟨b, hbody, hat.of_le hent.le hkept⟩
    · obtain ⟨b', hb', hat'⟩ := h.made hd' hw
      exact ⟨b', hent.bodies_of hb', hat'.of_le hent.le hkept⟩
  · intro ty b' hb'
    rw [hent.bodies, Option.or_eq_some_iff] at hb'
    rcases hb' with hb' | ⟨-, hb'⟩
    · exact (h.owner hb').imp_right fun ⟨key, hkey⟩ => ⟨key, hkept hkey⟩
    · split at hb'
      · next heq => exact .inr ⟨(d, args), heq ▸ hent.entered⟩
      · cases hb'
  · rintro key ⟨decl, sum, w, body, hdecl, hsum, hw, hwbody, hparent⟩
    rcases hent.variants_cases hw with ⟨heq, -⟩ | hw
    · exact .inl heq
    · obtain ⟨name', k', params', hd', -⟩ : ∃ name k params, base.Declares name key.1 k params ∧ _ :=
        h.variants hw
      obtain ⟨b', hb', -⟩ := h.made hd' hw
      rw [productBody?_eq_some, hent.bodies_of hb', ← hb', ← productBody?_eq_some] at hwbody
      exact .inr ⟨decl, sum, w, body, hdecl, hsum, hw, hwbody, hparent⟩

/-- Tying a tag to the instance of its sum. -/
theorem Elaborated.bindParent {sum s : TypeId} (hb : base.Blueprint) (h : Elaborated base st)
    (hd : base.Declares name d .product params) (hv : st.nominals.variants[(d, args)]? = some v)
    (hdecl : base.productBody? d = some decl) (hsum : decl.parent = some sum)
    (hs : st.nominals.variants[(sum, args)]? = some s) :
    Elaborated base (st.bindParent v s) ∧ Proceeds base st (st.bindParent v s) ∧
      ¬ Loose base (st.bindParent v s) (d, args) := by
  have hsame := sameButBodies_bindParent st v s
  obtain ⟨b, hbody, hat⟩ := h.made hd hv
  cases hat with
  | @product decl' body hdecl' hat =>
    obtain rfl := Option.some.inj (hdecl.symm.trans hdecl')
    have hbodies : ∀ x : TypeId, (st.bindParent v s).nominals.bodies[x]? = _ :=
      bodies_bindParent (productBody?_eq_some.mpr hbody)
    have hkept : ∀ {key : TypeId × List TypeId} {w : TypeId},
        st.nominals.variants[key]? = some w →
          (st.bindParent v s).nominals.variants[key]? = some w := fun hw => by
      rw [hsame.variants]
      exact hw
    have hold : ∀ {x : TypeId} {b' : Body}, st.nominals.bodies[x]? = some b' → v ≠ x →
        (st.bindParent v s).nominals.bodies[x]? = some b' := fun hx hne => by
      rw [hbodies, if_neg hne]
      exact hx
    have hbound : (st.bindParent v s).nominals.bodies[v]? =
        some (.product { body with parent := body.parent.or (some s) }) := by
      rw [hbodies, if_pos rfl]
    refine ⟨⟨le_trans h.le hsame.le, hsame.declared.trans h.declared, ?_, ?_, ?_, ?_, ?_, ?_⟩,
      ⟨hsame.le, hkept, ?_⟩, ?_⟩
    · intro name' d' hd'
      obtain ⟨b', hb'⟩ := hb.exists_body hd'
      refine (hold ((h.bodies hd').trans hb') fun heq => ?_).trans hb'.symm
      exact h.not_declared hb hv (heq ▸ hd')
    · intro name' d' hd'
      rw [hsame.declOf]
      exact h.self hd'
    · intro ty d' hd'
      rw [hsame.declOf] at hd'
      rw [hsame.size, hsame.shape]
      exact h.origin hd'
    · intro d' args' w hw
      rw [hsame.variants] at hw
      rw [hsame.size, hsame.shape]
      exact h.variants hw
    · intro name' d' k' params' args' w hd' hw
      rw [hsame.variants] at hw
      obtain ⟨b', hb', hat'⟩ := h.made hd' hw
      have hat'' := hat'.of_le hsame.le hkept
      by_cases heq : v = w
      · subst heq
        obtain ⟨rfl, rfl⟩ := Prod.mk.inj (h.key_unique hv hw)
        obtain ⟨rfl, rfl, rfl⟩ := hd.unique_of_id hd'
        have htied := hat.of_le hsame.le hkept
        refine ⟨_, hbound, .product hdecl ⟨htied.fieldNames, htied.fields, fun s' hs' => ?_⟩⟩
        cases hp : body.parent with
        | none =>
          obtain rfl : s = s' := by simpa [hp] using hs'
          exact ⟨sum, hsum, hkept hs⟩
        | some s₀ =>
          refine htied.parent s' ?_
          simpa [hp] using hs'
      · exact ⟨b', hold hb' heq, hat''⟩
    · intro ty b' hb'
      rw [hsame.variants]
      rw [hbodies] at hb'
      split at hb'
      · next heq => exact .inr ⟨(d, args), heq ▸ hv⟩
      · exact h.owner hb'
    · rintro key ⟨decl', sum', w, body', hdecl', hsum', hw, hbody', hparent⟩
      rw [hsame.variants] at hw
      rw [productBody?_eq_some, hbodies] at hbody'
      split at hbody'
      · obtain rfl := Body.product.inj (Option.some.inj hbody')
        cases hp : body.parent <;> simp [hp] at hparent
      · exact ⟨decl', sum', w, body', hdecl', hsum', hw, productBody?_eq_some.mpr hbody', hparent⟩
    · rintro ⟨decl', sum', w, body', -, -, hw, hbody', hparent⟩
      rw [hsame.variants, hv] at hw
      obtain rfl := Option.some.inj hw
      rw [productBody?_eq_some, hbound] at hbody'
      obtain rfl := Body.product.inj (Option.some.inj hbody')
      cases hp : body.parent <;> simp [hp] at hparent

end Store

end ConstraintTyping
