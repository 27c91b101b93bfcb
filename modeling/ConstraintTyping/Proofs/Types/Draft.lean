import ConstraintTyping.Proofs.Types.Declaring
import ConstraintTyping.Proofs.Types.Uniquing

/-!
# Declarations before anything is made of them

Declaring types, giving them bodies and building types can go on in any order, and some of it can be
refused.  As long as nothing is instantiated, only declarations have bodies, and a tag has a sum over
the same parameters.  Such a store is a draft.  Once every declared product has its fields, every
declared sum its tags, and every tag is a tag of one sum only, it is a blueprint.
-/

namespace ConstraintTyping

open StoreM

namespace Store

variable {st st' : Store} {name sumName tagName : Name} {d ty sum tag : TypeId} {k : DeclKind}
  {params : List TypeId} {b : Body}

/-- A store in which types are declared and given bodies, and in which nothing is instantiated. -/
structure Draft (st : Store) : Prop where
  declares : ∀ {name : Name} {d : TypeId}, st.declared? name = some d →
    st.nominals.declOf[d]? = some d ∧
      ∃ k params, st.Declares name d k params ∧ ∀ p ∈ params, st.isVar p = true
  /-- What has a declaration is one. -/
  declOf : ∀ {ty d : TypeId}, st.nominals.declOf[ty]? = some d →
    ty < st.size ∧ d = ty ∧ (st.kind ty = .trait ∨ ∃ name, st.declared? name = some ty)
  variants : ∀ key : TypeId × List TypeId, st.nominals.variants[key]? = none
  bodies : ∀ {ty : TypeId} {b : Body}, st.nominals.bodies[ty]? = some b →
    (∃ name params, st.Declares name ty b.declKind params) ∧ ∀ c ∈ b.parts, c < st.size
  parent : ∀ {name d params body sum}, st.Declares name d .product params →
    st.productBody? d = some body → body.parent = some sum →
      ∃ sumName, st.Declares sumName sum .sum params
  tags : ∀ {name sum params tags tag}, st.Declares name sum .sum params →
    st.sumTags? sum = some tags → tag ∈ tags →
      ∃ tagName body, st.Declares tagName tag .product params ∧ st.productBody? tag = some body

/-- Every declared product has its fields and every declared sum has its tags, each of which is a tag
of that sum and of no other. -/
structure Bodied (st : Store) : Prop where
  product : ∀ {name : Name} {d : TypeId} {params : List TypeId},
    st.Declares name d .product params → ∃ body, st.productBody? d = some body
  sum : ∀ {name : Name} {d : TypeId} {params : List TypeId},
    st.Declares name d .sum params → ∃ tags, st.sumTags? d = some tags
  tied : ∀ {name : Name} {sum tag : TypeId} {params tags : List TypeId} {body : ProductBody},
    st.Declares name sum .sum params → st.sumTags? sum = some tags → tag ∈ tags →
      st.productBody? tag = some body → body.parent = some sum

/-- All declarations have their bodies, and nothing is instantiated yet. -/
structure Blueprint (st : Store) : Prop extends Bodied st where
  draft : st.Draft

theorem Blueprint.coherent (hb : st.Blueprint) : st.Coherent where
  declares := hb.draft.declares
  variants hv := by rw [hb.draft.variants] at hv; cases hv
  bodies hbody := by
    obtain ⟨⟨name, params, hd⟩, hparts⟩ := hb.draft.bodies hbody
    exact ⟨hd.lt_size, hparts⟩
  parent := hb.draft.parent
  tags hd htags hmem := by
    obtain ⟨tagName, body, htag, hbody⟩ := hb.draft.tags hd htags hmem
    exact ⟨tagName, body, htag, hbody, hb.tied hd htags hmem hbody⟩

theorem Blueprint.exists_body (hb : st.Blueprint) (hname : st.declared? name = some d) :
    ∃ b, st.nominals.bodies[d]? = some b := by
  obtain ⟨-, k, params, hd, -⟩ := hb.coherent.declares hname
  cases k with
  | product =>
    obtain ⟨body, hbody⟩ := hb.product hd
    exact ⟨_, productBody?_eq_some.mp hbody⟩
  | sum =>
    obtain ⟨tags, htags⟩ := hb.sum hd
    exact ⟨_, sumTags?_eq_some.mp htags⟩

/-! ## Steps -/

theorem draft_new : Store.new.Draft where
  declares hd := by simp [declared?_new] at hd
  declOf hd := by simp [Store.new] at hd
  variants := by simp [Store.new]
  bodies hb := by simp [Store.new] at hb
  parent hd := by simpa [declared?_new] using hd.declared
  tags hd := by simpa [declared?_new] using hd.declared

/-- Declarations stay declarations when types are added. -/
theorem declares_of_nominals (hle : st ≤ st') (hnom : st'.nominals = st.nominals)
    (hd : st.Declares name d k params) : st'.Declares name d k params :=
  (Advances.of_nominals hle hnom).declares hd

section Steps

variable (h : st.Draft)
include h

theorem Draft.declares_of_nominals (hle : st ≤ st') (hnom : st'.nominals = st.nominals)
    (hd : st'.Declares name d k params) : st.Declares name d k params := by
  have hname := hd.declared
  rw [Store.declared?, hnom] at hname
  obtain ⟨-, k', params', hdecl, -⟩ := h.declares hname
  refine ⟨hname, ?_⟩
  rw [← shape_of_le hle hdecl.lt_size]
  exact hd.shape

/-- Types that are added do not matter. -/
theorem Draft.of_nominals (hle : st ≤ st') (hnom : st'.nominals = st.nominals) : st'.Draft := by
  have hdecl : ∀ {name d k params}, st.Declares name d k params → st'.Declares name d k params :=
    fun hd => Store.declares_of_nominals hle hnom hd
  constructor
  · intro name d hd
    rw [Store.declared?, hnom] at hd
    obtain ⟨hself, k, params, hdeclares, hvars⟩ := h.declares hd
    refine ⟨by rw [hnom]; exact hself, k, params, hdecl hdeclares, fun p hp => ?_⟩
    rw [isVar_of_le hle (hdeclares.params_lt p hp)]
    exact hvars p hp
  · intro ty d hd
    rw [hnom] at hd
    obtain ⟨hlt, hself, hkind⟩ := h.declOf hd
    refine ⟨lt_size_of_le hle hlt, hself, ?_⟩
    rw [kind_of_le hle hlt]
    refine hkind.imp_right ?_
    rintro ⟨name, hname⟩
    exact ⟨name, by rw [Store.declared?, hnom]; exact hname⟩
  · intro key
    rw [hnom]
    exact h.variants key
  · intro ty b hb
    rw [hnom] at hb
    obtain ⟨⟨name, params, hd⟩, hparts⟩ := h.bodies hb
    exact ⟨⟨name, params, hdecl hd⟩, fun c hc => lt_size_of_le hle (hparts c hc)⟩
  · intro name d params body sum hd hb hp
    rw [Store.productBody?, hnom] at hb
    obtain ⟨sumName, hsum⟩ := h.parent (h.declares_of_nominals hle hnom hd) hb hp
    exact ⟨sumName, hdecl hsum⟩
  · intro name sum params tags tag hd ht hmem
    rw [Store.sumTags?, hnom] at ht
    obtain ⟨tagName, body, htag, hb⟩ := h.tags (h.declares_of_nominals hle hnom hd) ht hmem
    exact ⟨tagName, body, hdecl htag, by rw [Store.productBody?, hnom]; exact hb⟩

/-- Declaring a product or sum over variables under a name that is not taken. -/
theorem Draft.declare (hnew : st.declared? name = none) (hshape : st.shape d = k.shape name params)
    (hvars : ∀ p ∈ params, st.isVar p = true) (hd : d < st.size) : (st.declare name d).Draft := by
  have hmore := declaresMore_declare (d := d) hnew
  have hold : ∀ {name' ty}, st.declared? name' = some ty →
      (st.declare name d).declared? name' = some ty := fun {name' ty} hname' => by
    rw [declared?_declare, if_neg]
    · exact hname'
    · rintro rfl
      rw [hnew] at hname'
      cases hname'
  -- what has a body was declared before
  have hback : ∀ {name' ty k' params' b}, (st.declare name d).Declares name' ty k' params' →
      st.nominals.bodies[ty]? = some b → st.Declares name' ty k' params' := by
    intro name' ty k' params' b hty hbody
    obtain ⟨⟨name'', params'', hty'⟩, -⟩ := h.bodies hbody
    obtain ⟨rfl, rfl, rfl⟩ := hty.unique_of_id (hmore.declares hty')
    exact hty'
  constructor
  · intro name' d' hd'
    rw [declOf_declare]
    rw [declared?_declare] at hd'
    split at hd'
    · next heq =>
      obtain rfl := Option.some.inj hd'
      subst heq
      refine ⟨if_pos rfl, k, params, ⟨?_, hshape⟩, hvars⟩
      rw [declared?_declare, if_pos rfl]
    · obtain ⟨hself, k', params', hdecl, hvars'⟩ := h.declares hd'
      refine ⟨?_, k', params', hmore.declares hdecl, hvars'⟩
      split
      · next heq => rw [heq]
      · exact hself
  · intro ty d' hd'
    rw [declOf_declare] at hd'
    split at hd'
    · next heq =>
      obtain rfl := Option.some.inj hd'
      exact ⟨heq ▸ hd, heq, .inr ⟨name, by rw [declared?_declare, if_pos rfl, heq]⟩⟩
    · obtain ⟨hlt, hself, hkind⟩ := h.declOf hd'
      exact ⟨hlt, hself, hkind.imp_right fun ⟨name', hname'⟩ => ⟨name', hold hname'⟩⟩
  · exact h.variants
  · intro ty b hb
    obtain ⟨⟨name', params', hdecl⟩, hparts⟩ := h.bodies hb
    exact ⟨⟨name', params', hmore.declares hdecl⟩, hparts⟩
  · intro name' d' params' body sum hd' hb hp
    obtain ⟨sumName, hsum⟩ := h.parent (hback hd' (productBody?_eq_some.mp hb)) hb hp
    exact ⟨sumName, hmore.declares hsum⟩
  · intro name' sum params' tags tag hd' ht hmem
    obtain ⟨tagName, body, htag, hb⟩ := h.tags (hback hd' (sumTags?_eq_some.mp ht)) ht hmem
    exact ⟨tagName, body, hmore.declares htag, hb⟩

/-- Giving a declaration its body: fields without a parent, or products over the same parameters as
tags. -/
theorem Draft.setBody (hd : st.Declares name d b.declKind params)
    (hnone : st.nominals.bodies[d]? = none) (hparts : ∀ c ∈ b.parts, c < st.size)
    (hparent : ∀ body, b = .product body → body.parent = none)
    (htags : ∀ tags, b = .sum tags → ∀ tag ∈ tags, ∃ tagName body,
      st.Declares tagName tag .product params ∧ st.productBody? tag = some body) :
    (st.setBody d b).Draft := by
  have hsame := sameButBodies_setBody st d b
  constructor
  · intro name' d' hd'
    obtain ⟨hself, k, params', hdecl, hvars⟩ := h.declares hd'
    exact ⟨hself, k, params', hsame.declares.mpr hdecl, hvars⟩
  · exact h.declOf
  · exact h.variants
  · intro ty b' hb'
    rw [bodies_setBody] at hb'
    split at hb'
    · next heq =>
      obtain rfl := Option.some.inj hb'
      exact ⟨⟨name, params, heq ▸ hsame.declares.mpr hd⟩, hparts⟩
    · obtain ⟨⟨name', params', hdecl⟩, hparts'⟩ := h.bodies hb'
      exact ⟨⟨name', params', hsame.declares.mpr hdecl⟩, hparts'⟩
  · intro name' d' params' body sum hd' hb hp
    rw [productBody?_eq_some, bodies_setBody] at hb
    split at hb
    · rw [hparent body (Option.some.inj hb)] at hp
      cases hp
    · obtain ⟨sumName, hsum⟩ := h.parent (hsame.declares.mp hd') (productBody?_eq_some.mpr hb) hp
      exact ⟨sumName, hsame.declares.mpr hsum⟩
  · intro name' sum params' tags tag hd' ht hmem
    have hd' := hsame.declares.mp hd'
    suffices hold : ∃ tagName body, st.Declares tagName tag .product params' ∧
        st.productBody? tag = some body by
      obtain ⟨tagName, body, htag, hb⟩ := hold
      exact ⟨tagName, body, hsame.declares.mpr htag, productBody?_setBody hnone hb⟩
    rw [sumTags?_eq_some, bodies_setBody] at ht
    split at ht
    · next heq =>
      subst heq
      obtain ⟨-, -, rfl⟩ := hd.unique_of_id hd'
      exact htags tags (Option.some.inj ht) tag hmem
    · exact h.tags hd' (sumTags?_eq_some.mpr ht) hmem

/-- Making a declared product a tag of a sum over the same parameters. -/
theorem Draft.bindParent (hsum : st.Declares sumName sum .sum params)
    (htag : st.Declares tagName tag .product params) : (st.bindParent tag sum).Draft := by
  have hsame := sameButBodies_bindParent st tag sum
  constructor
  · intro name d hd
    rw [hsame.declared?] at hd
    obtain ⟨hself, k, params', hdecl, hvars⟩ := h.declares hd
    refine ⟨by rw [hsame.declOf]; exact hself, k, params', hsame.declares.mpr hdecl, fun p hp => ?_⟩
    rw [isVar, hsame.shape]
    exact hvars p hp
  · intro ty d hd
    rw [hsame.declOf] at hd
    rw [hsame.size, Store.kind, hsame.shape]
    obtain ⟨hlt, hself, hkind⟩ := h.declOf hd
    refine ⟨hlt, hself, hkind.imp_right ?_⟩
    rintro ⟨name, hname⟩
    exact ⟨name, (hsame.declared? name).trans hname⟩
  · intro key
    rw [hsame.variants]
    exact h.variants key
  · intro ty b hb
    rw [hsame.size]
    cases htagBody : st.productBody? tag with
    | none =>
      rw [bindParent_of_none htagBody] at hb ⊢
      exact h.bodies hb
    | some body =>
      rw [bodies_bindParent htagBody] at hb
      split at hb
      · next heq =>
        obtain rfl := Option.some.inj hb
        subst heq
        refine ⟨⟨tagName, params, hsame.declares.mpr htag⟩, fun c hc => ?_⟩
        have hparts := (h.bodies (productBody?_eq_some.mp htagBody)).2
        rcases List.mem_append.mp hc with hc | hc
        · exact hparts c (List.mem_append_left _ hc)
        · cases hp : body.parent with
          | none =>
            obtain rfl : c = sum := by simpa [hp] using hc
            exact hsum.lt_size
          | some s =>
            refine hparts c (List.mem_append_right _ ?_)
            simpa [hp] using hc
      · obtain ⟨⟨name, params', hdecl⟩, hparts⟩ := h.bodies hb
        exact ⟨⟨name, params', hsame.declares.mpr hdecl⟩, hparts⟩
  · intro name d params' body s hd hb hp
    have hd := hsame.declares.mp hd
    obtain ⟨old, hold, -, -, hparent⟩ := productBody?_bindParent hb
    rw [hp] at hparent
    suffices hs : ∃ sName, st.Declares sName s .sum params' by
      obtain ⟨sName, hs⟩ := hs
      exact ⟨sName, hsame.declares.mpr hs⟩
    cases hop : old.parent with
    | some s' =>
      refine h.parent hd hold ?_
      split at hparent <;> simpa [hop] using hparent.symm
    | none =>
      split at hparent
      · next heq =>
        subst heq
        obtain ⟨-, -, rfl⟩ := htag.unique_of_id hd
        obtain rfl : s = sum := by simpa [hop] using hparent
        exact ⟨sumName, hsum⟩
      · simp [hop] at hparent
  · intro name s params' tags t hd ht hmem
    rw [sumTags?_bindParent] at ht
    obtain ⟨tName, old, htDecl, hold⟩ := h.tags (hsame.declares.mp hd) ht hmem
    obtain ⟨body, hbody, -⟩ := exists_productBody?_bindParent tag sum hold
    exact ⟨tName, body, hsame.declares.mpr htDecl, hbody⟩

end Steps

end Store

/-! ## Declaring and giving bodies -/

namespace DeclM

open Store

variable {st : Store} {sum ty : TypeId} {fields tags params : List TypeId} {sumName : Name}
  {names : List (Option Name)} {k : DeclKind}

/-- What is taken for a declaration of a kind is one. -/
theorem exists_declares (h : st.Draft) (hkind : st.kind ty = k.kind)
    (hdecl : st.isDeclaration ty = true) : ∃ name params, st.Declares name ty k params := by
  obtain ⟨-, -, htrait | ⟨name, hname⟩⟩ := h.declOf (eq_of_beq hdecl)
  · rw [hkind] at htrait
    cases k <;> cases htrait
  · obtain ⟨-, k', params, hd, -⟩ := h.declares hname
    rw [hd.kind] at hkind
    obtain rfl : k' = k := by cases k <;> cases k' <;> first | rfl | cases hkind
    exact ⟨name, params, hd⟩

theorem isDeclaration_of_declares {name : Name} (h : st.Draft) (hd : st.Declares name ty k params) :
    st.isDeclaration ty = true := by
  rw [isDeclaration, (h.declares hd.declared).1]
  exact beq_self_eq_true _

/-- What declaring a type comes to: a name that is taken is refused. -/
theorem draft_declare (kind : DeclKind) (name : Name) (params : List Name) (h : st.Draft) :
    Gives (declare kind name params) st (fun st' => st' = st ∧ st.declared? name ≠ none)
      fun d st' => st'.Draft ∧ st.DeclaresMore st' ∧
        (∃ vars, st'.Declares name d kind vars ∧ st'.Names params vars) ∧
        (∀ other, other ≠ name → st'.declared? other = st.declared? other) ∧
        st'.nominals.bodies = st.nominals.bodies := by
  refine gives_declare_of kind name params (fun htaken => ⟨rfl, htaken⟩) ?_
  intro st₁ d vars hle hnom hnew hd hshape hvars
  have hadv : st.Advances st₁ := .of_nominals hle hnom
  have hfree : st₁.declared? name = none := (hadv.declared? name).trans hnew
  refine ⟨(h.of_nominals hle hnom).declare hfree hshape hvars.isVar hd,
    hadv.declaresMore.trans (declaresMore_declare hfree), ⟨vars, ⟨?_, hshape⟩, hvars⟩,
    fun other hother => ?_, ?_⟩
  · exact (declared?_declare st₁ name name d).trans (if_pos rfl)
  · rw [declared?_declare, if_neg (Ne.symm hother)]
    exact hadv.declared? other
  · show st₁.nominals.bodies = st.nominals.bodies
    rw [hnom]

/-- What giving a product its fields comes to: only a declared product without a body gets any. -/
theorem draft_defineProduct (h : st.Draft) (hfields : ∀ f ∈ fields, f < st.size) :
    Gives (defineProduct ty fields names) st
      (fun st' => st' = st ∧ ∀ name params, st.Declares name ty .product params →
        st.nominals.bodies[ty]? ≠ none)
      fun _ st' => st'.Draft ∧
        st' = st.setBody ty (.product { fields, fieldNames := names, parent := none }) := by
  refine gives_get_bind ?_
  refine gives_refuse_bind (fun hrefused => ⟨rfl, fun name params hd => ?_⟩) fun hdecl => ?_
  · rw [hd.kind, isDeclaration_of_declares h hd] at hrefused
    simp [DeclKind.kind] at hrefused
  obtain ⟨hkind, hdecl⟩ : st.kind ty = .product ∧ st.isDeclaration ty = true := by simpa using hdecl
  obtain ⟨name, params, hd⟩ := exists_declares (k := .product) h hkind hdecl
  refine gives_refuse_bind (fun hrefused => ⟨rfl, fun _ _ _ hnone => ?_⟩) fun hnone =>
    gives_modify ⟨?_, rfl⟩
  · simp [Std.HashMap.contains_eq_isSome_getElem?, hnone] at hrefused
  · rw [Std.HashMap.contains_eq_isSome_getElem?, Option.not_isSome_iff_eq_none] at hnone
    refine h.setBody hd hnone (by simpa [Body.parts] using hfields) (fun body heq => ?_)
      fun tags heq => by cases heq
    obtain rfl := Body.product.inj heq
    rfl

/-- A declared product over given parameters that has its fields. -/
def Taggable (st : Store) (params : List TypeId) (tag : TypeId) : Prop :=
  ∃ name body, st.Declares name tag .product params ∧ st.productBody? tag = some body

theorem taggable_bindParent {tag other : TypeId} :
    Taggable (st.bindParent other sum) params tag ↔ Taggable st params tag := by
  have hsame := sameButBodies_bindParent st other sum
  constructor
  · rintro ⟨name, body, hd, hbody⟩
    obtain ⟨old, hold, -⟩ := productBody?_bindParent hbody
    exact ⟨name, old, hsame.declares.mp hd, hold⟩
  · rintro ⟨name, body, hd, hbody⟩
    obtain ⟨body', hbody', -⟩ := exists_productBody?_bindParent other sum hbody
    exact ⟨name, body', hsame.declares.mpr hd, hbody'⟩

theorem taggable_bindParents {tag : TypeId} :
    Taggable (st.bindParents sum tags) params tag ↔ Taggable st params tag := by
  induction tags generalizing st with
  | nil => exact Iff.rfl
  | cons other tags ih => rw [bindParents_cons, ih, taggable_bindParent]

/-- Products are made tags one after the other, until one is refused that is none of a sum over its
parameters. -/
theorem draft_bindTags (h : st.Draft) (hsum : st.Declares sumName sum .sum params) :
    Gives (tags.forM (bindTag sum)) st
      (fun st' => st'.Draft ∧ ¬ ∀ tag ∈ tags, Taggable st params tag)
      fun _ st' => st'.Draft ∧ st' = st.bindParents sum tags ∧
        ∀ tag ∈ tags, Taggable st params tag := by
  induction tags generalizing st with
  | nil => exact gives_pure ⟨h, rfl, by simp⟩
  | cons tag tags ih =>
    have hrefused : ¬ Taggable st params tag → st.Draft ∧ ¬ ∀ t ∈ tag :: tags, Taggable st params t :=
      fun hnot => ⟨h, fun hall => hnot (hall tag List.mem_cons_self)⟩
    refine Gives.bind (Q := fun _ st₁ => st₁ = st.bindParent tag sum ∧ Taggable st params tag) ?_ ?_
    · refine gives_get_bind ?_
      refine gives_refuse_bind (fun hkind => hrefused ?_) fun hkind => ?_
      · rintro ⟨name, body, hd, -⟩
        exact hkind hd.kind
      refine gives_refuse_bind (fun hargs => hrefused ?_) fun hargs => ?_
      · rintro ⟨name, body, hd, -⟩
        exact hargs (hd.nominalArgs.trans hsum.nominalArgs.symm)
      refine gives_refuse_bind (fun hnone => hrefused ?_) fun hsome => gives_modify ⟨rfl, ?_⟩
      · rintro ⟨name, body, -, hbody⟩
        rw [hbody] at hnone
        cases hnone
      · obtain ⟨body, hbody⟩ : ∃ body, st.productBody? tag = some body := by
          simpa [Option.eq_none_iff_forall_ne_some] using hsome
        obtain ⟨⟨name, params', hd⟩, -⟩ := h.bodies (productBody?_eq_some.mp hbody)
        have hparams : params' = params := by
          rw [← hd.nominalArgs, ← hsum.nominalArgs]
          exact not_not.mp hargs
        exact ⟨name, body, hparams ▸ hd, hbody⟩
    · rintro _ _ ⟨rfl, htag⟩
      obtain ⟨name, body, hd, -⟩ := id htag
      have hsum' := (sameButBodies_bindParent st tag sum).declares.mpr hsum
      refine (ih (h.bindParent hsum hd) hsum').mono (fun st' ⟨hdraft, hnot⟩ => ?_)
        fun _ st' ⟨hdraft, hst', hall⟩ => ?_
      · simp only [taggable_bindParent] at hnot
        exact ⟨hdraft, fun hall => hnot fun t ht => hall t (List.mem_cons_of_mem tag ht)⟩
      · simp only [taggable_bindParent] at hall
        exact ⟨hdraft, hst', List.forall_mem_cons.mpr ⟨htag, hall⟩⟩

/-- What giving a sum its tags comes to: only a declared sum without a body gets any, and only products
over its parameters that have their fields. -/
theorem draft_defineSum (h : st.Draft) :
    Gives (defineSum sum tags) st
      (fun st' => st'.Draft ∧ ∀ name params, st.Declares name sum .sum params →
        st.nominals.bodies[sum]? = none → ¬ ∀ tag ∈ tags, Taggable st params tag)
      fun _ st' => st'.Draft ∧ st' = (st.bindParents sum tags).setBody sum (.sum tags) := by
  refine gives_get_bind ?_
  refine gives_refuse_bind (fun hrefused => ⟨h, fun name params hd => ?_⟩) fun hdecl => ?_
  · rw [hd.kind, isDeclaration_of_declares h hd] at hrefused
    simp [DeclKind.kind] at hrefused
  obtain ⟨hkind, hdecl⟩ : st.kind sum = .sum ∧ st.isDeclaration sum = true := by simpa using hdecl
  obtain ⟨name, params, hd⟩ := exists_declares (k := .sum) h hkind hdecl
  refine gives_refuse_bind (fun hrefused => ⟨h, fun _ _ _ hnone => ?_⟩) fun hnone => ?_
  · simp [Std.HashMap.contains_eq_isSome_getElem?, hnone] at hrefused
  rw [Std.HashMap.contains_eq_isSome_getElem?, Option.not_isSome_iff_eq_none] at hnone
  refine Gives.bind ((draft_bindTags h hd).mono (fun st' ⟨hdraft, hnot⟩ => ?_)
    fun _ _ hst' => hst') ?_
  · refine ⟨hdraft, fun name' params' hd' _ => ?_⟩
    obtain ⟨-, -, rfl⟩ := hd.unique_of_id hd'
    exact hnot
  · rintro _ st₁ ⟨hdraft, rfl, hall⟩
    have hsame := sameButBodies_bindParents st sum tags
    have hself : sum ∉ tags := fun hmem => by
      obtain ⟨name', body, hd', -⟩ := hall sum hmem
      cases (hd.unique_of_id hd').2.1
    have htags : ∀ tag ∈ tags, Taggable (st.bindParents sum tags) params tag := fun tag hmem =>
      taggable_bindParents.mpr (hall tag hmem)
    refine gives_modify ⟨hdraft.setBody (hsame.declares.mpr hd) ?_ (fun tag hmem => ?_)
      (fun body heq => by cases heq) ?_, rfl⟩
    · rw [bodies_bindParents_of_not_mem hself]
      exact hnone
    · obtain ⟨name', body, hd', -⟩ := htags tag hmem
      exact hd'.lt_size
    · intro tags' heq
      obtain rfl := Body.sum.inj heq
      exact htags

end DeclM

namespace Store

/-- A store after the declaration of a trait. -/
def declareTrait (st : Store) (d : TypeId) : Store :=
  { st with nominals.declOf := st.nominals.declOf.insert d d }

/-- A trait is its own declaration, and no product or sum. -/
theorem Draft.declareTrait {st : Store} {d : TypeId} (h : st.Draft) (hd : d < st.size)
    (hkind : st.kind d = .trait) : (st.declareTrait d).Draft := by
  have hdecl : ∀ {name d' k params}, st.Declares name d' k params →
      (st.declareTrait d).Declares name d' k params := fun hd => ⟨hd.declared, hd.shape⟩
  have hdeclOf : ∀ ty : TypeId, (st.declareTrait d).nominals.declOf[ty]? =
      if d = ty then some d else st.nominals.declOf[ty]? := fun ty => by
    simp [Store.declareTrait, Std.HashMap.getElem?_insert]
  constructor
  · intro name d' hd'
    obtain ⟨hself, k, params, hdecl', hvars⟩ := h.declares hd'
    refine ⟨?_, k, params, hdecl hdecl', hvars⟩
    rw [hdeclOf]
    split
    · next heq => rw [heq]
    · exact hself
  · intro ty d' hd'
    rw [hdeclOf] at hd'
    split at hd'
    · next heq =>
      subst heq
      exact ⟨hd, (Option.some.inj hd').symm, .inl hkind⟩
    · exact h.declOf hd'
  · exact h.variants
  · intro ty b hb
    obtain ⟨⟨name, params, hd'⟩, hparts⟩ := h.bodies hb
    exact ⟨⟨name, params, hdecl hd'⟩, hparts⟩
  · intro name d' params body sum hd' hb hp
    obtain ⟨sumName, hsum⟩ := h.parent ⟨hd'.declared, hd'.shape⟩ hb hp
    exact ⟨sumName, hdecl hsum⟩
  · intro name sum params tags tag hd' ht hmem
    obtain ⟨tagName, body, htag, hb⟩ := h.tags ⟨hd'.declared, hd'.shape⟩ ht hmem
    exact ⟨tagName, body, hdecl htag, hb⟩

section ClearDeclared

variable {st : Store}

@[simp] theorem declared?_clearDeclared (st : Store) (name : Name) : st.clearDeclared.declared? name = none := by
  simp [Store.declared?, Store.clearDeclared]

theorem contains_declared {d : TypeId} :
    (st.nominals.declared.toList.map Prod.snd).contains d = true ↔
      ∃ name, st.declared? name = some d := by
  simp only [List.contains_iff_mem, List.mem_map, Prod.exists, exists_eq_right,
    Std.HashMap.mem_toList_iff_getElem?_eq_some, Store.declared?]

/-- A link is kept unless it leads to something declared. -/
theorem declOf_clearDeclared {ty d : TypeId} : st.clearDeclared.nominals.declOf[ty]? = some d ↔
    st.nominals.declOf[ty]? = some d ∧ ∀ name, st.declared? name ≠ some d := by
  simp only [Store.clearDeclared, Std.HashMap.getElem?_filter, Option.pfilter_eq_some_iff,
    Bool.not_eq_true', ← Bool.not_eq_true, contains_declared, not_exists, exists_prop, ne_eq]

/-- A body is kept where the link is. -/
theorem bodies_clearDeclared {ty : TypeId} {b : Body}
    (h : st.clearDeclared.nominals.bodies[ty]? = some b) : st.nominals.bodies[ty]? = some b ∧
      (st.clearDeclared.nominals.declOf[ty]?).isSome = true := by
  simp only [Store.clearDeclared, Std.HashMap.getElem?_filter, Option.pfilter_eq_some_iff] at h
  obtain ⟨hbody, hkept⟩ := h
  rw [Std.HashMap.getKey_eq, Std.HashMap.contains_eq_isSome_getElem?] at hkept
  exact ⟨hbody, hkept⟩

/-- An instance is kept unless it is one of something declared. -/
theorem variants_clearDeclared {d v : TypeId} {args : List TypeId} :
    st.clearDeclared.nominals.variants[(d, args)]? = some v ↔
      st.nominals.variants[(d, args)]? = some v ∧ ∀ name, st.declared? name ≠ some d := by
  simp only [Store.clearDeclared, Std.HashMap.getElem?_filter, Option.pfilter_eq_some_iff,
    Bool.not_eq_true', ← Bool.not_eq_true, contains_declared, not_exists, exists_prop, ne_eq,
    Std.HashMap.getKey_eq]

theorem mem_variants_clearDeclared {v : TypeId} (h : v ∈ st.clearDeclared.variants) :
    (st.clearDeclared.nominals.declOf[v]?).isSome = true := by
  rw [← Std.HashMap.contains_eq_isSome_getElem?]
  simp only [Store.variants, Store.clearDeclared, Array.toList_filter, List.mem_filter] at h
  exact h.2

end ClearDeclared

/-- Forgetting what is declared leaves the traits. -/
theorem Draft.clearDeclared {st : Store} (h : st.Draft) : st.clearDeclared.Draft := by
  constructor
  · intro name d hd
    rw [declared?_clearDeclared] at hd
    cases hd
  · intro ty d hd
    obtain ⟨hd, hforgotten⟩ := declOf_clearDeclared.mp hd
    obtain ⟨hlt, rfl, hkind | ⟨name, hname⟩⟩ := h.declOf hd
    · exact ⟨hlt, rfl, .inl hkind⟩
    · exact absurd hname (hforgotten name)
  · intro key
    cases hv : st.clearDeclared.nominals.variants[key]? with
    | none => rfl
    | some v => exact absurd (variants_clearDeclared.mp hv).1 (by rw [h.variants]; exact nofun)
  · intro ty b hb
    obtain ⟨hbody, hkept⟩ := bodies_clearDeclared hb
    obtain ⟨⟨name, params, hd⟩, -⟩ := h.bodies hbody
    obtain ⟨d, hd'⟩ := Option.isSome_iff_exists.mp hkept
    obtain ⟨hself, hforgotten⟩ := declOf_clearDeclared.mp hd'
    rw [(h.declares hd.declared).1] at hself
    exact absurd (hd.declared.trans hself) (hforgotten name)
  · intro name d params body sum hd
    have hname := hd.declared
    rw [declared?_clearDeclared] at hname
    cases hname
  · intro name sum params tags tag hd
    have hname := hd.declared
    rw [declared?_clearDeclared] at hname
    cases hname

end Store

/-- Declaring a trait builds its type over variables, and makes that its own declaration. -/
theorem StoreM.exists_declareTrait (name : Name) (params : List Name) (st : Store) :
    ∃ st₁ d, (st ≤ st₁ ∧ st₁.nominals = st.nominals) ∧ d < st₁.size ∧ st₁.kind d = .trait ∧
      (declareTrait name params st).2 = st₁.declareTrait d := by
  have hvars : (params.mapM namedVar).Yields st fun vars st₁ => ∀ v ∈ vars, v < st₁.size :=
    (yields_mapM (P := fun _ v st₁ => v < st₁.size)
      (fun _ _ _ _ hs hv => Store.lt_size_of_le hs.le hv)
      fun p _ st₁ _ => (yields_namedVar p st₁).mono fun _ _ _ hv => hv.1).mono
      fun vars st₁ _ hall v hv => (exists_mem_of_forall₂ hall hv).choose_spec.2
  have hbuilds := builds_mapM (fun p : Name => builds_intern (.var (.named p))) params st
  have hlt := hvars.result
  unfold declareTrait
  rw [StateM.bind_apply]
  change st ≤ (params.mapM namedVar st).2 ∧ (params.mapM namedVar st).2.nominals = _ at hbuilds
  generalize params.mapM namedVar st = r at hbuilds hlt ⊢
  have hparts : ∀ c ∈ (Shape.trait name (r.1.headD TypeId.unit) r.1.tail).children, c < r.2.size := by
    intro c hc
    rcases List.mem_cons.mp hc with rfl | hc
    · cases hr : r.1 with
      | nil => exact Store.lt_size_of_prim .unit
      | cons v vs => exact hlt v (by rw [hr]; exact List.mem_cons_self)
    · exact hlt c (List.mem_of_mem_tail hc)
  have htrait := yields_intern (s := .trait name (r.1.headD TypeId.unit) r.1.tail) rfl hparts
  exact ⟨_, _, ⟨hbuilds.1.trans htrait.steps.le, hbuilds.2⟩, htrait.result.1,
    congrArg Shape.kind htrait.result.2, rfl⟩

theorem StoreM.draft_declareTrait {st : Store} (name : Name) (params : List Name) (h : st.Draft) :
    (declareTrait name params st).2.Draft := by
  obtain ⟨st₁, d, ⟨hle, hnom⟩, hd, hkind, heq⟩ := exists_declareTrait name params st
  rw [heq]
  exact (h.of_nominals hle hnom).declareTrait hd hkind

/-! ## Runs -/

namespace Operation

variable {st : Store} {op : Operation} {ops : List Operation}

/-- Operations of which each has a property in the store that it is run in. -/
def Along (P : Store → Operation → Prop) : List Operation → Store → Prop
  | [], _ => True
  | op :: ops, st => P st op ∧ Along P ops (op.run st)

/-- An operation that builds a type. -/
inductive Builds : Operation → Prop
  | construct (description : Description) : Builds (.construct description)
  | freshVar : Builds .freshVar
  | rebuild (ty : TypeId) (parts : List TypeId) : Builds (.rebuild ty parts)
  | mapVars (f : TypeId → TypeId) (ty : TypeId) : Builds (.mapVars f ty)
  | replaceVar (ty var replacement : TypeId) : Builds (.replaceVar ty var replacement)
  | substituteAll (mapping : List (TypeId × TypeId)) (ty : TypeId) :
      Builds (.substituteAll mapping ty)
  | instantiateFresh (ty : TypeId) : Builds (.instantiateFresh ty)

/-- It adds types and nothing else. -/
theorem Builds.run (h : op.Builds) (st : Store) :
    st ≤ op.run st ∧ (op.run st).nominals = st.nominals := by
  cases h with
  | construct description => exact description.builds_build st
  | freshVar => exact builds_freshVar st
  | rebuild ty parts => exact builds_rebuild ty parts st
  | mapVars f ty => exact builds_mapVars f ty st
  | replaceVar ty var replacement => exact builds_replaceVar ty var replacement st
  | substituteAll mapping ty => exact builds_substituteAll mapping ty st
  | instantiateFresh ty => exact builds_instantiateFresh ty st

/-- An operation that builds a type, declares one, or gives a declaration its body. -/
inductive Drafts (st : Store) : Operation → Prop
  | build {op : Operation} (h : op.Builds) : Drafts st op
  | declare (kind : DeclKind) (name : Name) (params : List Name) :
      Drafts st (.declare kind name params)
  | declareTrait (name : Name) (params : List Name) : Drafts st (.declareTrait name params)
  | defineProduct {ty : TypeId} {fields : List TypeId} {names : List (Option Name)}
      (hfields : ∀ f ∈ fields, f < st.size) : Drafts st (.defineProduct ty fields names)
  | defineSum (sum : TypeId) (tags : List TypeId) : Drafts st (.defineSum sum tags)
  | clearDeclared : Drafts st .clearDeclared

/-- Refused or not, it leaves a draft. -/
theorem Drafts.run (h : st.Draft) (hop : op.Drafts st) : (op.run st).Draft := by
  cases hop with
  | build hbuilds => exact h.of_nominals (hbuilds.run st).1 (hbuilds.run st).2
  | declare kind name params =>
    refine ((DeclM.draft_declare kind name params h).mono (fun st' hst' => ?_)
      fun _ _ hst' => hst').end fun _ _ hst' => hst'.1
    exact hst'.1 ▸ h
  | declareTrait name params => exact draft_declareTrait name params h
  | defineProduct hfields =>
    refine ((DeclM.draft_defineProduct h hfields).mono (fun st' hst' => ?_) fun _ _ hst' => hst').end
      fun _ _ hst' => hst'.1
    exact hst'.1 ▸ h
  | defineSum sum tags =>
    exact ((DeclM.draft_defineSum h).mono (fun _ hst' => hst'.1) fun _ _ hst' => hst').end
      fun _ _ hst' => hst'.1
  | clearDeclared => exact h.clearDeclared

/-- What operations that do not instantiate lead to is a draft. -/
theorem draft_runAll (h : st.Draft) (hops : Along Drafts ops st) : (runAll ops st).Draft := by
  induction ops generalizing st with
  | nil => exact h
  | cons op ops ih => exact ih (Drafts.run h hops.1) hops.2

end Operation

end ConstraintTyping
